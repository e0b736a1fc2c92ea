import Astreum.Expr
import Astreum.Text

namespace Astreum

/-- A binary format in memory: bits of the exponent and bits of the fraction. -/
structure Layout where
  exponentBits : Nat
  fractionBits : Nat

namespace Layout

def fp64 : Layout := ⟨11, 52⟩

def fp32 : Layout := ⟨8, 23⟩

def fp16 : Layout := ⟨5, 10⟩

def bias (l : Layout) : Nat := 2 ^ (l.exponentBits - 1) - 1

def format (l : Layout) : Format := ⟨l.fractionBits + 1, 1 - l.bias, l.bias⟩

def bytes (l : Layout) : Nat := (1 + l.exponentBits + l.fractionBits) / 8

/-- The float with these bits. -/
def ofBits (l : Layout) (n : Nat) : Double :=
  let negative := n / 2 ^ (l.exponentBits + l.fractionBits) % 2 == 1
  let exponent := n / 2 ^ l.fractionBits % 2 ^ l.exponentBits
  let fraction := n % 2 ^ l.fractionBits
  let sign (q : Rat) : Double := .num (if negative then -q else q)
  if exponent = 2 ^ l.exponentBits - 1 then if fraction = 0 then .inf negative else .nan
  else if exponent = 0 then
    if fraction = 0 then .zero negative
    else sign (fraction * pow2 (1 - l.bias - l.fractionBits))
  else sign ((2 ^ l.fractionBits + fraction : Nat) * pow2 (exponent - l.bias - l.fractionBits))

/-- The bits of a float of this format. -/
def toBits (l : Layout) (x : Double) : Nat :=
  let top := 2 ^ (l.exponentBits + l.fractionBits)
  let special := (2 ^ l.exponentBits - 1) * 2 ^ l.fractionBits
  match x with
  | .nan => special + 2 ^ (l.fractionBits - 1)
  | .inf s => (if s then top else 0) + special
  | .zero s => if s then top else 0
  | .num q =>
    let e := max (ilog2 q) (1 - l.bias)
    let m := (q.abs * pow2 (l.fractionBits - e)).floor.toNat
    (if q < 0 then top else 0) +
      (if m < 2 ^ l.fractionBits then m
        else ((e + l.bias).toNat - 1) * 2 ^ l.fractionBits + m)

/-- `pack`, which raises on a finite value that rounds out of range. -/
def pack (l : Layout) (x : Double) : Py Bytes :=
  match x with
  | .num q => match Double.round l.format q with
    | .inf _ => .error .overflowError
    | .zero _ => .ok (Python.toBytesLittle l.bytes (l.toBits (.zero (decide (q < 0)))))
    | y => .ok (Python.toBytesLittle l.bytes (l.toBits y))
  | x => .ok (Python.toBytesLittle l.bytes (l.toBits x))

/-- `unpack`. -/
def unpack (l : Layout) (data : Bytes) : Py Double :=
  if data.length = l.bytes then .ok (l.ofBits (Python.fromBytesLittle data))
  else .error .structError

end Layout

/-- A finite value beyond `limit` is a `ValueError`. -/
def checkFinite (limit : Rat) (x : Double) : Py Unit :=
  match x with
  | .num q => if limit < q.abs then .error .valueError else .ok ()
  | _ => .ok ()

def fp16Max : Rat := 65504

def fp32Max : Rat := 340282347 * 10 ^ 30

def bf16Max : Rat := 338953139 * 10 ^ 30

def e4m3Max : Rat := 448

def e5m2Max : Rat := 57344

def encodeFp16 (x : Double) : Py Bytes := do
  checkFinite fp16Max x
  Layout.fp16.pack x

def encodeFp32 (x : Double) : Py Bytes := do
  checkFinite fp32Max x
  Layout.fp32.pack x

/-- The upper half of the binary32 pattern. -/
def encodeBf16 (x : Double) : Py Bytes := do
  checkFinite bf16Max x
  return (← Layout.fp32.pack x).drop 2

/-- The formats of one byte: a sign, an exponent and a short fraction. -/
structure Mini where
  fractionBits : Nat
  bias : Int
  maxExponent : Int
  limit : Rat
  nanByte : Nat
  infByte : Nat

def e4m3 : Mini := ⟨3, 7, 14, e4m3Max, 0x7f, 0x7e⟩

def e5m2 : Mini := ⟨2, 15, 30, e5m2Max, 0x7f, 0x7c⟩

namespace Mini

/-- `_e4m3_to_fp64` and `_e5m2_to_fp64`. -/
def decode (m : Mini) (b : UInt8) : Double :=
  let n := b.toNat
  let negative := n / 128 == 1
  let exponent := n / 2 ^ m.fractionBits % 2 ^ (7 - m.fractionBits)
  let fraction := n % 2 ^ m.fractionBits
  let units : Rat := (2 ^ m.fractionBits : Nat)
  let sign (q : Rat) : Double := .num (if negative then -q else q)
  if exponent = 0 then
    if fraction = 0 then .zero negative else sign (pow2 (1 - m.bias) * (fraction / units))
  else if exponent = 2 ^ (7 - m.fractionBits) - 1 then
    if m.fractionBits = 2 ∧ fraction = 0 then .inf negative else .nan
  else sign (pow2 (exponent - m.bias) * (1 + fraction / units))

def distance (m : Mini) (b : Nat) (q : Rat) : Rat :=
  (((m.decode (UInt8.ofNat b)).value?.getD 0) - q).abs

/-- `_encode_e4m3` and `_encode_e5m2`, with the exponent clamped and the fraction capped. The first
then takes the neighbour of the byte where that decodes nearer to the absolute value. -/
def encode (m : Mini) (x : Double) : Py Bytes :=
  match x with
  | .nan => .ok [UInt8.ofNat m.nanByte]
  | .inf s => .ok [UInt8.ofNat (m.infByte + if s then 128 else 0)]
  | .zero _ => .ok [0]
  | .num q =>
    let sign := if q < 0 then 128 else 0
    if m.limit < q.abs then .error .valueError
    else
      let exponent := max 1 (min (ilog2 q.abs + m.bias) m.maxExponent)
      let units : Rat := (2 ^ m.fractionBits : Nat)
      let fraction := roundHalfEven ((q.abs / pow2 (exponent - m.bias) - 1) * units)
      -- the byte of a negative fraction is a negative number
      if fraction < 0 then .error .valueError
      else
        let fraction := min fraction.toNat (2 ^ m.fractionBits - 1)
        let base := sign + exponent.toNat * 2 ^ m.fractionBits
        let encoded := base + fraction
        let neighbour := base + fraction ^^^ 1
        if m.fractionBits = 3 ∧ fraction < 7 ∧
            m.distance neighbour q.abs < m.distance encoded q.abs then
          .ok [UInt8.ofNat neighbour]
        else .ok [UInt8.ofNat encoded]

end Mini

/-- `_ENCODE_FUNCS[tag]`, with the bits of a float that is kept as one. -/
def encodeFloat (tag : String) (x : Double) : Py Val :=
  if tag = "fp64" then .ok (.f64 (UInt64.ofNat (Layout.fp64.toBits x)))
  else if tag = "e4m3" then Val.raw <$> e4m3.encode x
  else if tag = "e5m2" then Val.raw <$> e5m2.encode x
  else if tag = "fp16" then Val.raw <$> encodeFp16 x
  else if tag = "bf16" then Val.raw <$> encodeBf16 x
  else Val.raw <$> encodeFp32 x

/-- `_float_result`. -/
def floatResult (tag : String) (x : Double) : Py Expr := do
  let v ← encodeFloat tag x
  return typed v tag

/-- The bytes of a small float, of which the table formats index the first and the packed ones need
the exact number. -/
def decodeFloat (tag : String) (data : Bytes) : Py Double :=
  let first (m : Mini) : Py Double := match data with
    | b :: _ => .ok (m.decode b)
    | [] => .error .indexError
  if tag = "e4m3" then first e4m3
  else if tag = "e5m2" then first e5m2
  else if tag = "fp16" then Layout.fp16.unpack data
  else if tag = "bf16" then
    if data.length = 2 then Layout.fp32.unpack (0 :: 0 :: data) else .error .structError
  else Layout.fp32.unpack data

/-- `_expr_to_fp64`, read where the program goes on to use the float. -/
def exprToFp64 (tag : String) (e : Expr) : Py Double :=
  if tag ∉ floatTags then .error .valueError
  else match e.value with
    | .f64 bits => if tag = "fp64" then .ok (Layout.fp64.ofBits bits.toNat)
      else .error .typeError
    | .raw data => if tag = "fp64" then .error .typeError else decodeFloat tag data
    | _ => .error .typeError

end Astreum
