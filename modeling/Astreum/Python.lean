import Astreum.Effect
import Mathlib.Data.Int.Init

namespace Astreum

abbrev Bytes := List UInt8

-- the one proof behind every look-up of a hash in a list
instance lawfulBytes : LawfulBEq Bytes := inferInstance

def zero32 : Bytes := List.replicate 32 0

/-- What the program can raise. Only an `OpError` text is ever read again. `outOfFuel` is no
exception of the program: it marks a run the model cut short, and nothing catches it. -/
inductive PyError where
  | opError (message : String)
  | indexError
  | meterExceeded
  | runtimeError
  | valueError
  | typeError
  | attributeError
  | zeroDivisionError
  | unboundLocalError
  | parseError
  | assertionError
  | overflowError
  | keyError
  | structError
  | outOfFuel
  deriving DecidableEq, Repr

abbrev Py := Except PyError

abbrev Stateful (σ α : Type) := Eff PyError σ α

/-- `except Exception`: everything the program can raise. -/
def PyError.isException : PyError → Bool
  | .outOfFuel => false
  | _ => true

/-- `try: x` with `except Exception: y`. -/
def exceptException {σ α : Type} (x y : Stateful σ α) : Stateful σ α :=
  Eff.handle x fun e => if e.isException then y else .raise e

theorem keeps_exceptException {σ α : Type} {R : σ → σ → Prop} [IsPreorder σ R] {x y : Stateful σ α}
    (hx : Eff.Keeps R x) (hy : Eff.Keeps R y) : Eff.Keeps R (exceptException x y) :=
  hx.handle fun _ => .ite hy (.raise _)

/-- The handler starts from wherever the raise left the state. -/
theorem triple_exceptException {σ α : Type} {P : σ → Prop} {Q : α → σ → Prop} {x y : Stateful σ α}
    (hx : Eff.Triple P x Q) (hy : Eff.Triple (fun _ => True) y Q) :
    Eff.Triple P (exceptException x y) Q := by
  intro s hs a s' h
  rcases Eff.handle_eq_ok.mp h with h | ⟨e, t, -, h⟩
  · exact hx s hs a s' h
  · split at h
    · exact hy t trivial a s' h
    · cases h

/-- A loop that collects a value from every item and gives up at the first that has none. -/
def collect {α β : Type} (f : α → Py (Option β)) : List α → Py (Option (List β))
  | [] => .ok (some [])
  | a :: as => do
    let some b ← f a | return none
    let some bs ← collect f as | return none
    return some (b :: bs)

namespace Python

/-- `int.bit_length`. -/
def bitLength (z : Int) : Nat := if z = 0 then 0 else Nat.log2 z.natAbs + 1

/-- The `len` low bytes of `n`, least significant first. -/
def toBytesLittle : Nat → Nat → Bytes
  | 0, _ => []
  | len + 1, n => UInt8.ofNat (n % 256) :: toBytesLittle len (n / 256)

def fromBytesLittle : Bytes → Nat
  | [] => 0
  | b :: bs => b.toNat + 256 * fromBytesLittle bs

def fromBytesBig (bs : Bytes) : Nat := fromBytesLittle bs.reverse

/-- `int.from_bytes(data, "little", signed=True)`. -/
def fromBytesSigned (bs : Bytes) : Int :=
  let n : Int := fromBytesLittle bs
  if 2 * n < 256 ^ bs.length then n else n - 256 ^ bs.length

/-- `value.to_bytes(len, "little", signed=False)`. -/
def toBytesUnsigned (len : Nat) (z : Int) : Py Bytes :=
  if z < 0 ∨ 256 ^ len ≤ z then .error .overflowError else .ok (toBytesLittle len z.toNat)

/-- `//`, which rounds down. -/
def floorDiv (a b : Int) : Int := a.fdiv b

/-- `%`, which takes the sign of the divisor. -/
def floorMod (a b : Int) : Int := a.fmod b

/-- `a // b`, which raises on a zero divisor. -/
def floorDiv? (a b : Int) : Py Int :=
  if b = 0 then .error .zeroDivisionError else .ok (floorDiv a b)

/-- `0 < z and z & (z - 1) == 0`. -/
def isPowerOfTwo (z : Int) : Bool := decide (0 < z) && decide (2 ^ Nat.log2 z.natAbs = z)

end Python

/-- `_encode_int`: two's complement, little endian, one byte at least. -/
def encodeInt (value : Int) : Bytes :=
  let n := max 1 ((Python.bitLength value + 8) / 8)
  Python.toBytesLittle n (value % 256 ^ n).toNat

/-- `_decode_int`. -/
def decodeInt (data : Bytes) : Int := Python.fromBytesSigned data

end Astreum
