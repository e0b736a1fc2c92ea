import Astreum.Machine

namespace Astreum

open Core

variable (node : Node)

/-- `get_expr_tag(e)`. -/
def tagOf (e : Expr) : Stateful Core String := .ofExcept (exprTagLocal node.blake3 e)

/-- `get_expr_value(e)`, without a node to fetch the head from. -/
def exprValueLocal (e : Expr) : Py Val :=
  match e.value with
  | .none => match e.headChild with
    | .loaded head => decodeHead (exprTagLocal node.blake3 e).toOption head
    | _ => .error .valueError
  | v => .ok v

def getIntFromExpr (e : Expr) : Stateful Core Int := do
  match ← .ofExcept (exprValueLocal node e) with
  | .int n => return n
  | .raw data => return decodeInt data
  | _ => .raise .typeError

/-- `_expr_to_fp64(e)`. -/
def toFp64 (e : Expr) : Stateful Core Double := .ofExcept (exprToFp64 (node.tag e) e)

def lower (s : String) : String := s.toLower

/-- Push a result and charge its size. -/
def pushSized (e : Expr) : CoreOp := do
  chargeSize e
  push e

def truth (b : Bool) : Expr := .bytes [if b then 1 else 0]

section Arithmetic

def overflowText (tag : String) (x : Double) : String :=
  let limit := if tag = "e4m3" then e4m3Max else if tag = "e5m2" then e5m2Max
    else if tag = "fp16" then fp16Max else if tag = "bf16" then bf16Max else fp32Max
  match x with
  | .num q => if limit < q.abs then tag ++ " overflow" else "bytes must be in range(0, 256)"
  | _ => "bytes must be in range(0, 256)"

/-- A float result, for which only a `ValueError` becomes an `OpError`. -/
def floatResultOp (tag : String) (x : Double) : Stateful Core Expr :=
  match floatResult tag x with
  | .ok e => return e
  | .error .valueError => opError (overflowText tag x)
  | .error err => .raise err

/-- An operator on two integers or on two floats of one format. -/
def binaryOp (mixed text : String → String → String) (ints : Int → Int → Py Int)
    (floats : Option (Double → Double → Py Double)) : CoreOp := do
  let (a, b) ← popTwo
  let aTag ← tagOf node a
  let bTag ← tagOf node b
  if aTag = "int" ∧ bTag = "int" then
    let x ← getIntFromExpr node a
    let y ← getIntFromExpr node b
    let n ← .ofExcept (ints x y)
    pushSized (int_ n)
  else match floats with
    | none => opError (text aTag bTag)
    | some op =>
      if aTag ∈ floatTags ∧ bTag ∈ floatTags then
        .when (aTag ≠ bTag) (opError (mixed aTag bTag))
        let x ← toFp64 node a
        let y ← toFp64 node b
        let z ← .ofExcept (op x y)
        pushSized (← floatResultOp aTag z)
      else opError (text aTag bTag)

def of2 (verb : String) (a b : String) : String := verb ++ a ++ " and " ++ b

def handleStackAdd : CoreOp :=
  binaryOp node (of2 "addition of ") (of2 "addition of ") (fun x y => .ok (x + y))
    (some fun x y => .ok (x.add y))

def handleStackSub : CoreOp :=
  binaryOp node (of2 "subtraction of ") (of2 "subtraction of ") (fun x y => .ok (x - y))
    (some fun x y => .ok (x.sub y))

def handleStackMul : CoreOp :=
  binaryOp node (of2 "multiplication of ")
    (fun a b => of2 "multiplication of " (lower a) (lower b)) (fun x y => .ok (x * y))
    (some fun x y => .ok (x.mul y))

/-- Only a division of integers turns a zero divisor into an `OpError`. -/
def handleStackDiv : CoreOp :=
  binaryOp node (of2 "division of ") (of2 "division by ")
    (fun x y => if y = 0 then .error (.opError "division by zero") else .ok (Python.floorDiv x y))
    (some fun x y => match x.div? y with
      | some z => .ok z
      | none => .error .zeroDivisionError)

def handleStackMod : CoreOp :=
  binaryOp node (of2 "modulo of ") (fun a b => of2 "modulo of " (lower a) (lower b))
    (fun x y => if y = 0 then .error (.opError "modulo by zero") else .ok (Python.floorMod x y))
    none

def handleStackAbs : CoreOp := do
  let v ← pop
  let tag ← tagOf node v
  if tag = "int" then
    let n ← getIntFromExpr node v
    pushSized (int_ |n|)
  else if tag ∈ floatTags then
    let x ← toFp64 node v
    pushSized (← floatResultOp tag x.abs)
  else opError ("absolute value of " ++ lower tag)

/-- `math.sqrt` of a positive number: the root of a scaled integer, with a half where it is not
exact, rounds like the root itself. -/
def sqrtPositive (q : Rat) : Double :=
  let k : Int := 60 - (ilog2 q).fdiv 2
  let scaled := q * pow2 (2 * k)
  let n := scaled.floor.toNat
  let s := n.sqrt
  let root : Rat := if (s * s : Nat) = scaled then s else s + 1 / 2
  Double.round binary64 (root * pow2 (-k))

def sqrtFloat? : Double → Option Double
  | .nan => some .nan
  | .inf s => if s then none else some (.inf false)
  | .zero s => some (.zero s)
  | .num q => if q < 0 then none else some (sqrtPositive q)

def handleStackSqrt : CoreOp := do
  let a ← pop
  let tag ← tagOf node a
  if tag ∈ floatTags then
    let x ← toFp64 node a
    let some y := sqrtFloat? x | opError "square root of negative number"
    pushSized (← floatResultOp tag y)
  else opError ("square root of " ++ lower tag)

end Arithmetic

section Comparison

def Double.lt (x y : Double) : Bool :=
  match x, y with
  | .nan, _ => false
  | _, .nan => false
  | .inf s, .inf t => s && !t
  | .inf s, _ => s
  | _, .inf t => !t
  | x, y => decide (x.value?.getD 0 < y.value?.getD 0)

def Double.eq (x y : Double) : Bool :=
  match x, y with
  | .nan, _ => false
  | _, .nan => false
  | .inf s, .inf t => s == t
  | .inf _, _ => false
  | _, .inf _ => false
  | x, y => decide (x.value?.getD 0 = y.value?.getD 0)

/-- `_compare_numbers`. -/
def compareNumbers (verb : String) (ints : Int → Int → Bool) (floats : Double → Double → Bool) :
    CoreOp := do
  let (a, b) ← popTwo
  let aTag ← tagOf node a
  let bTag ← tagOf node b
  if aTag = "int" ∧ bTag = "int" then
    let x ← getIntFromExpr node a
    let y ← getIntFromExpr node b
    pushSized (truth (ints x y))
  else if aTag ∈ floatTags ∧ bTag ∈ floatTags then
    if aTag ≠ bTag then opError (of2 verb aTag bTag)
    let x ← toFp64 node a
    let y ← toFp64 node b
    pushSized (truth (floats x y))
  else opError (of2 verb aTag bTag)

def handleStackLessThan : CoreOp :=
  compareNumbers node "less than of " (fun x y => decide (x < y)) Double.lt

def handleStackGreaterThan : CoreOp :=
  compareNumbers node "greater than of " (fun x y => decide (y < x)) fun x y => y.lt x

def handleStackLessThanOrEqual : CoreOp :=
  compareNumbers node "less than or equal of " (fun x y => decide (x ≤ y))
    fun x y => x.lt y || x.eq y

def handleStackGreaterThanOrEqual : CoreOp :=
  compareNumbers node "greater than or equal of " (fun x y => decide (y ≤ x))
    fun x y => y.lt x || x.eq y

end Comparison

section Bits

/-- An operator on the bits of two byte strings, with the length that it gives its result. -/
def bitwiseOp (verb : String) (bits : Nat → Nat → Nat) (width : Nat → Nat) : CoreOp := do
  let (a, b) ← popTwo
  let aTag ← tagOf node a
  let bTag ← tagOf node b
  .when (aTag ≠ "bytes" ∨ bTag ≠ "bytes") (opError (of2 verb (lower aTag) (lower bTag)))
  let x ← .ofExcept a.value.toBytes
  let y ← .ofExcept b.value.toBytes
  chargeBytes (max x.length y.length)
  let n := bits (Python.fromBytesLittle x) (Python.fromBytesLittle y)
  push (.bytes (Python.toBytesLittle (width n) n))

/-- The results of `&` and `|` take as many bytes as they have bits. -/
def bitCount (n : Nat) : Nat := max 1 (Python.bitLength n)

def handleStackAnd : CoreOp := bitwiseOp node "bitwise and of " Nat.land bitCount

def handleStackOr : CoreOp := bitwiseOp node "bitwise or of " Nat.lor bitCount

def handleStackXor : CoreOp :=
  bitwiseOp node "bitwise xor of " Nat.xor fun n => max 1 ((Python.bitLength n + 7) / 8)

def handleStackNot : CoreOp := do
  let a ← pop
  let tag ← tagOf node a
  .when (tag ≠ "bytes") (opError ("bitwise not of " ++ lower tag))
  let x ← .ofExcept a.value.toBytes
  chargeBytes (x.length * 2)
  let w := max x.length 1
  push (.bytes (Python.toBytesLittle w (2 ^ (w * 8) - 1 - Python.fromBytesLittle x)))

/-- A left shift by `n` bits. A result that cannot be sized is an `OverflowError`. -/
def shiftLeft (z n : Int) : Py Int :=
  if z ≠ 0 ∧ 30 * 2 ^ 63 ≤ n then .error .overflowError else .ok (z * 2 ^ n.toNat)

/-- What a shift and a rotation check first. Gives the value to shift and its tag, or the value
itself where there is nothing to shift by. -/
def shiftOperands (verb : String) : Stateful Core (Expr × String × Val) := do
  let shiftsRaw ← popRaw
  let toShiftRaw ← popRaw
  let toShift ← real toShiftRaw
  let tag ← tagOf node toShift
  let shifts ← real shiftsRaw
  let shiftsTag ← tagOf node shifts
  .when ((tag ≠ "bytes" ∧ tag ≠ "int") ∨ shiftsTag ≠ "int") <|
    opError (verb ++ lower tag ++ " by " ++ lower shiftsTag)
  return (toShift, tag, shifts.value)

def handleStackShift : CoreOp := do
  let (toShift, tag, shifts) ← shiftOperands node "shift of "
  if shifts = .int 0 then pushSized toShift
  else if tag = "bytes" then
    let data ← .ofExcept toShift.value.toBytes
    let val := Python.fromBytesLittle data
    let n ← .ofExcept shifts.toInt
    let result ← if 0 < n then do
        let z ← .ofExcept (shiftLeft val n)
        pure (Python.floorMod z (256 ^ data.length))
      else pure (Int.fdiv val (2 ^ n.natAbs))
    chargeBytes data.length
    push (.bytes (Python.toBytesLittle data.length result.toNat))
  else
    let n ← .ofExcept shifts.toInt
    let val ← .ofExcept toShift.value.toInt
    let result ← if 0 < n then .ofExcept (shiftLeft val n) else pure (Int.fdiv val (2 ^ n.natAbs))
    chargeSize toShift
    push (int_ result)

/-- `_rotate_width`. -/
def rotateWidth (toShift : Expr) (tag : String) : Py Int := do
  if tag = "bytes" then return (← toShift.value.toBytes).length * 8
  match toShift.value with
  | .int n => return max ((Python.bitLength n + 7) / 8 * 8) 8
  | _ => .error .attributeError

/-- The value that a rotation turns, as an unsigned number of `width` bits. -/
def rotateValue (toShift : Expr) (width : Int) : Py Int := do
  match toShift.value with
  | .int n => return Python.floorMod n (2 ^ width.toNat)
  | v => return Python.fromBytesLittle (← v.toBytes)

def handleStackRotate : CoreOp := do
  let (toShift, tag, shifts) ← shiftOperands node "rotate of "
  if shifts = .int 0 then pushSized toShift
  else
    let width ← .ofExcept (rotateWidth toShift tag)
    let shifts ← .ofExcept shifts.toInt
    .when (width = 0) (.raise .zeroDivisionError)
    let n := Python.floorMod |shifts| width
    let val ← .ofExcept (rotateValue toShift width)
    let left := if 0 < shifts then n else width - n
    let low := Python.floorMod (val * 2 ^ left.toNat) (2 ^ width.toNat)
    let high := Python.floorDiv val (2 ^ (width - left).toNat)
    let result : Int := (Nat.lor low.toNat high.toNat : Nat)
    if tag = "bytes" then
      chargeBytes (Python.floorDiv width 8)
      push (.bytes (Python.toBytesLittle (width.toNat / 8) result.toNat))
    else
      chargeSize toShift
      push (int_ (if 2 ^ (width.toNat - 1) ≤ result then result - 2 ^ width.toNat else result))

end Bits

section Conversion

/-- `str(v)` of a value of an integer cell. -/
def Val.text : Val → String
  | .int n => toString n
  | .str s => s
  | _ => "None"

def Val.toStr : Val → Stateful Core String
  | .str s => return s
  | _ => .raise .typeError

/-- `str(_expr_to_fp64(e))`. A float cell without a value reads as `None`. -/
def floatText (tag : String) (e : Expr) : Stateful Core String := do
  if tag = "fp64" ∧ e.value = .none then return "None"
  return Python.textOfFloat (← toFp64 node e)

def handleStackInt : CoreOp := do
  let v ← pop
  let tag ← tagOf node v
  if tag = "bytes" then
    let data ← .ofExcept v.value.toBytes
    chargeSize v
    push (int_ (decodeInt data))
  else if tag = "str" ∨ tag = "symbol" then
    let text ← v.value.toStr
    match Python.intOfText text with
    | .ok n => pushSized (int_ n)
    | .error _ => opError "int: invalid literal"
  else if tag ∈ floatTags then
    if tag = "fp64" ∧ v.value = .none then .raise .typeError
    let x ← toFp64 node v
    match x.toInt? with
    | some n => pushSized (int_ n)
    | none => opError "int: overflow"
  else if tag = "int" then pushSized v
  else opError ("int of " ++ tag)

def handleStackBytes : CoreOp := do
  let v ← pop
  let tag ← tagOf node v
  if tag = "int" then
    match v.value with
    | .int n =>
      chargeSize v
      push (.bytes (encodeInt n))
    | _ => .raise .attributeError
  else if tag ∈ floatTags then
    match v.value with
    | .raw data =>
      chargeSize v
      push (.bytes data)
    | .f64 bits =>
      chargeSize v
      push (.bytes (Python.toBytesLittle 8 bits.toNat))
    | _ =>
      .when (tag = "fp64") (.raise .structError)
      -- a bytes cell is made of no bytes
      chargeSize v
      push (.bytesOf .nil)
  else if tag = "str" ∨ tag = "symbol" then
    match v.value with
    | .str s => pushSized (.bytes (utf8 s))
    | _ => .raise .attributeError
  else if tag = "bytes" then pushSized v
  else opError ("bytes of " ++ tag)

/-- `bytes.decode('utf-8')` of a bytes cell. -/
def decodeText (op : String) (v : Expr) : Stateful Core String := do
  let data ← match v.value with
    | .raw data => pure data
    | _ => .raise .attributeError
  match utf8Decode data with
  | .ok s => return s
  | .error _ => opError (op ++ ": bytes are not valid UTF-8")

def handleStackStr : CoreOp := do
  let v ← pop
  let tag ← tagOf node v
  if tag = "bytes" then
    let s ← decodeText "str" v
    chargeSize v
    push (str_ s)
  else if tag = "int" then pushSized (str_ v.value.text)
  else if tag ∈ floatTags then pushSized (str_ (← floatText node tag v))
  else if tag = "str" then pushSized v
  else if tag = "symbol" then pushSized (str_ (← v.value.toStr))
  else opError ("str of " ++ tag)

def handleStackSymbol : CoreOp := do
  let v ← pop
  let tag ← tagOf node v
  if tag = "bytes" then
    let s ← decodeText "symbol" v
    chargeSize v
    push (.symbol s)
  else if tag = "str" ∨ tag = "int" then pushSized (.symbol v.value.text)
  else if tag ∈ floatTags then pushSized (.symbol (← floatText node tag v))
  else if tag = "symbol" then pushSized v
  else opError ("symbol of " ++ tag)

/-- A conversion to a float format. `unpacked` tells the formats that turn a `ValueError` on their
own bytes into an `OpError` from the table formats that do not. -/
def floatOp (name : String) (width : Nat) (unpacked : Bool) : CoreOp := do
  let v ← pop
  let tag ← tagOf node v
  if tag = "bytes" then
    let data ← .ofExcept v.value.toBytes
    .when (data.length ≠ width) (opError (name ++ " requires " ++ toString width ++ "-byte input"))
    let result ← if name = "fp64" then
        pure (typed (.f64 (UInt64.ofNat (Python.fromBytesLittle data))) "fp64")
      else do
        let x ← .ofExcept (decodeFloat name data)
        if unpacked then floatResultOp name x else .ofExcept (floatResult name x)
    chargeSize v
    push result
  else if tag = "str" ∨ tag = "symbol" then
    let text ← v.value.toStr
    match Python.floatOfText text with
    | .ok x => pushSized (← floatResultOp name x)
    | .error _ => opError (name ++ ": invalid literal")
  else if tag = "int" then
    let n ← .ofExcept v.value.toInt
    match Double.ofInt? n with
    | some x => pushSized (← floatResultOp name x)
    | none => opError (name ++ ": overflow")
  else if tag = name then pushSized v
  else opError (name ++ " of " ++ tag)

def handleStackE4m3 : CoreOp := floatOp node "e4m3" 1 false

def handleStackE5m2 : CoreOp := floatOp node "e5m2" 1 false

def handleStackFp16 : CoreOp := floatOp node "fp16" 2 true

def handleStackBf16 : CoreOp := floatOp node "bf16" 2 false

def handleStackFp32 : CoreOp := floatOp node "fp32" 4 true

def handleStackFp64 : CoreOp := floatOp node "fp64" 8 true

end Conversion

section Stack

def handleStackDrop : CoreOp := do
  require 1
  let _ ← popRaw
  chargeBytes 1

def handleStackDup : CoreOp := do
  require 1
  let v ← pop
  chargeSize v
  push v
  push v

def handleStackSwap : CoreOp := do
  require 2
  let b ← popRaw
  let a ← popRaw
  chargeBytes 1
  pushRaw b
  pushRaw a

def handleStackRot : CoreOp := do
  require 3
  let c ← popRaw
  let b ← popRaw
  let a ← popRaw
  chargeBytes 3
  pushRaw b
  pushRaw c
  pushRaw a

end Stack

section Cells

def childOf : Option Expr → Child
  | some e => .loaded e
  | none => .none

def handleStackLink : CoreOp := do
  let tail ← popRaw
  let head ← popRaw
  chargeBytes 1
  push (.link .none (childOf head) (childOf tail))

/-- One side of a link. A side known by its hash only reads as nil. -/
def sideOp (name : String) (side : Expr → Option Expr) : CoreOp := do
  let pair ← pop
  .when (node.tag pair ≠ "link") (opError (name ++ " of " ++ node.tag pair))
  chargeBytes 1
  push ((side pair).getD .nil)

def handleStackHead : CoreOp := sideOp node "head" Expr.head?

def handleStackTail : CoreOp := sideOp node "tail" Expr.tail?

def handleStackId : CoreOp := do
  let e ← pop
  let h ← .ofExcept (node.hash? e)
  chargeBytes h.length
  push (.bytes h)

def handleStackInit : CoreOp := do
  require 2
  let tagRaw ← popRaw
  let valueRaw ← popRaw
  let tagExpr ← real tagRaw
  let .symbol tag := tagExpr
    | opError ("init requires a symbol tag, got " ++ node.tag tagExpr)
  let value ← real valueRaw
  if (← tagOf node value) = tag then push value
  else push (link value (.symbol tag))

def handleStackQuote : CoreOp := do
  let v ← pop
  chargeSize v
  push (link (.symbol "'") v)

def handleStackType : CoreOp := do
  require 1
  let e ← pop
  push (.symbol (← tagOf node e))

def handleStackIs : CoreOp := do
  require 2
  let tagRaw ← popRaw
  let valueRaw ← popRaw
  let .symbol target ← real tagRaw | opError "is requires a symbol"
  let value ← real valueRaw
  let tag ← tagOf node value
  chargeBytes 1
  push (truth (tag = target))

/-- `expr_equal`. Objects are not told apart from equal ones, but for nil. The depth of the first
cell bounds the recursion. -/
def exprEqual : Nat → Option Expr → Option Expr → Py Bool
  | 0, _, _ => .error .outOfFuel
  | n + 1, x, y => match x, y with
    | none, none => .ok true
    | some .nil, some .nil => .ok true
    | some x, some y => do
      let xTag ← exprTagLocal node.blake3 x
      let yTag ← exprTagLocal node.blake3 y
      if xTag = "link" ∧ yTag = "link" then
        if ← exprEqual n x.head? y.head? then exprEqual n x.tail? y.tail? else return false
      else if xTag ≠ yTag then return false
      else if xTag = "int" ∨ xTag = "bytes" ∨ xTag = "symbol" then
        return decide (x.value = y.value)
      else if xTag ∈ floatTags then
        if xTag = "fp64" ∧ (x.value = .none ∨ y.value = .none) then
          return decide (x.value = y.value)
        let p ← exprToFp64 (node.tag x) x
        let q ← exprToFp64 (node.tag y) y
        return p.eq q
      else return false
    | _, _ => .ok false

mutual

def Expr.depth : Expr → Nat
  | .link _ h t => 1 + max h.depth t.depth
  | _ => 1

def Child.depth : Child → Nat
  | .loaded e => e.depth
  | _ => 1

end

def handleStackIsEq : CoreOp := do
  let (a, b) ← popTwo
  let n ← .ofExcept a.size
  let m ← .ofExcept b.size
  chargeBytes (min n m + 1)
  push (truth (← .ofExcept (exprEqual node (a.depth + 1) (some a) (some b))))

/-- `ok` and `err`, which charge one byte for the tag. -/
def tagOp (tag : String) : CoreOp := do
  require 1
  let v ← pop
  let n ← .ofExcept v.size
  chargeBytes (n + 1)
  push (link v (.symbol tag))

def handleStackOk : CoreOp := tagOp "ok"

def handleStackErr : CoreOp := tagOp "err"

def handleStackDef : CoreOp := do
  require 2
  let nameRaw ← popRaw
  let valueRaw ← popRaw
  let name ← real nameRaw
  let tag ← tagOf node name
  let .symbol key := name | opError ("def of " ++ tag)
  let value ← real valueRaw
  let n ← .ofExcept name.size
  let m ← .ofExcept value.size
  chargeBytes (n + m)
  match (← Eff.read).env with
  | [] => .raise .attributeError
  | frame :: parents =>
    .when ((frame.get? key).isSome) (opError "def already exists")
    .update fun s => { s with env := frame.insert key value :: parents }

/-- The bindings of a frame, put into a tree one after the other. -/
def bindingsTree (frame : Frame) : Py Tree :=
  frame.pairs.foldlM (fun tree (key, value) => putInRadixTree tree (utf8 key) (.expr value)) .empty

/-- The chain hash of an environment and the frames to keep under it, `snapshot_env`. -/
def snapshotEnv : Env → Stateful Core Bytes
  | [] => return zero32
  | frame :: parents => do
    let parent ← snapshotEnv parents
    let tree ← .ofExcept (bindingsTree frame)
    let root := if tree.pairs = [] then zero32 else node.treeRoot tree
    let level := linkHash node.blake3 parent root
    let h := linkHash node.blake3 level (node.hash (.symbol "env"))
    let library := (← Eff.read).library
    if (library.get? h).isNone then
      let kept := if parents = [] then [] else (library.get? parent).getD []
      .update fun s => { s with library := library.insert h (frame :: kept) }
    return h

def handleStackClosure : CoreOp := do
  require 1
  let bodyRaw ← popRaw
  require 1
  let params ← pop
  .when (node.tag params ≠ "link") (opError ("closure of " ++ node.tag params))
  let n ← .ofExcept params.size
  let body ← real bodyRaw
  let m ← .ofExcept body.size
  chargeBytes (n + m)
  let h ← snapshotEnv node (← Eff.read).env
  let envRef : Expr := .link .none (.byHash h) (.loaded (.symbol "env"))
  push (link (link (link envRef body) params) (.symbol "lex"))

end Cells

section Sequences

/-- The loaded heads along a chain of plain links, up to a tail that is nil or not loaded. A tail
of another kind ends the chain as well, and is given back. -/
def chain : Expr → List Expr × Option Expr
  | .link v (.loaded h) t =>
    if node.tag (.link v (.loaded h) t) ≠ "link" then ([], some (.link v (.loaded h) t))
    else match t with
      | .loaded .nil => ([h], none)
      | .loaded t => (h :: (chain t).1, (chain t).2)
      | _ => ([h], none)
  | e => ([], some e)

def chainItems (e : Expr) : List Expr := (chain node e).1

/-- `sum(e.size() for e in exprs)`. -/
def sizes : List Expr → Py Nat
  | [] => return 0
  | e :: es => do
    let n ← e.size
    return n + (← sizes es)

def chars (s : String) : List String := s.toList.map fun ch => String.ofList [ch]

def utf8Length (s : String) : Nat := (utf8 s).length

def handleStackConcat : CoreOp := do
  let (a, b) ← popTwo
  let aTag ← tagOf node a
  let bTag ← tagOf node b
  .when (aTag ≠ bTag) (opError (of2 "concatenation of " aTag bTag))
  if aTag = "bytes" then
    let x ← .ofExcept a.value.toBytes
    let y ← .ofExcept b.value.toBytes
    pushSized (.bytes (x ++ y))
  else if aTag = "str" then
    let x ← a.value.toStr
    let y ← b.value.toStr
    chargeBytes (utf8Length (x ++ y))
    push (str_ (x ++ y))
  else if aTag = "link" then
    let items := chainItems node a ++ chainItems node b
    let n ← .ofExcept (sizes items)
    chargeBytes (n + items.length)
    push (exprsToLinkedExpr items)
  else opError (of2 "concatenation of " aTag bTag)

def handleStackCount : CoreOp := do
  let v ← pop
  let tag ← tagOf node v
  if tag = "bytes" then
    let data ← .ofExcept v.value.toBytes
    pushSized (int_ data.length)
  else if tag = "str" then
    let s ← v.value.toStr
    pushSized (int_ s.length)
  else if tag = "link" then
    let items := chainItems node v
    let _ ← .ofExcept (sizes items)
    chargeBytes items.length
    push (int_ items.length)
  else opError ("count of " ++ tag)

def handleStackReverse : CoreOp := do
  let v ← pop
  let tag ← tagOf node v
  if tag = "bytes" then
    let data ← .ofExcept v.value.toBytes
    pushSized (.bytes data.reverse)
  else if tag = "str" then
    let s ← v.value.toStr
    chargeBytes (utf8Length s)
    push (str_ (String.ofList s.toList.reverse))
  else if tag = "link" then
    let items := chainItems node v
    let n ← .ofExcept (sizes items)
    chargeBytes (n + items.length)
    push (exprsToLinkedExpr items.reverse)
  else opError ("reverse of " ++ tag)

def outOfBounds (op : String) (k : Int) (kind : String) (length : Nat) : Stateful Core Unit :=
  opError (op ++ toString k ++ " out of bounds for " ++ kind ++ " of length " ++ toString length)

/-- The two operands of `index` and `split`. -/
def indexOperands (verb preposition : String) : Stateful Core (Expr × String × Val) := do
  let indexRaw ← popRaw
  let valueRaw ← popRaw
  let value ← real valueRaw
  let tag ← tagOf node value
  let index ← real indexRaw
  let indexTag ← tagOf node index
  .when (indexTag ≠ "int") (opError (verb ++ tag ++ preposition ++ indexTag))
  return (value, tag, index.value)

def handleStackIndex : CoreOp := do
  let (value, tag, index) ← indexOperands node "index of " " by "
  if tag = "bytes" then
    let k ← .ofExcept index.toInt
    let data ← .ofExcept value.value.toBytes
    if k < 0 ∨ data.length ≤ k then outOfBounds "index " k "bytes" data.length
    chargeBytes 1
    push (.bytes ((data.drop k.toNat).take 1))
  else if tag = "str" then
    let s ← value.value.toStr
    let k ← .ofExcept index.toInt
    let cs := chars s
    if k < 0 ∨ cs.length ≤ k then outOfBounds "index " k "str" cs.length
    let ch := cs.getD k.toNat ""
    chargeBytes (utf8Length ch)
    push (str_ ch)
  else if tag = "link" then
    let k ← .ofExcept index.toInt
    .when (k < 0) (opError ("index " ++ toString k ++ " out of bounds for link"))
    let items := chainItems node value
    match items[k.toNat]? with
    | some item => pushSized item
    | none => outOfBounds "index " k "link" items.length
  else opError ("index of " ++ tag ++ " by int")

/-- The chain cut after `k` items, with what followed. -/
def splitChain : Nat → Expr → Option (Expr × Expr)
  | 0, e => some (.nil, e)
  | k + 1, .link v (.loaded h) t =>
    if node.tag (.link v (.loaded h) t) ≠ "link" then none
    else
      let rest := match t with
        | .loaded t => t
        | _ => .nil
      if k = 0 then some (.link v (.loaded h) (.loaded .nil), rest)
      else if rest = .nil then none
      else do
        let (front, back) ← splitChain k rest
        return (.link v (.loaded h) (.loaded front), back)
  | _, _ => none

def handleStackSplit : CoreOp := do
  let (value, tag, index) ← indexOperands node "split of " " at "
  if tag = "bytes" then
    let k ← .ofExcept index.toInt
    let data ← .ofExcept value.value.toBytes
    if k < 0 ∨ data.length < k then outOfBounds "split index " k "bytes" data.length
    chargeBytes data.length
    push (link (.bytes (data.take k.toNat)) (.bytes (data.drop k.toNat)))
  else if tag = "str" then
    let s ← value.value.toStr
    let k ← .ofExcept index.toInt
    let cs := s.toList
    if k < 0 ∨ cs.length < k then outOfBounds "split index " k "str" cs.length
    chargeBytes (utf8Length s)
    push (link (str_ (String.ofList (cs.take k.toNat))) (str_ (String.ofList (cs.drop k.toNat))))
  else if tag = "link" then
    let k ← .ofExcept index.toInt
    .when (k < 0) (opError ("split index " ++ toString k ++ " out of bounds for link"))
    match splitChain node k.toNat value with
    | some (front, back) =>
      let n ← .ofExcept front.size
      let m ← .ofExcept back.size
      chargeBytes (if k = 0 then m else n + m)
      push (link front back)
    | none => outOfBounds "split index " k "link" (chainItems node value).length
  else opError ("split of " ++ tag ++ " at int")

/-- The items of a sequence of bytes, of a string or of a chain of links. -/
def seqItems (tag : String) (v : Expr) : Stateful Core (List Expr) := do
  if tag = "bytes" then
    let data ← .ofExcept v.value.toBytes
    return data.map fun b => .bytes [b]
  else if tag = "str" then
    let s ← v.value.toStr
    return (chars s).map str_
  else return chainItems node v

def handleStackZip : CoreOp := do
  let (a, b) ← popTwo
  let aTag ← tagOf node a
  let bTag ← tagOf node b
  let isSeq (tag : String) : Bool := tag = "bytes" ∨ tag = "str" ∨ tag = "link"
  .when (!isSeq aTag ∨ !isSeq bTag) (opError (of2 "zip of " aTag bTag))
  let xs ← seqItems node aTag a
  let ys ← seqItems node bTag b
  let pairs := xs.zip ys
  chargeBytes pairs.length
  let n ← .ofExcept (sizes (pairs.flatMap fun p => [p.1, p.2]))
  chargeBytes (n + pairs.length)
  push (exprsToLinkedExpr (pairs.map fun p => link p.1 p.2))

end Sequences

end Astreum
