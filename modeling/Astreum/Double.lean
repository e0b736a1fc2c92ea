import Mathlib.Algebra.Group.Nat.Defs
import Mathlib.Data.Rat.Defs

namespace Astreum

/-- A binary float. Finite values are kept as the rationals they stand for, with the two zeros
apart. -/
inductive Double where
  | nan
  | inf (negative : Bool)
  | zero (negative : Bool)
  | num (q : Rat)
  deriving DecidableEq

/-- The sizes of a binary format: bits of precision, least and greatest exponent. -/
structure Format where
  precision : Nat
  minExp : Int
  maxExp : Int

def binary64 : Format := ⟨53, -1022, 1023⟩

def binary32 : Format := ⟨24, -126, 127⟩

def binary16 : Format := ⟨11, -14, 15⟩

def pow2 (e : Int) : Rat := if 0 ≤ e then (2 ^ e.toNat : Nat) else 1 / ((2 ^ (-e).toNat : Nat) : Rat)

/-- The exponent of the greatest power of two not above `q.abs`, for a `q` other than zero. -/
def ilog2 (q : Rat) : Int :=
  let e : Int := Nat.log2 q.num.natAbs - Nat.log2 q.den
  if pow2 e ≤ q.abs then e else e - 1

/-- The nearest integer, and the even one of two that are equally near. -/
def roundHalfEven (q : Rat) : Int :=
  let n := q.floor
  let rest := q - n
  if rest < 1 / 2 then n
  else if 1 / 2 < rest then n + 1
  else if n % 2 = 0 then n else n + 1

namespace Double

/-- The nearest float of a format. -/
def round (f : Format) (q : Rat) : Double :=
  if q = 0 then .zero false
  else
    let unit := pow2 (max (ilog2 q) f.minExp - (f.precision - 1))
    let n := roundHalfEven (q / unit)
    if n = 0 then .zero (decide (q < 0))
    else if pow2 (f.maxExp + 1) ≤ (n * unit).abs then .inf (decide (q < 0))
    else .num (n * unit)

def value? : Double → Option Rat
  | .zero _ => some 0
  | .num q => some q
  | _ => none

def isNegative : Double → Bool
  | .nan => false
  | .inf s => s
  | .zero s => s
  | .num q => decide (q < 0)

def neg : Double → Double
  | .nan => .nan
  | .inf s => .inf !s
  | .zero s => .zero !s
  | .num q => .num (-q)

def abs (x : Double) : Double := if x.isNegative then x.neg else x

def add (x y : Double) : Double :=
  match x, y with
  | .nan, _ => .nan
  | _, .nan => .nan
  | .inf s, .inf t => if s = t then .inf s else .nan
  | .inf s, _ => .inf s
  | _, .inf s => .inf s
  | .zero s, .zero t => .zero (s && t)
  | x, y => round binary64 (x.value?.getD 0 + y.value?.getD 0)

def sub (x y : Double) : Double := x.add y.neg

def mul (x y : Double) : Double :=
  let s := x.isNegative ^^ y.isNegative
  match x, y with
  | .nan, _ => .nan
  | _, .nan => .nan
  | .inf _, .zero _ => .nan
  | .zero _, .inf _ => .nan
  | .inf _, _ => .inf s
  | _, .inf _ => .inf s
  | .zero _, _ => .zero s
  | _, .zero _ => .zero s
  | .num q, .num r => match round binary64 (q * r) with
    | .zero _ => .zero s
    | z => z

/-- `x / y` for a `y` that is no zero: dividing by a zero raises. -/
def div? (x y : Double) : Option Double :=
  let s := x.isNegative ^^ y.isNegative
  match x, y with
  | _, .zero _ => none
  | .nan, _ => some .nan
  | _, .nan => some .nan
  | .inf _, .inf _ => some .nan
  | .inf _, _ => some (.inf s)
  | _, .inf _ => some (.zero s)
  | .zero _, _ => some (.zero s)
  | .num q, .num r => match round binary64 (q / r) with
    | .zero _ => some (.zero s)
    | z => some z

/-- `int(x)`, which has no value for a nan or an infinity. -/
def toInt? (x : Double) : Option Int := x.value?.map fun q =>
  if 0 ≤ q then q.floor else -(-q).floor

/-- `float(n)`, which has no value for an `n` out of range. -/
def ofInt? (n : Int) : Option Double :=
  match round binary64 n with
  | .inf _ => none
  | x => some x

end Double

end Astreum
