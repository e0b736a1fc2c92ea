import Astreum.Decimals
import Astreum.Printer

namespace Astreum

open Decimals Python

namespace Currency

section Pattern

/-- What is taken from the front of a text and what is left, in the order of the search. -/
abbrev Pattern := List Char → List (List Char × List Char)

namespace Pattern

def char (p : Char → Bool) : Pattern
  | ch :: cs => if p ch then [([ch], cs)] else []
  | [] => []

def andThen (a b : Pattern) : Pattern := fun cs =>
  (a cs).flatMap fun x => (b x.2).map fun y => (x.1 ++ y.1, y.2)

def orElse (a b : Pattern) : Pattern := fun cs => a cs ++ b cs

def optional (a : Pattern) : Pattern := orElse a fun cs => [([], cs)]

/-- As many characters of a class as there are, then fewer. -/
def many (p : Char → Bool) : Pattern
  | ch :: cs => if p ch then (many p cs).map (fun x => (ch :: x.1, x.2)) ++ [([], ch :: cs)]
    else [([], ch :: cs)]
  | [] => [([], [])]

end Pattern

end Pattern

section Text

/-- The zeros of the runs of ten characters that are decimal digits. -/
def digitZeros : List Nat :=
  [0x30, 0x660, 0x6f0, 0x7c0, 0x966, 0x9e6, 0xa66, 0xae6, 0xb66, 0xbe6, 0xc66, 0xce6, 0xd66, 0xde6,
    0xe50, 0xed0, 0xf20, 0x1040, 0x1090, 0x17e0, 0x1810, 0x1946, 0x19d0, 0x1a80, 0x1a90, 0x1b50,
    0x1bb0, 0x1c40, 0x1c50, 0xa620, 0xa8d0, 0xa900, 0xa9d0, 0xa9f0, 0xaa50, 0xabf0, 0xff10, 0x104a0,
    0x10d30, 0x11066, 0x110f0, 0x11136, 0x111d0, 0x112f0, 0x11450, 0x114d0, 0x11650, 0x116c0,
    0x11730, 0x118e0, 0x11950, 0x11c50, 0x11d50, 0x11da0, 0x16a60, 0x16ac0, 0x16b50, 0x1d7ce,
    0x1d7d8, 0x1d7e2, 0x1d7ec, 0x1d7f6, 0x1e140, 0x1e2f0, 0x1e950, 0x1fbf0]

def digitValue? (ch : Char) : Option Nat :=
  (digitZeros.find? fun low => low ≤ ch.toNat && ch.toNat < low + 10).map (ch.toNat - ·)

def isDigit (ch : Char) : Bool := (digitValue? ch).isSome

/-- `\s` of a text. -/
def isBlank (ch : Char) : Bool :=
  (9 ≤ ch.toNat && ch.toNat ≤ 13) || (0x1c ≤ ch.toNat && ch.toNat ≤ 0x20) ||
    (0x2000 ≤ ch.toNat && ch.toNat ≤ 0x200a) ||
    ch.toNat ∈ [0x85, 0xa0, 0x1680, 0x2028, 0x2029, 0x202f, 0x205f, 0x3000]

def isLetter (ch : Char) : Bool := ('A' ≤ ch && ch ≤ 'Z') || ('a' ≤ ch && ch ≤ 'z')

open Pattern

/-- `(?: \d{3})+`. -/
def groups : Pattern
  | ' ' :: a :: b :: c :: cs =>
    if isDigit a && isDigit b && isDigit c then
      (groups cs).map (fun x => (' ' :: a :: b :: c :: x.1, x.2)) ++ [([' ', a, b, c], cs)]
    else []
  | _ => []

def digits : Pattern := andThen (char isDigit) (many isDigit)

/-- `\d{1,3}`. -/
def upToThree : Pattern :=
  andThen (char isDigit) (optional (andThen (char isDigit) (optional (char isDigit))))

def point : Pattern := char (· == '.')

/-- The group `coefficient` of `_NUMBER_RE`. -/
def coefficientPattern : Pattern :=
  andThen (optional (char fun ch => ch == '+' || ch == '-')) <|
    orElse
      (andThen (orElse (andThen upToThree groups) digits) (optional (andThen point (many isDigit))))
      (andThen point digits)

/-- `_NUMBER_RE.match`, with the groups `coefficient` and `unit`. -/
def matchNumber (cs : List Char) : Option (List Char × List Char) :=
  ((many isBlank cs).flatMap fun before =>
    (coefficientPattern before.2).flatMap fun coefficient =>
      (many isBlank coefficient.2).flatMap fun gap =>
        (many isLetter gap.2).flatMap fun unit =>
          (many isBlank unit.2).filterMap fun after =>
            if after.2 = [] ∨ after.2 = ['\n'] then some (coefficient.1, unit.1) else none).head?

def splitSign : List Char → Bool × List Char
  | ch :: cs =>
    if ch = '-' then (true, cs) else if ch = '+' then (false, cs) else (false, ch :: cs)
  | [] => (false, [])

/-- `Decimal(text)`, where the text is a coefficient without spaces. -/
def decimalOfText (cs : List Char) : Dec :=
  let (neg, cs) := splitSign cs
  let whole := cs.takeWhile (· != '.')
  let fraction := (cs.dropWhile (· != '.')).drop 1
  ⟨neg, natOfDigits ((whole ++ fraction).filterMap digitValue?), -(fraction.length : Int)⟩

/-- The two parts of `format(d, "f")` at the point. -/
def places (d : Dec) : List Char × List Char :=
  let ds := Nat.toDigits 10 d.coeff
  let dot := d.exp + ds.length
  if dot < 0 then (['0'], List.replicate (-dot).toNat '0' ++ ds)
  else if ds.length < dot then (ds ++ List.replicate (dot - ds.length).toNat '0', [])
  else (if dot = 0 then ['0'] else ds.take dot.toNat, ds.drop dot.toNat)

def withPoint (parts : List Char × List Char) : List Char :=
  parts.1 ++ if parts.2 = [] then [] else '.' :: parts.2

/-- `format(d, "f")`. -/
def formatF (d : Dec) : List Char := (if d.neg then ['-'] else []) ++ withPoint (places d)

end Text

section Amounts

inductive AmountError where
  | valueError
  | keyError
  | overflow
  deriving DecidableEq, Repr

/-- A row of the tables of prefixes. -/
structure Prefix where
  letter : Char
  factor : Nat
  fullName : List Char
  display : Char
  deriving DecidableEq, Repr

def prefixes : List Prefix :=
  [⟨'k', 10 ^ 3, ['k', 'i', 'l', 'o'], 'k'⟩, ⟨'m', 10 ^ 6, ['M', 'e', 'g', 'a'], 'M'⟩,
    ⟨'g', 10 ^ 9, ['G', 'i', 'g', 'a'], 'G'⟩, ⟨'t', 10 ^ 12, ['T', 'e', 'r', 'a'], 'T'⟩,
    ⟨'p', 10 ^ 15, ['P', 'e', 't', 'a'], 'P'⟩, ⟨'e', 10 ^ 18, ['E', 'x', 'a'], 'E'⟩,
    ⟨'z', 10 ^ 21, ['Z', 'e', 't', 't', 'a'], 'Z'⟩, ⟨'y', 10 ^ 24, ['Y', 'o', 't', 't', 'a'], 'Y'⟩,
    ⟨'r', 10 ^ 27, ['R', 'o', 'n', 'n', 'a'], 'R'⟩,
    ⟨'q', 10 ^ 30, ['Q', 'u', 'e', 't', 't', 'a'], 'Q'⟩]

def astre : List Char := ['a', 's', 't', 'r', 'e']

/-- `_UNITS`. -/
def units : List (List Char × Nat) :=
  [([], 1), (['a'], 1), (astre, 1)] ++ prefixes.flatMap fun p =>
    [([p.letter, 'a'], p.factor), (p.letter :: astre, p.factor), ([p.letter], p.factor),
      (p.fullName.map Char.toLower ++ astre, p.factor)]

def unitFactor (unit : List Char) : Option Nat := units.lookup (unit.map Char.toLower)

/-- The context of a thread that sets none. -/
def defaultContext : Context := ⟨28, 999999, -999999⟩

def parseContext : Context := { defaultContext with prec := 60 }

/-- What a text names: its coefficient and the factor of its unit. -/
def readAmount (text : String) : Option (Dec × Nat) := do
  let (coefficient, unit) ← matchNumber text.toList
  let factor ← unitFactor unit
  return (decimalOfText (coefficient.filter (· != ' ')), factor)

def parseAstreAmount (text : String) : Except AmountError Int :=
  match readAmount text with
  | none => .error .valueError
  | some (coefficient, factor) =>
    match coefficient.mul parseContext ⟨false, factor, 0⟩ with
    | none => .error .overflow
    | some value =>
      if value.same value.toIntegralValue then .ok value.toInt else .error .valueError

inductive Style where
  | short
  | full
  deriving DecidableEq, Repr

def bareUnit : Style → List Char
  | .short => ['A']
  | .full => 'A' :: astre.drop 1

def prefixUnit (p : Prefix) : Style → List Char
  | .short => [p.display, 'A']
  | .full => p.fullName ++ 'A' :: astre.drop 1

/-- `format_astre_amount` of an amount that is not negative. -/
def formatNat (n : Nat) (style : Style) : Except AmountError (List Char) :=
  if n < 1000 then .ok (Nat.toDigits 10 n ++ ' ' :: bareUnit style)
  else
    match prefixes.reverse.find? (·.factor ≤ n) with
    | none => .error .keyError
    | some p =>
      match Dec.div defaultContext ⟨false, n, 0⟩ ⟨false, p.factor, 0⟩ with
      | none => .error .overflow
      | some scaled =>
        match scaled.normalize defaultContext with
        | none => .error .overflow
        | some scaled => .ok (formatF scaled ++ ' ' :: prefixUnit p style)

def formatAstreAmount (amount : Int) (style : Style) : Except AmountError String := do
  let text ← formatNat amount.natAbs style
  return String.ofList (if amount < 0 then '-' :: text else text)

end Amounts

end Currency

end Astreum
