import Astreum.Double
import Astreum.Python

namespace Astreum

namespace Python

def isSpace (ch : Char) : Bool := ch.isWhitespace || ch == '\x0b' || ch == '\x0c'

def strip (cs : List Char) : List Char :=
  ((cs.dropWhile isSpace).reverse.dropWhile isSpace).reverse

/-- Decimal digits, with single underscores between them. -/
def digits? : List Char → Option (List Nat)
  | [] => none
  | [ch] => if ch.isDigit then some [ch.toNat - 48] else none
  | ch :: '_' :: cs => if ch.isDigit then ((ch.toNat - 48) :: ·) <$> digits? cs else none
  | ch :: cs => if ch.isDigit then ((ch.toNat - 48) :: ·) <$> digits? cs else none

def natOfDigits (ds : List Nat) : Nat := ds.foldl (fun n d => 10 * n + d) 0

def signed? {α : Type} (neg : α → α) (body : List Char → Option α) : List Char → Option α
  | '+' :: cs => body cs
  | '-' :: cs => neg <$> body cs
  | cs => body cs

/-- `int(text)`. -/
def intOfText (text : String) : Py Int :=
  match signed? Int.neg (fun cs => (fun ds => (natOfDigits ds : Int)) <$> digits? cs)
    (strip text.toList) with
  | some n => .ok n
  | none => .error .valueError

/-- The digits and the number of places after the point of `12`, `1.5`, `.5` or `1.`. -/
def decimal? (cs : List Char) : Option (Nat × Nat) :=
  match cs.span (· != '.') with
  | (whole, []) => (fun ds => (natOfDigits ds, 0)) <$> digits? whole
  | (whole, _ :: fraction) => do
    guard (whole ≠ [] ∨ fraction ≠ [])
    let ws ← if whole = [] then some [] else digits? whole
    let fs ← if fraction = [] then some [] else digits? fraction
    return (natOfDigits (ws ++ fs), fs.length)

def float? (cs : List Char) : Option Double :=
  let name := String.ofList (cs.map Char.toLower)
  if name = "nan" then some .nan
  else if name = "inf" ∨ name = "infinity" then some (.inf false)
  else
    let (mantissa, rest) := cs.span fun ch => ch != 'e' && ch != 'E'
    do
      let (n, places) ← decimal? mantissa
      let exponent ← match rest with
        | [] => some 0
        | _ :: cs => signed? Int.neg (fun cs => (fun ds => (natOfDigits ds : Int)) <$> digits? cs) cs
      let e := exponent - places
      return Double.round binary64 <|
        if 0 ≤ e then (n * 10 ^ e.toNat : Nat) else (n : Rat) / (10 ^ (-e).toNat : Nat)

/-- `float(text)`. -/
def floatOfText (text : String) : Py Double :=
  match signed? Double.neg float? (strip text.toList) with
  | some x => .ok x
  | none => .error .valueError

def pow10 (e : Int) : Rat :=
  if 0 ≤ e then (10 ^ e.toNat : Nat) else 1 / ((10 ^ (-e).toNat : Nat) : Rat)

/-- The decimal exponent of a positive rational. -/
def ilog10 (q : Rat) : Int :=
  let e : Int := (Nat.log2 q.num.natAbs - Nat.log2 q.den : Int) * 30103 / 100000
  if q < pow10 e then (if q < pow10 (e - 1) then e - 2 else e - 1)
  else if pow10 (e + 1) ≤ q then e + 1 else e

/-- The shortest digits that read back as `q`, trying `tries` lengths from `n` on, with the decimal
exponent of the first one. -/
def shortest (q : Rat) : Nat → Nat → Nat × Int
  | 0, _ => (0, 0)
  | tries + 1, n =>
    let e := ilog10 q
    let d := roundHalfEven (q / pow10 (e + 1 - n))
    if Double.round binary64 (d * pow10 (e + 1 - n)) = .num q ∨ tries = 0 then
      if d = 10 ^ n then (1, e + 1) else (d.toNat, e)
    else shortest q tries (n + 1)

def textOfPositive (q : Rat) : String :=
  let (d, e) := shortest q 17 1
  let ds := (toString d).toList.reverse.dropWhile (· == '0') |>.reverse
  let zeros (n : Nat) : List Char := List.replicate n '0'
  String.ofList <|
    if e < -4 ∨ 16 ≤ e then
      let mantissa := match ds with
        | d :: [] => [d]
        | d :: ds => d :: '.' :: ds
        | [] => []
      let exponent := (toString e.natAbs).toList
      mantissa ++ 'e' :: (if e < 0 then '-' else '+') ::
        (if exponent.length < 2 then '0' :: exponent else exponent)
    else if e < 0 then '0' :: '.' :: zeros (-e - 1).toNat ++ ds
    else
      let whole := e.toNat + 1
      let fraction := ds.drop whole
      ds.take whole ++ zeros (whole - ds.length) ++ '.' :: (if fraction = [] then ['0'] else fraction)

/-- `str(x)`. -/
def textOfFloat : Double → String
  | .nan => "nan"
  | .inf s => if s then "-inf" else "inf"
  | .zero s => if s then "-0.0" else "0.0"
  | .num q => if q < 0 then "-" ++ textOfPositive (-q) else textOfPositive q

end Python

end Astreum
