import Mathlib.Algebra.Order.Field.Power
import Mathlib.Data.Nat.Log
import Mathlib.Data.Rat.Cast.Order
import Mathlib.Tactic.FieldSimp
import Mathlib.Tactic.Linarith
import Mathlib.Tactic.LinearCombination
import Mathlib.Tactic.Positivity
import Mathlib.Tactic.Ring

namespace Decimals

/-- The whole number next to a quotient, and the even one of two that are equally near. -/
def divHalfEven (n d : Nat) : Nat :=
  let q := n / d
  let r := n % d
  if 2 * r < d then q
  else if d < 2 * r then q + 1
  else if q % 2 = 0 then q else q + 1

theorem divHalfEven_near {n d : Nat} (hd : 0 < d) :
    2 * n ≤ (2 * divHalfEven n d + 1) * d ∧ 2 * divHalfEven n d * d ≤ 2 * n + d := by
  have hn := Nat.div_add_mod n d
  have hr := Nat.mod_lt n hd
  generalize hq : n / d = q at hn
  generalize hm : n % d = r at hn hr
  have hcomm : d * q = q * d := Nat.mul_comm d q
  simp only [divHalfEven, hq, hm]
  split
  · constructor <;> nlinarith
  split
  · constructor <;> nlinarith
  split <;> constructor <;> nlinarith

/-- A quotient that is as near as a half to an even number is rounded to it. -/
theorem divHalfEven_of_near {n d m : Nat} (hd : 0 < d) (heven : m % 2 = 0)
    (hle : 2 * n ≤ (2 * m + 1) * d) (hge : 2 * m * d ≤ 2 * n + d) : divHalfEven n d = m := by
  have hn := Nat.div_add_mod n d
  have hr := Nat.mod_lt n hd
  generalize hq : n / d = q at hn
  generalize hrem : n % d = r at hn hr
  have hcomm : d * q = q * d := Nat.mul_comm d q
  have hlow : q ≤ m := by
    by_contra hcon
    have hsucc : m + 1 ≤ q := by omega
    have := Nat.mul_le_mul_right d hsucc
    nlinarith
  have hhigh : m ≤ q + 1 := by
    by_contra hcon
    have hsucc : q + 2 ≤ m := by omega
    have := Nat.mul_le_mul_right d hsucc
    nlinarith
  simp only [divHalfEven, hq, hrem]
  rcases Nat.eq_or_lt_of_le hlow with rfl | hlt
  · have hhalf : 2 * r ≤ d := by nlinarith
    by_cases hlt : 2 * r < d
    · rw [if_pos hlt]
    · rw [if_neg hlt, if_neg (by omega), if_pos heven]
  · have hm : m = q + 1 := by omega
    subst hm
    have hhalf : d ≤ 2 * r := by nlinarith
    rw [if_neg (by omega)]
    split
    · rfl
    · rw [if_neg (by omega)]

theorem divHalfEven_of_dvd {n d : Nat} (hd : 0 < d) (hdvd : d ∣ n) : divHalfEven n d = n / d := by
  simp only [divHalfEven, Nat.mod_eq_zero_of_dvd hdvd]
  rw [if_pos (by omega)]

theorem divHalfEven_mul_eq_iff {n d : Nat} (hd : 0 < d) : divHalfEven n d * d = n ↔ d ∣ n := by
  refine ⟨fun h => ⟨_, (h.symm.trans (Nat.mul_comm _ _))⟩, fun h => ?_⟩
  rw [divHalfEven_of_dvd hd h, Nat.div_mul_cancel h]

/-- How many digits are kept, and how far the exponent goes. -/
structure Context where
  prec : Nat
  emax : Int
  emin : Int

namespace Context

/-- The exponent of the last digit of the smallest numbers. -/
def etiny (c : Context) : Int := c.emin - c.prec + 1

/-- The exponent of the last digit of the largest numbers. -/
def etop (c : Context) : Int := c.emax - c.prec + 1

/-- The first power of ten that is too large. -/
@[irreducible] def limit (c : Context) : Nat := 10 ^ (c.emax + 1).toNat

end Context

/-- A number as a sign, a coefficient and a power of ten. -/
structure Dec where
  neg : Bool
  coeff : Nat
  exp : Int
  deriving DecidableEq, Repr

namespace Dec

def digits (d : Dec) : Nat := Nat.log 10 d.coeff + 1

/-- The exponent of the first digit. -/
def adjusted (d : Dec) : Int := d.exp + d.digits - 1

def sign (d : Dec) : Int := if d.neg then -1 else 1

def val (d : Dec) : Rat := d.sign * (d.coeff * (10 : Rat) ^ d.exp)

/-- The exponent of the last digit that is kept. -/
def last (c : Context) (d : Dec) : Int := max (d.exp + d.digits - c.prec) c.etiny

/-- Rounding to a context, where `none` is an overflow. -/
def fix (c : Context) (d : Dec) : Option Dec :=
  if d.coeff = 0 then some { d with exp := min (max d.exp c.etiny) c.emax }
  else if c.etop < d.exp + d.digits - c.prec then none
  else if d.exp < d.last c then
    let coeff := divHalfEven d.coeff (10 ^ (d.last c - d.exp).toNat)
    -- a carry out of the first digit leaves one digit too many
    let (coeff, exp) :=
      if 10 ^ c.prec ≤ coeff then (coeff / 10, d.last c + 1) else (coeff, d.last c)
    if c.etop < exp then none else some ⟨d.neg, coeff, exp⟩
  else some d

def mul (c : Context) (a b : Dec) : Option Dec :=
  fix c ⟨xor a.neg b.neg, a.coeff * b.coeff, a.exp + b.exp⟩

/-- Zeros at the end of a coefficient go to the exponent, a bounded number of times. -/
def strip : Nat → Nat × Int → Nat × Int
  | 0, x => x
  | n + 1, (q, e) => if q % 10 = 0 then strip n (q / 10, e + 1) else (q, e)

/-- The quotient of two numbers, the second of which is not zero. -/
def div (c : Context) (a b : Dec) : Option Dec :=
  let neg := xor a.neg b.neg
  if a.coeff = 0 then fix c ⟨neg, 0, a.exp - b.exp⟩
  else
    let shift : Int := b.digits - a.digits + c.prec + 1
    let exp := a.exp - b.exp - shift
    let top := a.coeff * 10 ^ shift.toNat
    let bottom := b.coeff * 10 ^ (-shift).toNat
    let q := top / bottom
    -- a last digit that is neither zero nor five keeps an inexact quotient off the ties
    if top % bottom ≠ 0 then fix c ⟨neg, if q % 5 = 0 then q + 1 else q, exp⟩
    else
      let (q, exp) := strip shift.toNat (q, exp)
      fix c ⟨neg, q, exp⟩

def normalize (c : Context) (d : Dec) : Option Dec := do
  let d ← fix c d
  if d.coeff = 0 then return ⟨d.neg, 0, 0⟩
  else
    let (coeff, exp) := strip (c.emax - d.exp).toNat (d.coeff, d.exp)
    return ⟨d.neg, coeff, exp⟩

def toIntegralValue (d : Dec) : Dec :=
  if 0 ≤ d.exp then d else ⟨d.neg, divHalfEven d.coeff (10 ^ (-d.exp).toNat), 0⟩

/-- The whole part. -/
def toInt (d : Dec) : Int :=
  d.sign * (d.coeff * 10 ^ d.exp.toNat / 10 ^ (-d.exp).toNat : Nat)

/-- Whether two numbers have one value. -/
def same (a b : Dec) : Bool :=
  let low := min a.exp b.exp
  a.sign * (a.coeff * 10 ^ (a.exp - low).toNat : Nat) =
    b.sign * (b.coeff * 10 ^ (b.exp - low).toNat : Nat)

end Dec

/-- A number with no fraction. -/
def Whole (q : Rat) : Prop := ∃ z : Int, q = z

namespace Dec

section Value

variable {d : Dec} {c : Context}

theorem sign_cases (d : Dec) : d.sign = 1 ∨ d.sign = -1 := by
  rw [sign]
  split
  · exact .inr rfl
  · exact .inl rfl

theorem sign_mul_self (d : Dec) : (d.sign : Rat) * d.sign = 1 := by
  rcases d.sign_cases with h | h <;> rw [h] <;> norm_num

theorem abs_val (d : Dec) : |d.val| = d.coeff * (10 : Rat) ^ d.exp := by
  have hpos : (0 : Rat) ≤ d.coeff * (10 : Rat) ^ d.exp := by positivity
  rw [val]
  rcases d.sign_cases with h | h <;> rw [h] <;> simp [abs_of_nonneg hpos]

theorem zpow_toNat {e : Int} (h : 0 ≤ e) : (10 : Rat) ^ e = (10 ^ e.toNat : Nat) := by
  rw [Nat.cast_pow, ← zpow_natCast, Int.toNat_of_nonneg h]
  rfl

theorem zpow_emax (h : 0 ≤ c.emax + 1) : (10 : Rat) ^ (c.emax + 1) = (c.limit : Nat) := by
  rw [zpow_toNat h, Context.limit]

theorem pow_le_limit {n : Nat} (h : (n : Int) ≤ c.emax + 1) : 10 ^ n ≤ c.limit := by
  rw [Context.limit]
  exact Nat.pow_le_pow_right (by decide) (by omega)

theorem zpow_split {a b : Int} (h : a ≤ b) :
    (10 : Rat) ^ b = 10 ^ a * (10 ^ (b - a).toNat : Nat) := by
  rw [← zpow_toNat (by omega), ← zpow_add₀ (by norm_num), add_sub_cancel]

theorem coeff_lt (d : Dec) : d.coeff < 10 ^ d.digits :=
  Nat.lt_pow_succ_log_self (by decide) _

theorem le_coeff (h : d.coeff ≠ 0) : 10 ^ (d.digits - 1) ≤ d.coeff :=
  Nat.pow_log_le_self 10 h

end Value

section Fix

variable {d r : Dec} {c : Context}

/-- The unit of the last digit that is kept. -/
def unit (c : Context) (d : Dec) : Rat := 10 ^ d.last c

/-- A number that stays below the largest power of ten when it is rounded. -/
def Fits (c : Context) (d : Dec) : Prop :=
  d.coeff = 0 ∨ |d.val| + d.unit c / 2 < 10 ^ (c.emax + 1)

/-- A multiple of the unit. -/
def Exact (c : Context) (d : Dec) : Prop := ∃ z : Int, d.val = z * d.unit c

/-- A number within half a unit of a whole number. -/
def NearWhole (c : Context) (d : Dec) : Prop := ∃ z : Int, |d.val - z| ≤ d.unit c / 2

/-- The coefficient rounded to the unit. -/
def rounded (c : Context) (d : Dec) : Nat :=
  divHalfEven d.coeff (10 ^ (d.last c - d.exp).toNat)

theorem coeff_lt_last (h : d.exp ≤ d.last c) :
    d.coeff < 10 ^ c.prec * 10 ^ (d.last c - d.exp).toNat := by
  refine d.coeff_lt.trans_le ?_
  rw [← pow_add]
  refine Nat.pow_le_pow_right (by decide) ?_
  have := le_max_left (d.exp + d.digits - c.prec) c.etiny
  rw [← last] at this
  omega

theorem rounded_le (h : d.exp ≤ d.last c) : d.rounded c ≤ 10 ^ c.prec := by
  have hpos : 0 < 10 ^ (d.last c - d.exp).toNat := Nat.pow_pos (by decide)
  have hnear := (divHalfEven_near (n := d.coeff) hpos).2
  have hlt := coeff_lt_last h
  rw [← rounded] at hnear
  by_contra hcon
  have hsucc : 10 ^ c.prec + 1 ≤ d.rounded c := by omega
  have := Nat.mul_le_mul_right (10 ^ (d.last c - d.exp).toNat) hsucc
  nlinarith

theorem unit_eq (h : d.exp ≤ d.last c) :
    d.unit c = 10 ^ d.exp * (10 ^ (d.last c - d.exp).toNat : Nat) :=
  zpow_split h

/-- What rounding makes of a number. -/
theorem fix_spec (hprec : 0 < c.prec) (hne : d.coeff ≠ 0) (h : d.fix c = some r) :
    r.sign = d.sign ∧ r.coeff < 10 ^ c.prec ∧
      (d.last c ≤ d.exp ∧ r = d ∨
        d.exp < d.last c ∧ (r.coeff * 10 ^ r.exp : Rat) = d.rounded c * d.unit c) := by
  have hlow := le_max_left (d.exp + d.digits - c.prec) c.etiny
  rw [← last] at hlow
  rw [fix, if_neg hne] at h
  split at h
  · cases h
  split at h
  · rename_i hexp
    rw [← rounded] at h
    dsimp only at h
    by_cases hcarry : 10 ^ c.prec ≤ d.rounded c
    · have heq : d.rounded c = 10 ^ c.prec := le_antisymm (rounded_le hexp.le) hcarry
      obtain ⟨n, hn⟩ : ∃ n, c.prec = n + 1 := ⟨c.prec - 1, by omega⟩
      have hdiv : d.rounded c / 10 = 10 ^ n := by
        rw [heq, hn, pow_succ, Nat.mul_div_cancel _ (by decide)]
      rw [if_pos hcarry] at h
      dsimp only at h
      split at h
      · cases h
      obtain rfl := Option.some.inj h
      refine ⟨rfl, ?_, .inr ⟨hexp, ?_⟩⟩
      · rw [hdiv, hn]
        exact Nat.pow_lt_pow_right (by decide) (by omega)
      · rw [hdiv, heq, hn, unit, zpow_add₀ (by norm_num)]
        push_cast
        ring
    · rw [if_neg hcarry] at h
      dsimp only at h
      split at h
      · cases h
      obtain rfl := Option.some.inj h
      exact ⟨rfl, not_le.mp hcarry, .inr ⟨hexp, rfl⟩⟩
  · rename_i hexp
    obtain rfl := Option.some.inj h
    refine ⟨rfl, d.coeff_lt.trans_le ?_, .inl ⟨not_lt.mp hexp, rfl⟩⟩
    exact Nat.pow_le_pow_right (by decide) (by omega)

theorem abs_val_lt (h : d.exp ≤ d.last c) (hlast : d.last c = c.etop) :
    |d.val| + d.unit c / 2 < 10 ^ (c.emax + 1) ↔
      2 * d.coeff + 10 ^ (d.last c - d.exp).toNat <
        2 * 10 ^ c.prec * 10 ^ (d.last c - d.exp).toNat := by
  have hpos : (0 : Rat) < 10 ^ d.exp := by positivity
  have htop : (10 : Rat) ^ (c.emax + 1) =
      10 ^ d.exp * ((10 ^ c.prec * 10 ^ (d.last c - d.exp).toNat : Nat) : Rat) := by
    have he : c.emax + 1 = d.last c + c.prec := by rw [hlast, Context.etop]; omega
    rw [he, zpow_add₀ (by norm_num), zpow_split h, zpow_natCast]
    push_cast
    ring
  rw [abs_val, unit_eq h, htop]
  constructor
  · intro hlt
    have hlt : (10 : Rat) ^ d.exp * (2 * d.coeff + (10 ^ (d.last c - d.exp).toNat : Nat)) <
        10 ^ d.exp * (2 * (10 ^ c.prec * 10 ^ (d.last c - d.exp).toNat : Nat)) := by linarith
    have hlt := lt_of_mul_lt_mul_left hlt hpos.le
    rw [mul_assoc]
    exact_mod_cast hlt
  · intro hlt
    have hlt : (2 * d.coeff + (10 ^ (d.last c - d.exp).toNat : Nat) : Rat) <
        2 * (10 ^ c.prec * 10 ^ (d.last c - d.exp).toNat : Nat) := by
      rw [mul_assoc] at hlt
      exact_mod_cast hlt
    have hlt := mul_lt_mul_of_pos_left hlt hpos
    linarith

/-- A carry is due just when half a unit more reaches the next power of ten. -/
theorem rounded_eq_iff (hprec : 0 < c.prec) (h : d.exp ≤ d.last c) :
    d.rounded c = 10 ^ c.prec ↔ 2 * 10 ^ c.prec * 10 ^ (d.last c - d.exp).toNat ≤
      2 * d.coeff + 10 ^ (d.last c - d.exp).toNat := by
  have hpos : 0 < 10 ^ (d.last c - d.exp).toNat := Nat.pow_pos (by decide)
  have hlt := coeff_lt_last h
  constructor
  · intro heq
    have hnear := (divHalfEven_near (n := d.coeff) hpos).2
    rwa [← rounded, heq] at hnear
  · intro hle
    refine divHalfEven_of_near hpos ?_ (by nlinarith) hle
    obtain ⟨n, hn⟩ : ∃ n, c.prec = n + 1 := ⟨c.prec - 1, by omega⟩
    rw [hn, pow_succ, Nat.mul_mod]
    simp

theorem fix_isSome_iff (hprec : 0 < c.prec) (hrange : c.etiny ≤ c.etop) :
    (d.fix c).isSome ↔ d.Fits c := by
  by_cases hne : d.coeff = 0
  · simp [fix, Fits, hne]
  have hlow := le_max_left (d.exp + d.digits - c.prec) c.etiny
  have hlast : d.last c = d.exp + d.digits - c.prec ∨ d.last c = c.etiny := max_choice _ _
  rw [← last] at hlow
  have hone : (1 : Rat) < 10 := by norm_num
  rw [Fits, or_iff_right hne, fix, if_neg hne]
  by_cases hover : c.etop < d.exp + d.digits - c.prec
  · rw [if_pos hover]
    refine iff_of_false Bool.false_ne_true (not_lt.mpr ?_)
    have hcoeff : ((10 ^ (d.digits - 1) : Nat) : Rat) ≤ d.coeff := by exact_mod_cast le_coeff hne
    have hdigits : 1 ≤ d.digits := Nat.succ_pos _
    rw [Context.etop] at hover
    calc (10 : Rat) ^ (c.emax + 1) ≤ 10 ^ (((d.digits - 1 : Nat) : Int) + d.exp) :=
          zpow_le_zpow_right₀ hone.le (by omega)
      _ = (10 ^ (d.digits - 1) : Nat) * 10 ^ d.exp := by
          rw [zpow_add₀ (by norm_num), zpow_natCast]
          push_cast
          rfl
      _ ≤ d.coeff * 10 ^ d.exp := mul_le_mul_of_nonneg_right hcoeff (by positivity)
      _ = |d.val| := d.abs_val.symm
      _ ≤ |d.val| + d.unit c / 2 := le_add_of_nonneg_right (by rw [unit]; positivity)
  rw [if_neg hover]
  have hdown : d.last c ≤ c.etop := by omega
  by_cases hexp : d.exp < d.last c
  · rw [if_pos hexp, ← rounded]
    dsimp only
    have hcarry := rounded_eq_iff hprec hexp.le
    have hle := rounded_le hexp.le
    have hcoeff := coeff_lt_last hexp.le
    by_cases htop : d.last c = c.etop
    · have hfit := (abs_val_lt hexp.le htop).trans (not_le.symm.trans (not_congr hcarry.symm))
      rw [hfit]
      by_cases heq : d.rounded c = 10 ^ c.prec
      · rw [if_pos heq.ge]
        dsimp only
        rw [if_pos (show c.etop < d.last c + 1 by omega)]
        simp [heq]
      · rw [if_neg (show ¬10 ^ c.prec ≤ d.rounded c by omega)]
        dsimp only
        rw [if_neg (show ¬c.etop < d.last c by omega)]
        simp [heq]
    · have hbelow : d.last c + 1 ≤ c.etop := by omega
      refine iff_of_true ?_ ?_
      · split
        · rw [if_neg (by dsimp only; omega)]
          rfl
        · rw [if_neg (by dsimp only; omega)]
          rfl
      · have hprec' : (1 : Rat) ≤ (10 ^ c.prec : Nat) := by exact_mod_cast Nat.one_le_pow' _ _
        have hval : |d.val| < 10 ^ c.prec * d.unit c := by
          rw [abs_val, unit_eq hexp.le]
          have hlt : (d.coeff : Rat) < (10 ^ c.prec * 10 ^ (d.last c - d.exp).toNat : Nat) := by
            exact_mod_cast hcoeff
          have := mul_lt_mul_of_pos_right hlt (show (0 : Rat) < 10 ^ d.exp by positivity)
          push_cast at this ⊢
          linarith
        have hunit : (0 : Rat) < d.unit c := by rw [unit]; positivity
        have hnext : (10 : Rat) ^ c.prec * d.unit c * 10 ≤ 10 ^ (c.emax + 1) := by
          have hsum : (10 : Rat) ^ c.prec * d.unit c * 10 = 10 ^ (d.last c + 1 + c.prec) := by
            rw [zpow_add₀ (by norm_num), zpow_add₀ (by norm_num), zpow_natCast, unit]
            ring
          rw [hsum, Context.etop] at *
          exact zpow_le_zpow_right₀ hone.le (by omega)
        push_cast at hprec'
        nlinarith
  · rw [if_neg hexp]
    refine iff_of_true rfl ?_
    have hexp := not_lt.mp hexp
    have hunit : d.unit c ≤ 10 ^ d.exp := zpow_le_zpow_right₀ hone.le hexp
    have hpos : (0 : Rat) < 10 ^ d.exp := by positivity
    have hcoeff : (d.coeff + 1 : Rat) ≤ (10 ^ d.digits : Nat) := by exact_mod_cast d.coeff_lt
    have hsum : ((10 ^ d.digits : Nat) : Rat) * 10 ^ d.exp ≤ 10 ^ (c.emax + 1) := by
      rw [Nat.cast_pow, ← zpow_natCast]
      rw [show ((10 : Nat) : Rat) = 10 from rfl, ← zpow_add₀ (by norm_num)]
      rw [Context.etop] at hover
      exact zpow_le_zpow_right₀ hone.le (by omega)
    have hmul := mul_le_mul_of_nonneg_right hcoeff hpos.le
    rw [abs_val]
    linarith

theorem val_of_zero (h : d.coeff = 0) : d.val = 0 := by
  simp [val, h]

/-- Rounding keeps just the multiples of the unit. -/
theorem val_fix_iff (hprec : 0 < c.prec) (h : d.fix c = some r) : r.val = d.val ↔ d.Exact c := by
  by_cases hne : d.coeff = 0
  · rw [fix, if_pos hne] at h
    obtain rfl := Option.some.inj h
    refine iff_of_true (by rw [val_of_zero hne]; exact val_of_zero hne) ⟨0, ?_⟩
    rw [val_of_zero hne]
    simp
  obtain ⟨hsign, -, ⟨hexp, rfl⟩ | ⟨hexp, hval⟩⟩ := fix_spec hprec hne h
  · refine iff_of_true rfl ⟨r.sign * (r.coeff * 10 ^ (r.exp - r.last c).toNat : Nat), ?_⟩
    rw [val, unit, zpow_split hexp]
    push_cast
    ring
  have hten : (10 : Rat) ^ d.exp ≠ 0 := by positivity
  have hpos : 0 < 10 ^ (d.last c - d.exp).toNat := Nat.pow_pos (by decide)
  rw [val, hval, hsign, unit_eq hexp.le, val]
  constructor
  · intro heq
    refine ⟨d.sign * d.rounded c, ?_⟩
    rw [val, unit_eq hexp.le, ← heq]
    push_cast
    ring
  · rintro ⟨z, hz⟩
    rw [val, unit_eq hexp.le] at hz
    have hcoeff : (d.coeff : Rat) = d.sign * z * (10 ^ (d.last c - d.exp).toNat : Nat) := by
      refine mul_right_cancel₀ hten ?_
      calc (d.coeff : Rat) * 10 ^ d.exp = d.sign * (d.sign * (d.coeff * 10 ^ d.exp)) := by
            rw [← mul_assoc, sign_mul_self, one_mul]
        _ = d.sign * z * (10 ^ (d.last c - d.exp).toNat : Nat) * 10 ^ d.exp := by
            rw [hz]
            ring
    have hdvd : 10 ^ (d.last c - d.exp).toNat ∣ d.coeff := by
      rw [← Int.natCast_dvd_natCast]
      exact ⟨d.sign * z, by exact_mod_cast hcoeff.trans (mul_comm _ _)⟩
    have hround : (d.rounded c * 10 ^ (d.last c - d.exp).toNat : Nat) = d.coeff :=
      (divHalfEven_mul_eq_iff hpos).mpr hdvd
    rw [← hround]
    push_cast
    ring

/-- An inexact number is rounded to a whole one just when one is within half a unit. -/
theorem whole_fix_iff (hprec : 0 < c.prec) (h : d.fix c = some r) (hnot : ¬d.Exact c) :
    Whole r.val ↔ d.NearWhole c := by
  have hne : d.coeff ≠ 0 := fun hne => hnot ⟨0, by rw [val_of_zero hne]; simp⟩
  obtain ⟨hsign, -, ⟨hexp, rfl⟩ | ⟨hexp, hval⟩⟩ := fix_spec hprec hne h
  · exact absurd ((val_fix_iff hprec h).mp rfl) hnot
  have hten : (0 : Rat) < 10 ^ d.exp := by positivity
  have hpos : 0 < 10 ^ (d.last c - d.exp).toNat := Nat.pow_pos (by decide)
  have hrval : r.val = d.sign * (d.rounded c * d.unit c) := by rw [val, hval, hsign]
  constructor
  · rintro ⟨z, hz⟩
    refine ⟨z, ?_⟩
    have hnear := divHalfEven_near (n := d.coeff) hpos
    rw [← rounded] at hnear
    have hleft : (2 * d.coeff : Rat) ≤
        (2 * d.rounded c + 1) * (10 ^ (d.last c - d.exp).toNat : Nat) := by exact_mod_cast hnear.1
    have hright : (2 * d.rounded c * (10 ^ (d.last c - d.exp).toNat : Nat) : Rat) ≤
        2 * d.coeff + (10 ^ (d.last c - d.exp).toNat : Nat) := by exact_mod_cast hnear.2
    have habs : |d.val - z| = |(d.coeff * 10 ^ d.exp : Rat) - d.rounded c * d.unit c| := by
      rw [← hz, hrval, val, ← mul_sub]
      rcases d.sign_cases with hs | hs <;> simp [hs, abs_sub_comm]
    rw [habs, abs_le, unit_eq hexp.le]
    constructor <;> nlinarith
  · rintro ⟨z, hz⟩
    rcases le_or_gt 0 (d.last c) with hlast | hlast
    · refine ⟨d.sign * (d.rounded c * 10 ^ (d.last c).toNat : Nat), ?_⟩
      rw [hrval, unit, zpow_toNat hlast]
      push_cast
      ring
    obtain ⟨n, hn⟩ : ∃ n : Nat, d.last c = -((n : Int) + 1) :=
      ⟨(-d.last c).toNat - 1, by omega⟩
    have hunit : (10 : Rat) ^ (n + 1) * d.unit c = 1 := by
      rw [unit, hn, zpow_neg, mul_inv_eq_one₀ (by positivity)]
      exact_mod_cast rfl
    -- the whole number in units is even, so a tie goes to it
    have hz' : |(d.coeff : Rat) - (d.sign * z * 10 ^ (n + 1) : Int) *
        (10 ^ (d.last c - d.exp).toNat : Nat)| ≤ (10 ^ (d.last c - d.exp).toNat : Nat) / 2 := by
      refine le_of_mul_le_mul_right ?_ hten
      calc _ = |d.sign * ((d.coeff : Rat) - (d.sign * z * 10 ^ (n + 1) : Int) *
              (10 ^ (d.last c - d.exp).toNat : Nat)) * 10 ^ d.exp| := by
            rw [abs_mul, abs_mul, abs_of_pos hten]
            rcases d.sign_cases with hs | hs <;> simp [hs]
        _ = |d.val - z| := by
            congr 1
            have hzval : (z : Rat) = d.sign * d.sign * (z * (10 ^ (n + 1) * d.unit c)) := by
              rw [hunit, sign_mul_self]
              ring
            rw [hzval, val, unit_eq hexp.le]
            push_cast
            ring
        _ ≤ d.unit c / 2 := hz
        _ = _ := by rw [unit_eq hexp.le]; ring
    generalize hk : d.sign * z * 10 ^ (n + 1) = k at hz'
    obtain ⟨hleft, hright⟩ := abs_le.mp hz'
    have hpos' : (0 : Rat) < (10 ^ (d.last c - d.exp).toNat : Nat) := by exact_mod_cast hpos
    have hnonneg : 0 ≤ k := by
      by_contra hcon
      have hle : (k : Rat) ≤ -1 := by exact_mod_cast (by omega : k ≤ -1)
      have hcoeff : (0 : Rat) ≤ d.coeff := Nat.cast_nonneg _
      nlinarith
    have hcast : (k : Rat) = (k.toNat : Nat) := by
      exact_mod_cast (Int.toNat_of_nonneg hnonneg).symm
    have heven : k.toNat % 2 = 0 := by
      have hdvd : (2 : Int) ∣ k := by
        rw [← hk, pow_succ]
        exact ⟨d.sign * z * (10 ^ n * 5), by ring⟩
      omega
    rw [hcast] at hleft hright
    have hround : d.rounded c = k.toNat := by
      refine divHalfEven_of_near hpos heven ?_ ?_
      · have : (2 * d.coeff : Rat) ≤
            (2 * (k.toNat : Nat) + 1) * (10 ^ (d.last c - d.exp).toNat : Nat) := by linarith
        exact_mod_cast this
      · have : (2 * (k.toNat : Nat) * (10 ^ (d.last c - d.exp).toNat : Nat) : Rat) ≤
            2 * d.coeff + (10 ^ (d.last c - d.exp).toNat : Nat) := by linarith
        exact_mod_cast this
    refine ⟨z, ?_⟩
    rw [hrval, hround, ← hcast, ← hk]
    calc _ = d.sign * d.sign * z * (10 ^ (n + 1) * d.unit c) := by
          push_cast
          ring
      _ = z := by rw [hunit, sign_mul_self, one_mul, mul_one]

theorem neg_fix (h : d.fix c = some r) : r.neg = d.neg := by
  rw [fix] at h
  split at h
  · obtain rfl := Option.some.inj h
    rfl
  split at h
  · cases h
  split at h
  · dsimp only at h
    split at h <;> split at h
    · cases h
    · exact (congrArg Dec.neg (Option.some.inj h)).symm
    · cases h
    · exact (congrArg Dec.neg (Option.some.inj h)).symm
  · exact (congrArg Dec.neg (Option.some.inj h)).symm

theorem etiny_le_exp (hne : d.coeff ≠ 0) (h : d.fix c = some r) : c.etiny ≤ r.exp := by
  have hlow := le_max_right (d.exp + d.digits - c.prec) c.etiny
  rw [← last] at hlow
  rw [fix, if_neg hne] at h
  split at h
  · cases h
  split at h
  · rw [← rounded] at h
    dsimp only at h
    by_cases hcarry : 10 ^ c.prec ≤ d.rounded c
    · rw [if_pos hcarry] at h
      dsimp only at h
      split at h
      · cases h
      obtain rfl := Option.some.inj h
      exact hlow.trans (by dsimp only; omega)
    · rw [if_neg hcarry] at h
      dsimp only at h
      split at h
      · cases h
      obtain rfl := Option.some.inj h
      exact hlow
  · obtain rfl := Option.some.inj h
    omega

/-- A number of no more digits than are kept is a multiple of the unit. -/
theorem exact_of_val {m : Nat} {e : Int} (hm : m < 10 ^ c.prec) (he : c.etiny ≤ e)
    (h : |d.val| = m * (10 : Rat) ^ e) : d.Exact c := by
  by_cases hne : d.coeff = 0
  · refine ⟨0, ?_⟩
    rw [val_of_zero hne]
    simp
  have hlast : d.last c ≤ e := by
    by_contra hcon
    have hlast : d.last c = d.exp + d.digits - c.prec :=
      (max_choice _ _).resolve_right fun hcon' => by
        rw [← last] at hcon'
        omega
    have hdigits : 1 ≤ d.digits := Nat.succ_pos _
    have hcoeff : ((10 ^ (d.digits - 1) : Nat) : Rat) ≤ d.coeff := by exact_mod_cast le_coeff hne
    have hlow : (10 : Rat) ^ (((d.digits - 1 : Nat) : Int) + d.exp) ≤ |d.val| := by
      rw [abs_val, zpow_add₀ (by norm_num), zpow_natCast]
      rw [Nat.cast_pow] at hcoeff
      exact mul_le_mul_of_nonneg_right hcoeff (by positivity)
    have hhigh : |d.val| < 10 ^ ((c.prec : Int) + e) := by
      rw [h, zpow_add₀ (by norm_num), zpow_natCast]
      have hm : (m : Rat) < 10 ^ c.prec := by exact_mod_cast hm
      exact mul_lt_mul_of_pos_right hm (by positivity)
    have hlt := (zpow_lt_zpow_iff_right₀ (by norm_num : (1 : Rat) < 10)).mp (hlow.trans_lt hhigh)
    omega
  refine ⟨d.sign * (m * 10 ^ (e - d.last c).toNat : Nat), ?_⟩
  have hval : d.val = d.sign * |d.val| := by rw [abs_val, val]
  rw [hval, h, zpow_split hlast, unit]
  push_cast
  ring

theorem fits_of_exact (hrange : c.etiny ≤ c.etop) (hexact : d.Exact c)
    (hlt : |d.val| < 10 ^ (c.emax + 1)) : d.Fits c := by
  by_cases hne : d.coeff = 0
  · exact .inl hne
  have hdigits : 1 ≤ d.digits := Nat.succ_pos _
  have hcoeff : ((10 ^ (d.digits - 1) : Nat) : Rat) ≤ d.coeff := by exact_mod_cast le_coeff hne
  have hlow : (10 : Rat) ^ (((d.digits - 1 : Nat) : Int) + d.exp) ≤ |d.val| := by
    rw [abs_val, zpow_add₀ (by norm_num), zpow_natCast]
    rw [Nat.cast_pow] at hcoeff
    exact mul_le_mul_of_nonneg_right hcoeff (by positivity)
  have hexp := (zpow_lt_zpow_iff_right₀ (by norm_num : (1 : Rat) < 10)).mp (hlow.trans_lt hlt)
  have hlast : d.last c ≤ c.emax + 1 := by
    refine max_le (by omega) (hrange.trans ?_)
    rw [Context.etop]
    omega
  have hunit : (0 : Rat) < d.unit c := by rw [unit]; positivity
  obtain ⟨z, hz⟩ := hexact
  rw [hz, abs_mul, abs_of_pos hunit, zpow_split hlast, ← unit, mul_comm (d.unit c)] at hlt
  have hsucc : |z| + 1 ≤ ((10 ^ (c.emax + 1 - d.last c).toNat : Nat) : Int) := by
    have := lt_of_mul_lt_mul_right hlt hunit.le
    exact_mod_cast this
  have hsucc : (|(z : Rat)| + 1) ≤ ((10 ^ (c.emax + 1 - d.last c).toNat : Nat) : Rat) := by
    exact_mod_cast hsucc
  refine .inr ?_
  rw [hz, abs_mul, abs_of_pos hunit, zpow_split hlast, ← unit, mul_comm (d.unit c)]
  have := mul_le_mul_of_nonneg_right hsucc hunit.le
  linarith

/-- A number of no more digits than are kept is left as it is. -/
theorem fix_of_val {m : Nat} {e : Int} (hprec : 0 < c.prec) (hrange : c.etiny ≤ c.etop)
    (hm : m < 10 ^ c.prec) (he : c.etiny ≤ e) (h : |d.val| = m * (10 : Rat) ^ e)
    (hlt : |d.val| < 10 ^ (c.emax + 1)) : ∃ r, d.fix c = some r ∧ r.val = d.val := by
  have hexact := exact_of_val hm he h
  obtain ⟨r, hr⟩ := Option.isSome_iff_exists.mp
    ((fix_isSome_iff hprec hrange).mpr (fits_of_exact hrange hexact hlt))
  exact ⟨r, hr, (val_fix_iff hprec hr).mpr hexact⟩

end Fix

section Operations

variable {a b d r : Dec} {c : Context}

theorem strip_spec (n q : Nat) (e : Int) :
    ((strip n (q, e)).1 * 10 ^ (strip n (q, e)).2 : Rat) = q * 10 ^ e ∧
      (strip n (q, e)).1 ≤ q ∧ e ≤ (strip n (q, e)).2 ∧ ((strip n (q, e)).1 = 0 ↔ q = 0) := by
  induction n generalizing q e with
  | zero => exact ⟨rfl, le_rfl, le_rfl, Iff.rfl⟩
  | succ n ih =>
    rw [strip]
    split
    · rename_i hzero
      obtain ⟨hval, hle, hexp, hne⟩ := ih (q / 10) (e + 1)
      refine ⟨?_, by omega, by omega, by rw [hne]; omega⟩
      obtain ⟨k, rfl⟩ := Nat.dvd_of_mod_eq_zero hzero
      rw [hval, Nat.mul_div_cancel_left _ (by decide), zpow_add₀ (by norm_num)]
      push_cast
      ring
    · exact ⟨rfl, le_rfl, le_rfl, Iff.rfl⟩

theorem val_mul (a b : Dec) :
    val ⟨xor a.neg b.neg, a.coeff * b.coeff, a.exp + b.exp⟩ = a.val * b.val := by
  simp only [val, sign]
  rw [zpow_add₀ (by norm_num)]
  push_cast
  cases a.neg <;> cases b.neg <;> simp <;> ring

theorem neg_div (h : div c a b = some r) : r.neg = xor a.neg b.neg := by
  rw [div] at h
  dsimp only at h
  split at h
  · exact neg_fix h
  split at h <;> exact neg_fix h

/-- An exact quotient is rounded as it is. -/
theorem div_exact (hb : b.coeff ≠ 0)
    (hdvd : b.coeff * 10 ^ (-(b.digits - a.digits + c.prec + 1 : Int)).toNat ∣
      a.coeff * 10 ^ (b.digits - a.digits + c.prec + 1 : Int).toNat) :
    ∃ d : Dec, div c a b = d.fix c ∧ d.val = a.val / b.val := by
  have hbval : b.val ≠ 0 := by
    rw [← abs_ne_zero, abs_val]
    have : (b.coeff : Rat) ≠ 0 := by exact_mod_cast hb
    positivity
  rw [div]
  dsimp only
  split
  · rename_i hzero
    exact ⟨_, rfl, by rw [val_of_zero rfl, val_of_zero hzero, zero_div]⟩
  generalize hshift : (b.digits - a.digits + c.prec + 1 : Int) = shift at hdvd ⊢
  rw [if_neg (by rw [Nat.mod_eq_zero_of_dvd hdvd]; simp)]
  refine ⟨_, rfl, (eq_div_iff hbval).mpr ?_⟩
  have hstrip := (strip_spec shift.toNat (a.coeff * 10 ^ shift.toNat /
    (b.coeff * 10 ^ (-shift).toNat)) (a.exp - b.exp - shift)).1
  have hquot := Nat.div_mul_cancel hdvd
  generalize a.coeff * 10 ^ shift.toNat / (b.coeff * 10 ^ (-shift).toNat) = q at hstrip hquot ⊢
  have hquot : (q * (b.coeff * 10 ^ (-shift).toNat) : Rat) = a.coeff * 10 ^ shift.toNat := by
    exact_mod_cast hquot
  have hten : (10 : Rat) ^ shift.toNat = 10 ^ (-shift).toNat * 10 ^ shift := by
    rw [← zpow_natCast, ← zpow_natCast, ← zpow_add₀ (by norm_num)]
    congr 1
    omega
  have hcoeff : (q * b.coeff : Rat) = a.coeff * 10 ^ shift := by
    have hpos : (10 : Rat) ^ (-shift).toNat ≠ 0 := by positivity
    refine mul_right_cancel₀ hpos ?_
    rw [mul_assoc, hquot, hten]
    ring
  have hexp : (10 : Rat) ^ (a.exp - b.exp - shift) * 10 ^ b.exp * 10 ^ shift = 10 ^ a.exp := by
    rw [← zpow_add₀ (by norm_num), ← zpow_add₀ (by norm_num)]
    congr 1
    omega
  have hsign : (sign ⟨xor a.neg b.neg, 0, 0⟩ : Rat) * b.sign = a.sign := by
    simp only [sign]
    cases a.neg <;> cases b.neg <;> norm_num
  rw [val, hstrip, val, val, ← hexp, ← hsign]
  simp only [sign] at hcoeff ⊢
  linear_combination (if xor a.neg b.neg then (-1 : Int) else 1 : Int) *
    ((if b.neg then (-1 : Int) else 1 : Int) : Rat) *
    ((10 : Rat) ^ (a.exp - b.exp - shift) * 10 ^ b.exp) * hcoeff

/-- Normalizing keeps a number that is rounded already. -/
theorem normalize_of_fix (h : d.fix c = some r) :
    ∃ w, d.normalize c = some w ∧ w.val = r.val := by
  rw [normalize, h]
  by_cases hne : r.coeff = 0
  · refine ⟨⟨r.neg, 0, 0⟩, by simp [hne], ?_⟩
    rw [val_of_zero hne, val_of_zero rfl]
  · have hstrip := (strip_spec (c.emax - r.exp).toNat r.coeff r.exp).1
    refine ⟨⟨r.neg, (strip (c.emax - r.exp).toNat (r.coeff, r.exp)).1,
      (strip (c.emax - r.exp).toNat (r.coeff, r.exp)).2⟩, by simp [hne], ?_⟩
    rw [val, hstrip, val]
    rfl

theorem normalize_spec (hprec : 0 < c.prec) {w : Dec} (h : d.normalize c = some w) :
    w.neg = d.neg ∧ w.coeff < 10 ^ c.prec ∧ (w.coeff = 0 ∨ c.etiny ≤ w.exp) := by
  rw [normalize] at h
  cases hfix : d.fix c with
  | none =>
    rw [hfix] at h
    cases h
  | some r =>
    rw [hfix] at h
    by_cases hzero : r.coeff = 0
    · simp only [Option.bind_eq_bind, Option.bind_some, if_pos hzero] at h
      obtain rfl := Option.some.inj h
      exact ⟨(neg_fix hfix : r.neg = d.neg), Nat.pow_pos (by decide), .inl rfl⟩
    · simp only [Option.bind_eq_bind, Option.bind_some, if_neg hzero] at h
      obtain rfl := Option.some.inj h
      have hne : d.coeff ≠ 0 := fun hcon => by
        rw [fix, if_pos hcon] at hfix
        obtain rfl := Option.some.inj hfix
        exact hzero hcon
      obtain ⟨-, hle, hexp, -⟩ := strip_spec (c.emax - r.exp).toNat r.coeff r.exp
      exact ⟨(neg_fix hfix : r.neg = d.neg), hle.trans_lt (fix_spec hprec hne hfix).2.1,
        .inr ((etiny_le_exp hne hfix).trans hexp)⟩

theorem same_iff (a b : Dec) : a.same b = true ↔ a.val = b.val := by
  have hpos : (10 : Rat) ^ min a.exp b.exp ≠ 0 := by positivity
  have ha : a.val = (a.sign * (a.coeff * 10 ^ (a.exp - min a.exp b.exp).toNat : Nat) : Int) *
      (10 : Rat) ^ min a.exp b.exp := by
    rw [val, zpow_split (min_le_left a.exp b.exp)]
    push_cast
    ring
  have hb : b.val = (b.sign * (b.coeff * 10 ^ (b.exp - min a.exp b.exp).toNat : Nat) : Int) *
      (10 : Rat) ^ min a.exp b.exp := by
    rw [val, zpow_split (min_le_right a.exp b.exp)]
    push_cast
    ring
  rw [ha, hb, mul_left_inj' hpos, Int.cast_inj, same]
  exact decide_eq_true_iff

theorem whole_iff_dvd (d : Dec) : Whole d.val ↔ 0 ≤ d.exp ∨ 10 ^ (-d.exp).toNat ∣ d.coeff := by
  rcases le_or_gt 0 d.exp with hexp | hexp
  · refine iff_of_true ⟨d.sign * (d.coeff * 10 ^ d.exp.toNat : Nat), ?_⟩ (.inl hexp)
    rw [val, zpow_toNat hexp]
    push_cast
    rfl
  · rw [or_iff_right (not_le.mpr hexp)]
    have hten : (10 ^ (-d.exp).toNat : Nat) * (10 : Rat) ^ d.exp = 1 := by
      rw [← zpow_toNat (by omega), ← zpow_add₀ (by norm_num), neg_add_cancel, zpow_zero]
    constructor
    · rintro ⟨z, hz⟩
      rw [← Int.natCast_dvd_natCast]
      refine ⟨d.sign * z, ?_⟩
      have hcoeff : (d.coeff : Rat) = (10 ^ (-d.exp).toNat : Nat) * (d.sign * z) := by
        rw [← hz, val]
        calc (d.coeff : Rat) = d.coeff * (d.sign * d.sign) *
              ((10 ^ (-d.exp).toNat : Nat) * (10 : Rat) ^ d.exp) := by
              rw [hten, sign_mul_self, mul_one, mul_one]
          _ = _ := by ring
      exact_mod_cast hcoeff
    · rintro ⟨k, hk⟩
      refine ⟨d.sign * k, ?_⟩
      rw [val, hk]
      push_cast at hten ⊢
      linear_combination (d.sign * k : Rat) * hten

theorem val_toInt (h : Whole d.val) : (d.toInt : Rat) = d.val := by
  rw [toInt, val]
  rcases le_or_gt 0 d.exp with hexp | hexp
  · rw [show (-d.exp).toNat = 0 by omega, pow_zero, Nat.div_one, zpow_toNat hexp]
    push_cast
    rfl
  · obtain ⟨k, hk⟩ := ((whole_iff_dvd d).mp h).resolve_left (not_le.mpr hexp)
    have hten : (10 ^ (-d.exp).toNat : Nat) * (10 : Rat) ^ d.exp = 1 := by
      rw [← zpow_toNat (by omega), ← zpow_add₀ (by norm_num), neg_add_cancel, zpow_zero]
    rw [show d.exp.toNat = 0 by omega, pow_zero, mul_one, hk,
      Nat.mul_div_cancel_left _ (Nat.pow_pos (by decide))]
    push_cast at hten ⊢
    linear_combination -(d.sign * k : Rat) * hten

/-- A number is its own whole part just when it is whole. -/
theorem same_toIntegralValue (d : Dec) : d.same d.toIntegralValue = true ↔ Whole d.val := by
  rw [same_iff, toIntegralValue]
  split
  · rename_i hexp
    exact iff_of_true rfl ((whole_iff_dvd d).mpr (.inl hexp))
  · rename_i hexp
    have hexp := not_le.mp hexp
    constructor
    · intro h
      refine ⟨d.sign * divHalfEven d.coeff (10 ^ (-d.exp).toNat), ?_⟩
      rw [h, val]
      simp only [sign, zpow_zero, mul_one]
      push_cast
      rfl
    · intro h
      have hdvd := ((whole_iff_dvd d).mp h).resolve_left (not_le.mpr hexp)
      have hpos : 0 < 10 ^ (-d.exp).toNat := Nat.pow_pos (by decide)
      rw [← val_toInt h, toInt, divHalfEven_of_dvd hpos hdvd, val,
        show d.exp.toNat = 0 by omega, pow_zero, mul_one, zpow_zero, mul_one, Int.cast_mul,
        Int.cast_natCast]
      rfl

end Operations

end Dec

end Decimals
