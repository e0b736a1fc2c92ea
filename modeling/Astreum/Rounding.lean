import Astreum.Rates
import Mathlib.Algebra.Order.Floor.Ring
import Mathlib.Data.Nat.Log
import Mathlib.Data.Rat.Floor
import Mathlib.Tactic.Linarith
import Mathlib.Tactic.Positivity

namespace Astreum

section Rounds

theorem pow2_pos (e : Int) : 0 < pow2 e := by
  rw [pow2]
  split <;> positivity

theorem roundHalfEven_nonneg {q : Rat} (h : 0 ≤ q) : 0 ≤ roundHalfEven q := by
  have hfloor : 0 ≤ q.floor := Rat.le_floor_iff.mpr (by simpa using h)
  simp only [roundHalfEven]
  split
  · exact hfloor
  split
  · omega
  split <;> omega

theorem roundHalfEven_le {q : Rat} {n : Int} (h : q ≤ n) : roundHalfEven q ≤ n := by
  have hfloor : (q.floor : Rat) ≤ q := Rat.floor_le q
  have hle : q.floor ≤ n := by exact_mod_cast hfloor.trans h
  simp only [roundHalfEven]
  by_cases hn : q.floor = n
  · have hrest : q - q.floor < 1 / 2 := by
      rw [hn]
      linarith
    rw [if_pos hrest]
    exact hle
  · have hlt : q.floor + 1 ≤ n := by omega
    split
    · exact hle
    split
    · exact hlt
    split <;> omega

/-- A proper fraction is below the power of two with exponent zero. -/
theorem ilog2_nonpos {q : Rat} (h0 : 0 ≤ q) (h1 : q < 1) : ilog2 q ≤ 0 := by
  have hnum : q.num.natAbs ≤ q.den := by
    have hlt : q.num < q.den := Rat.num_lt_denom_iff.mpr h1
    have hnonneg : 0 ≤ q.num := Rat.num_nonneg.mpr h0
    omega
  have hlog : Nat.log2 q.num.natAbs ≤ Nat.log2 q.den := by
    rw [Nat.log2_eq_log_two, Nat.log2_eq_log_two]
    exact Nat.log_mono_right hnum
  simp only [ilog2]
  split <;> omega

end Rounds

namespace Double

/-- A float that is no number below zero. -/
def Nonneg (x : Double) : Prop := ∀ q, x.value? = some q → 0 ≤ q

theorem nonneg_round (f : Format) {q : Rat} (h : 0 ≤ q) : (round f q).Nonneg := by
  intro r hr
  simp only [round] at hr
  split at hr
  · simp [value?] at hr
    exact hr.le
  split at hr
  · simp [value?] at hr
    exact hr.le
  split at hr
  · cases hr
  · obtain rfl := Option.some.inj hr
    have hunit := pow2_pos (max (ilog2 q) f.minExp - (f.precision - 1))
    exact mul_nonneg (by exact_mod_cast roundHalfEven_nonneg (div_nonneg h hunit.le)) hunit.le

/-- A proper fraction is rounded to one at most. -/
theorem round_le_one {q r : Rat} (h0 : 0 ≤ q) (h1 : q < 1)
    (h : (round binary64 q).value? = some r) : r ≤ 1 := by
  simp only [round] at h
  split at h
  · simp [value?] at h
    linarith
  split at h
  · simp [value?] at h
    linarith
  split at h
  · cases h
  obtain rfl := Option.some.inj h
  have hexp : max (ilog2 q) binary64.minExp - (binary64.precision - 1) < 0 := by
    have := ilog2_nonpos h0 h1
    simp only [binary64]
    omega
  rw [pow2, if_neg (not_le.mpr hexp)]
  generalize (-(max (ilog2 q) binary64.minExp - (binary64.precision - 1))).toNat = k
  have hk : (0 : Rat) < (2 ^ k : Nat) := by positivity
  have hround : roundHalfEven (q / (1 / (2 ^ k : Nat))) ≤ (2 ^ k : Nat) := by
    apply roundHalfEven_le
    rw [div_div_eq_mul_div, div_one]
    have := mul_le_mul_of_nonneg_right h1.le hk.le
    simpa using this
  have hcast : (roundHalfEven (q / (1 / (2 ^ k : Nat))) : Rat) ≤ (2 ^ k : Nat) := by
    exact_mod_cast hround
  rw [mul_one_div, div_le_one hk]
  exact hcast

variable {x y : Double}

theorem Nonneg.value (hx : x.Nonneg) : 0 ≤ x.value?.getD 0 := by
  rcases hv : x.value? with _ | q
  · exact le_rfl
  · exact hx q hv

theorem nonneg_zero (s : Bool) : (zero s).Nonneg := by
  intro q hq
  exact (Option.some.inj hq).le

theorem nonneg_of_value (h : x.value? = none) : x.Nonneg := by
  intro q hq
  rw [h] at hq
  cases hq

theorem Nonneg.add (hx : x.Nonneg) (hy : y.Nonneg) : (x.add y).Nonneg := by
  have hsum := nonneg_round binary64 (add_nonneg hx.value hy.value)
  cases x <;> cases y <;> simp only [Double.add]
  case zero.zero => exact nonneg_zero _
  case zero.num | num.zero | num.num => exact hsum
  case inf.inf =>
    split <;> exact nonneg_of_value rfl
  all_goals exact nonneg_of_value rfl

theorem Nonneg.mul (hx : x.Nonneg) (hy : y.Nonneg) : (x.mul y).Nonneg := by
  cases x <;> cases y <;> simp only [Double.mul]
  case num.num q r =>
    have hround := nonneg_round binary64 (mul_nonneg (hx q rfl) (hy r rfl))
    split
    · exact nonneg_zero _
    · exact hround
  case zero.zero | zero.num | num.zero => exact nonneg_zero _
  all_goals exact nonneg_of_value rfl

/-- What a proper fraction leaves of one. -/
theorem nonneg_one_sub {q : Rat} (h0 : 0 ≤ q) (h1 : q < 1) :
    ((num 1).sub (round binary64 q)).Nonneg := by
  rcases hx : round binary64 q with _ | s | s | r
  · exact nonneg_of_value rfl
  · exact nonneg_of_value rfl
  · exact nonneg_round _ (by simp [neg, value?])
  · have hr : r ≤ 1 := round_le_one h0 h1 (by rw [hx]; rfl)
    exact nonneg_round _ (by simpa [neg, value?] using hr)

end Double

section Rate

theorem nonneg_of_toFloat {n : Int} {x : Double} (hn : 0 ≤ n) (h : toFloat n = .ok x) :
    x.Nonneg := by
  have hround := Double.nonneg_round binary64 (q := n) (by exact_mod_cast hn)
  rw [toFloat, Double.ofInt?] at h
  split at h
  · rename_i y hy
    obtain rfl := Except.ok.inj h
    split at hy
    · cases hy
    · exact Option.some.inj hy ▸ hround
  · cases h

theorem nonneg_of_truncate {x : Double} {n : Int} (hx : x.Nonneg) (h : truncate x = .ok n) :
    0 ≤ n := by
  have hvalue := hx.value
  rcases x with _ | s | s | q
  · cases h
  · cases h
  · exact (Except.ok.inj h).le
  · obtain rfl := Except.ok.inj h
    have hq : 0 ≤ q := hvalue
    simp only [Double.toInt?, Double.value?, Option.map_some, Option.getD_some, if_pos hq]
    exact Rat.le_floor_iff.mpr (by simpa using hq)

theorem nonneg_of_blend {height duration prev curr n : Int} (hduration : 0 < duration)
    (hprev : 0 ≤ prev) (hcurr : 0 ≤ curr)
    (h : blend (windowProgress height duration) prev curr = .ok n) : 0 ≤ n := by
  have hpos : (0 : Rat) < duration := by exact_mod_cast hduration
  have h0 : (0 : Rat) ≤ Python.floorMod height duration / duration := by
    have := Int.fmod_nonneg_of_pos height hduration
    exact div_nonneg (by exact_mod_cast this) hpos.le
  have h1 : (Python.floorMod height duration / duration : Rat) < 1 := by
    have := Int.fmod_lt_of_pos height hduration
    rw [div_lt_one hpos]
    exact_mod_cast this
  obtain ⟨x, hx, h₁⟩ := except_bind_eq_ok.mp h
  obtain ⟨y, hy, h₂⟩ := except_bind_eq_ok.mp h₁
  have hleft := (nonneg_of_toFloat hprev hx).mul (Double.nonneg_one_sub h0 h1)
  have hright := (nonneg_of_toFloat hcurr hy).mul (Double.nonneg_round binary64 h0)
  exact nonneg_of_truncate (hleft.add hright) h₂

/-- No row of the statistics counts a negative fee. -/
def Header.CountsFees (h : Header) : Prop :=
  ∀ p, h.previousBlock = some p → ∀ w ∈ p.statistics, 0 ≤ w.prevFee ∧ 0 ≤ w.currFee

/-- The rate of fees is not negative where no fees are. -/
theorem nonneg_of_windowedRateFraction {h : Header} {duration numerator denominator : Int}
    (hfees : h.CountsFees)
    (hr : windowedRateFraction h duration = .ok (some (numerator, denominator))) :
    0 ≤ numerator := by
  rw [windowedRateFraction] at hr
  rcases hp : h.previousBlock with _ | p
  · simp only [hp] at hr
    cases hr
  simp only [hp] at hr
  rcases hs : p.statistics with _ | ⟨total, rest⟩
  · simp only [hs] at hr
    cases hr
  simp only [hs] at hr
  split at hr
  · split at hr
    · cases hr
    · obtain ⟨rfl, -⟩ := Prod.mk.inj (Option.some.inj (Except.ok.inj hr))
      exact (hfees p hp total (by rw [hs]; exact List.mem_cons_self)).1
  rcases hw : windowIndex duration (total :: rest) with _ | w
  · simp only [hw] at hr
    cases hr
  simp only [hw] at hr
  split at hr
  · cases hr
  rw [windowIndex] at hw
  split at hw
  · rename_i hpow
    have hduration : 0 < duration := by
      by_contra hcon
      simp [Python.isPowerOfTwo] at hpow
      omega
    have hmem : w ∈ p.statistics := by
      rw [hs]
      exact List.mem_of_getElem? hw
    obtain ⟨hprev, hcurr⟩ := hfees p hp w hmem
    obtain ⟨fee, hfee, h₁⟩ := except_bind_eq_ok.mp hr
    obtain ⟨stake, -, h₂⟩ := except_bind_eq_ok.mp h₁
    have hnonneg := nonneg_of_blend hduration hprev hcurr hfee
    have hsome := Except.ok.inj h₂
    split at hsome
    · cases hsome
    · obtain ⟨rfl, -⟩ := Prod.mk.inj (Option.some.inj hsome)
      exact hnonneg
  · cases hw

end Rate

end Astreum
