import Astreum.LoanSafety
import Mathlib.Algebra.BigOperators.Intervals
import Mathlib.Algebra.Order.BigOperators.Group.Finset
import Mathlib.Algebra.Order.Floor.Ring
import Mathlib.Algebra.Order.Field.Basic
import Mathlib.Data.Rat.Floor
import Mathlib.Tactic.FieldSimp
import Mathlib.Tactic.GCongr

namespace Astreum

section Annuity

variable {K : Type*} [Field K] [LinearOrder K] [IsStrictOrderedRing K]

/-- What `n` payments of one are worth, the `k`-th of them times `v ^ k`. -/
def annuity (v : K) (n : Nat) : K := ∑ k ∈ Finset.range n, v ^ (k + 1)

theorem annuity_nonneg {v : K} (hv : 0 ≤ v) (n : Nat) : 0 ≤ annuity v n :=
  Finset.sum_nonneg fun _ _ => pow_nonneg hv _

omit [LinearOrder K] [IsStrictOrderedRing K] in
theorem annuity_one (n : Nat) : annuity (1 : K) n = n := by
  simp [annuity]

theorem annuity_mono {v w : K} {m n : Nat} (hv : 0 ≤ v) (hvw : v ≤ w) (hmn : m ≤ n) :
    annuity v m ≤ annuity w n := by
  calc annuity v m ≤ annuity w m :=
        Finset.sum_le_sum fun k _ => pow_le_pow_left₀ hv hvw (k + 1)
    _ ≤ annuity w n := by
        refine Finset.sum_le_sum_of_subset_of_nonneg (Finset.range_mono hmn) fun k _ _ => ?_
        exact pow_nonneg (hv.trans hvw) (k + 1)

/-- The closed form of the geometric sum. -/
theorem annuity_div {p q : K} (hp : p ≠ 0) (hne : p ≠ q) (n : Nat) :
    annuity (q / p) n = q * (p ^ n - q ^ n) / (p ^ n * (p - q)) := by
  have hgap : p - q ≠ 0 := sub_ne_zero.mpr hne
  induction n with
  | zero => simp [annuity]
  | succ n ih =>
    have hstep : annuity (q / p) (n + 1) = annuity (q / p) n + (q / p) ^ (n + 1) :=
      Finset.sum_range_succ _ _
    rw [hstep, ih, div_pow]
    field_simp
    ring

end Annuity

section Pricing

/-- What is left of one after a block at a rate. -/
def discountFactor (rateNumerator rateDenominator : Int) : ℚ :=
  rateDenominator / (rateDenominator + rateNumerator)

/-- What the payments are worth now: each is discounted by the rate of the blocks up to it. -/
def presentValue (paymentAmount paymentIntervalBlocks paymentCount rateNumerator
    rateDenominator : Int) : ℚ :=
  paymentAmount * annuity (discountFactor rateNumerator rateDenominator ^
    paymentIntervalBlocks.toNat) paymentCount.toNat

variable {amount interval count numerator denominator : Int}

theorem discountFactor_pos (hnum : 0 ≤ numerator) (hden : 0 < denominator) :
    0 < discountFactor numerator denominator := by
  have hd : (0 : ℚ) < denominator := by exact_mod_cast hden
  have hn : (0 : ℚ) ≤ numerator := by exact_mod_cast hnum
  exact div_pos hd (by linarith)

theorem discountFactor_le_one (hnum : 0 ≤ numerator) (hden : 0 < denominator) :
    discountFactor numerator denominator ≤ 1 := by
  have hd : (0 : ℚ) < denominator := by exact_mod_cast hden
  have hn : (0 : ℚ) ≤ numerator := by exact_mod_cast hnum
  exact (div_le_one (by linarith)).mpr (by linarith)

/-- A higher rate leaves less. -/
theorem discountFactor_anti {numerator' denominator' : Int} (hnum : 0 ≤ numerator)
    (hden : 0 < denominator) (hnum' : 0 ≤ numerator') (hden' : 0 < denominator')
    (h : (numerator' : ℚ) / denominator' ≤ numerator / denominator) :
    discountFactor numerator denominator ≤ discountFactor numerator' denominator' := by
  have hd : (0 : ℚ) < denominator := by exact_mod_cast hden
  have hn : (0 : ℚ) ≤ numerator := by exact_mod_cast hnum
  have hd' : (0 : ℚ) < denominator' := by exact_mod_cast hden'
  have hn' : (0 : ℚ) ≤ numerator' := by exact_mod_cast hnum'
  have hcross : (numerator' : ℚ) * denominator ≤ numerator * denominator' :=
    (div_le_div_iff₀ hd' hd).mp h
  rw [discountFactor, discountFactor, div_le_div_iff₀ (by linarith) (by linarith)]
  linarith

theorem presentValue_nonneg (hamount : 0 < amount) (hnum : 0 ≤ numerator)
    (hden : 0 < denominator) : 0 ≤ presentValue amount interval count numerator denominator := by
  have ha : (0 : ℚ) ≤ amount := by exact_mod_cast hamount.le
  exact mul_nonneg ha (annuity_nonneg (pow_nonneg (discountFactor_pos hnum hden).le _) _)

/-- The present value falls with the rate and the interval and rises with the payments. -/
theorem presentValue_mono {amount' interval' count' numerator' denominator' : Int}
    (hamount : 0 < amount) (hnum : 0 ≤ numerator) (hden : 0 < denominator)
    (hnum' : 0 ≤ numerator') (hden' : 0 < denominator') (ha : amount ≤ amount')
    (hi : interval' ≤ interval) (hc : count ≤ count')
    (hrate : (numerator' : ℚ) / denominator' ≤ numerator / denominator) :
    presentValue amount interval count numerator denominator ≤
      presentValue amount' interval' count' numerator' denominator' := by
  have hpos := discountFactor_pos hnum hden
  have hle := discountFactor_anti hnum hden hnum' hden' hrate
  have hfactor : discountFactor numerator denominator ^ interval.toNat ≤
      discountFactor numerator' denominator' ^ interval'.toNat :=
    calc discountFactor numerator denominator ^ interval.toNat
        ≤ discountFactor numerator' denominator' ^ interval.toNat :=
          pow_le_pow_left₀ hpos.le hle _
      _ ≤ discountFactor numerator' denominator' ^ interval'.toNat :=
          pow_le_pow_of_le_one (hpos.le.trans hle) (discountFactor_le_one hnum' hden')
            (Int.toNat_le_toNat hi)
  have hamounts : (amount : ℚ) ≤ amount' := by exact_mod_cast ha
  have hzero : (0 : ℚ) ≤ amount := by exact_mod_cast hamount.le
  have hsums := annuity_mono (pow_nonneg hpos.le _) hfactor (Int.toNat_le_toNat hc)
  exact mul_le_mul hamounts hsums (annuity_nonneg (pow_nonneg hpos.le _) _) (hzero.trans hamounts)

theorem presentValue_zero_rate (hcount : 0 < count) (hden : 0 < denominator) :
    presentValue amount interval count 0 denominator = ((amount * count : Int) : ℚ) := by
  have hd : (denominator : ℚ) ≠ 0 := by exact_mod_cast hden.ne'
  have hone : discountFactor 0 denominator = 1 := by
    rw [discountFactor, Int.cast_zero, add_zero, div_self hd]
  have hcast : ((count.toNat : Nat) : ℚ) = count := by
    exact_mod_cast congrArg (Int.cast : Int → ℚ) (Int.toNat_of_nonneg hcount.le)
  rw [presentValue, hone, one_pow, annuity_one, hcast, Int.cast_mul]

theorem presentValue_le (hamount : 0 < amount) (hcount : 0 < count) (hnum : 0 ≤ numerator)
    (hden : 0 < denominator) :
    presentValue amount interval count numerator denominator ≤ ((amount * count : Int) : ℚ) := by
  rw [← @presentValue_zero_rate amount interval _ _ hcount hden]
  refine presentValue_mono hamount hnum hden le_rfl hden le_rfl le_rfl le_rfl ?_
  rw [Int.cast_zero, zero_div]
  exact div_nonneg (by exact_mod_cast hnum) (by exact_mod_cast hden.le)

theorem floor_intCast_div {n d : Int} (hd : 0 < d) : ⌊(n : ℚ) / d⌋ = Python.floorDiv n d := by
  lift d to Nat using hd.le
  rw [Int.cast_natCast, Rat.floor_intCast_div_natCast, Python.floorDiv,
    Int.fdiv_eq_ediv_of_nonneg _ hd.le]

/-- The discounted amount is the present value rounded down, and none where that is zero. -/
theorem calculateDiscountedAmount_eq (hamount : 0 < amount) (hinterval : 0 < interval)
    (hcount : 0 < count) (hnum : 0 ≤ numerator) (hden : 0 < denominator) :
    calculateDiscountedAmount amount interval count numerator denominator =
      if 0 < ⌊presentValue amount interval count numerator denominator⌋ then
        some ⌊presentValue amount interval count numerator denominator⌋ else none := by
  rw [calculateDiscountedAmount, if_neg (by omega)]
  by_cases hzero : numerator = 0
  · subst hzero
    rw [if_pos rfl, presentValue_zero_rate hcount hden, Int.floor_intCast,
      if_pos (Int.mul_pos hamount hcount)]
  rw [if_neg hzero]
  have hqpos : 0 < denominator ^ interval.toNat := pow_pos hden _
  have hqp : denominator ^ interval.toNat < (denominator + numerator) ^ interval.toNat :=
    pow_lt_pow_left₀ (by omega) hden.le (by omega)
  have hfactor : discountFactor numerator denominator ^ interval.toNat =
      ((denominator ^ interval.toNat : Int) : ℚ) /
        (((denominator + numerator) ^ interval.toNat : Int) : ℚ) := by
    rw [discountFactor, div_pow]
    push_cast
    rfl
  rw [presentValue, hfactor]
  dsimp only
  generalize denominator ^ interval.toNat = q at hqpos hqp ⊢
  generalize (denominator + numerator) ^ interval.toNat = p at hqp ⊢
  have hppos : 0 < p := hqpos.trans hqp
  have hpow : q ^ count.toNat < p ^ count.toNat := pow_lt_pow_left₀ hqp hqpos.le (by omega)
  have hdown : 0 < p ^ count.toNat * (p - q) :=
    Int.mul_pos (pow_pos hppos _) (Int.sub_pos_of_lt hqp)
  have hup : 0 < amount * q * (p ^ count.toNat - q ^ count.toNat) :=
    Int.mul_pos (Int.mul_pos hamount hqpos) (Int.sub_pos_of_lt hpow)
  have hvalue : (amount : ℚ) * annuity ((q : ℚ) / p) count.toNat =
      ((amount * q * (p ^ count.toNat - q ^ count.toNat) : Int) : ℚ) /
        ((p ^ count.toNat * (p - q) : Int) : ℚ) := by
    have hp : (p : ℚ) ≠ 0 := by exact_mod_cast hppos.ne'
    have hne : (p : ℚ) ≠ q := by exact_mod_cast hqp.ne'
    rw [annuity_div hp hne]
    push_cast
    ring
  rw [if_neg hdown.ne', if_neg (not_lt.mpr hdown.le), one_mul, one_mul, if_neg (not_le.mpr hup),
    hvalue, floor_intCast_div hdown]
  split
  · rw [if_neg (by omega)]
  · rw [if_pos (by omega)]

/-- What a loan earns between two payments is not negative where it was worth no more than its
payments. -/
theorem interestPaidDelta_nonneg {loan : TreasuryLoanRecord} {paidBefore paidAfter : Int}
    (hcount : 0 < count) (hworth : loan.discountedAmount ≤ loan.paymentAmount * count)
    (hpaid : paidBefore ≤ paidAfter) :
    ∃ interest, interestPaidDelta loan paidBefore paidAfter count = some interest ∧
      0 ≤ interest := by
  have htotal : 0 ≤ loan.paymentAmount * count - loan.discountedAmount := by omega
  have hmono := Int.mul_le_mul_of_nonneg_left hpaid htotal
  have hfloor := Int.ediv_le_ediv hcount hmono
  refine ⟨_, by rw [interestPaidDelta]; exact if_neg (not_lt.mpr htotal), ?_⟩
  rw [Python.floorDiv, Python.floorDiv, Int.fdiv_eq_ediv_of_nonneg _ hcount.le,
    Int.fdiv_eq_ediv_of_nonneg _ hcount.le]
  omega

/-- The price of a loan is the floor of its present value, between none and its payments, it falls
with the rate and the interval and rises with the payments, and its interest is not negative. -/
theorem loan_is_priced_at_present_value (hamount : 0 < amount) (hinterval : 0 < interval)
    (hcount : 0 < count) (hnum : 0 ≤ numerator) (hden : 0 < denominator) :
    calculateDiscountedAmount amount interval count numerator denominator =
        (if 0 < ⌊presentValue amount interval count numerator denominator⌋ then
          some ⌊presentValue amount interval count numerator denominator⌋ else none) ∧
      0 ≤ ⌊presentValue amount interval count numerator denominator⌋ ∧
      ⌊presentValue amount interval count numerator denominator⌋ ≤ amount * count ∧
      (∀ amount' interval' count' numerator' denominator' : Int, 0 ≤ numerator' →
        0 < denominator' → 0 < interval' → amount ≤ amount' → interval' ≤ interval →
        count ≤ count' → (numerator' : ℚ) / denominator' ≤ numerator / denominator →
        (calculateDiscountedAmount amount interval count numerator denominator).getD 0 ≤
          (calculateDiscountedAmount amount' interval' count' numerator' denominator').getD 0) ∧
      ∀ (loan : TreasuryLoanRecord) (paidBefore paidAfter : Int),
        loan.paymentAmount = amount → paidBefore ≤ paidAfter →
        calculateDiscountedAmount amount interval count numerator denominator =
          some loan.discountedAmount →
        ∃ interest, interestPaidDelta loan paidBefore paidAfter count = some interest ∧
          0 ≤ interest := by
  have heq := calculateDiscountedAmount_eq hamount hinterval hcount hnum hden
  have hle : ⌊presentValue amount interval count numerator denominator⌋ ≤ amount * count := by
    have h := Int.floor_le_floor (@presentValue_le _ interval _ _ _ hamount hcount hnum hden)
    rwa [Int.floor_intCast] at h
  refine ⟨heq, Int.floor_nonneg.mpr (presentValue_nonneg hamount hnum hden), hle, ?_, ?_⟩
  · intro amount' interval' count' numerator' denominator' hnum' hden' hinterval' ha hi hc hrate
    have hfloor := Int.floor_le_floor
      (presentValue_mono hamount hnum hden hnum' hden' ha hi hc hrate)
    have hgetD : ∀ z : Int, 0 ≤ z → (if 0 < z then some z else none).getD 0 = z := by
      intro z hz
      split
      · rfl
      · simp only [Option.getD_none]
        omega
    rw [heq, calculateDiscountedAmount_eq (hamount.trans_le ha) hinterval' (hcount.trans_le hc)
      hnum' hden', hgetD _ (Int.floor_nonneg.mpr (presentValue_nonneg hamount hnum hden)),
      hgetD _ (Int.floor_nonneg.mpr (presentValue_nonneg (hamount.trans_le ha) hnum' hden'))]
    exact hfloor
  · rintro loan paidBefore paidAfter rfl hpaid hprice
    refine interestPaidDelta_nonneg hcount ?_ hpaid
    rw [heq] at hprice
    split at hprice
    · rw [← Option.some.inj hprice]
      exact hle
    · cases hprice

/-- Two payments of ten, discounted by a tenth each, are worth seventeen. -/
theorem two_payments_are_worth : ⌊presentValue 10 1 2 1 10⌋ = 17 := by
  have hprice := (@loan_is_priced_at_present_value 10 1 2 1 10 (by decide) (by decide) (by decide)
    (by decide) (by decide)).1
  have hrun : calculateDiscountedAmount 10 1 2 1 10 = some 17 := by decide
  rw [hrun] at hprice
  split at hprice
  · exact (Option.some.inj hprice).symm
  · cases hprice

end Pricing

end Astreum
