import Astreum.Treasury
import Mathlib.Tactic.Linarith
import Mathlib.Tactic.Ring

namespace Astreum

section Pointers

/-- The terms of a loan that its schedule is made of. -/
structure TreasuryLoanRecord.Scheduled (loan : TreasuryLoanRecord) : Prop where
  creation : 0 ≤ loan.creationBlockNumber
  interval : 0 < loan.paymentIntervalBlocks
  count : 0 < loan.paymentCount

/-- The block at which installment `k` is due, and zero after the last one. -/
def TreasuryLoanRecord.dueAt (loan : TreasuryLoanRecord) (k : Int) : Int :=
  if loan.paymentCount < k then 0
  else loan.creationBlockNumber + loan.paymentIntervalBlocks * k

/-- Installment `k` of a loan is the next one, with the one after the last for a loan that is
done. -/
structure TreasuryLoanRecord.Due (loan : TreasuryLoanRecord) (k : Int) : Prop where
  scheduled : loan.Scheduled
  first : 1 ≤ k
  last : k ≤ loan.paymentCount + 1
  pointer : loan.nextPaymentBlockNumber = loan.dueAt k

variable {loan : TreasuryLoanRecord} {k : Int} (hs : loan.Scheduled)

theorem dueAt_of_le (hk : k ≤ loan.paymentCount) :
    loan.dueAt k = loan.creationBlockNumber + loan.paymentIntervalBlocks * k :=
  if_neg (not_lt.mpr hk)

theorem dueAt_of_lt (hk : loan.paymentCount < k) : loan.dueAt k = 0 := if_pos hk

include hs

theorem dueAt_pos (h1 : 1 ≤ k) (hk : k ≤ loan.paymentCount) : 0 < loan.dueAt k := by
  rw [dueAt_of_le hk]
  have hmul : 0 < loan.paymentIntervalBlocks * k := Int.mul_pos hs.interval (by omega)
  have := hs.creation
  omega

/-- The last installment is the one due at the final block. -/
theorem dueAt_eq_final (hk : k ≤ loan.paymentCount) :
    loan.dueAt k = loan.finalPaymentBlockNumber ↔ k = loan.paymentCount := by
  rw [dueAt_of_le hk, TreasuryLoanRecord.finalPaymentBlockNumber]
  constructor
  · intro h
    exact Int.eq_of_mul_eq_mul_left hs.interval.ne' (by omega)
  · rintro rfl
    rfl

/-- The final block comes before the installment after `k` exactly where `k` is the last. -/
theorem final_lt_dueAt (hk : k ≤ loan.paymentCount) :
    loan.finalPaymentBlockNumber < loan.dueAt k + loan.paymentIntervalBlocks ↔
      k = loan.paymentCount := by
  rw [dueAt_of_le hk, TreasuryLoanRecord.finalPaymentBlockNumber]
  constructor
  · intro h
    by_contra hne
    have hlt : k + 1 ≤ loan.paymentCount := by omega
    have hmul := Int.mul_le_mul_of_nonneg_left hlt hs.interval.le
    rw [Int.mul_add, Int.mul_one] at hmul
    omega
  · rintro rfl
    have := hs.interval
    omega

omit hs in
theorem dueAt_add_interval (hk : k < loan.paymentCount) :
    loan.dueAt k + loan.paymentIntervalBlocks = loan.dueAt (k + 1) := by
  rw [dueAt_of_le hk.le, dueAt_of_le (Int.add_one_le_of_lt hk)]
  ring

/-- One turn of the loops that stop at the final block. -/
theorem dueAt_step (hk : k ≤ loan.paymentCount) :
    (if loan.dueAt k = loan.finalPaymentBlockNumber then 0
      else loan.dueAt k + loan.paymentIntervalBlocks) = loan.dueAt (k + 1) := by
  by_cases hlast : k = loan.paymentCount
  · rw [if_pos ((dueAt_eq_final hs hk).mpr hlast), dueAt_of_lt (by omega)]
  · rw [if_neg fun h => hlast ((dueAt_eq_final hs hk).mp h), dueAt_add_interval (by omega)]

/-- The payments made once installment `k` is the next. -/
theorem paidAt_dueAt (h1 : 1 ≤ k) (hk : k ≤ loan.paymentCount + 1) :
    paidAt loan (loan.dueAt k) = .ok (k - 1) := by
  rw [paidAt]
  by_cases hlast : loan.paymentCount < k
  · rw [if_pos (dueAt_of_lt hlast)]
    exact congrArg Except.ok (by omega)
  · have hle := not_lt.mp hlast
    rw [if_neg (dueAt_pos hs h1 hle).ne', dueAt_of_le hle, add_sub_cancel_left, Python.floorDiv?,
      if_neg hs.interval.ne', Python.floorDiv, Int.fdiv_eq_ediv_of_nonneg _ hs.interval.le,
      Int.mul_ediv_cancel_left _ hs.interval.ne']
    rfl

theorem paidPaymentCount_of_due (hp : loan.nextPaymentBlockNumber = loan.dueAt k) (h1 : 1 ≤ k)
    (hk : k ≤ loan.paymentCount) : paidPaymentCount loan = some (k - 1) := by
  have hspan : loan.nextPaymentBlockNumber - loan.creationBlockNumber =
      loan.paymentIntervalBlocks * k := by
    rw [hp, dueAt_of_le hk]
    ring
  have hpos : 0 < loan.paymentIntervalBlocks * k := Int.mul_pos hs.interval (by omega)
  rw [paidPaymentCount, if_neg (hp ▸ (dueAt_pos hs h1 hk).ne'), if_neg (not_le.mpr hs.interval),
    hspan]
  simp only
  rw [if_neg, Python.floorDiv, Int.fdiv_eq_ediv_of_nonneg _ hs.interval.le,
    Int.mul_ediv_cancel_left _ hs.interval.ne']
  rw [Python.floorMod, Int.fmod_eq_emod_of_nonneg _ hs.interval.le, Int.mul_emod_right]
  omega

end Pointers

section Loops

variable {loan : TreasuryLoanRecord} (hs : loan.Scheduled)

include hs

/-- One turn of the write-off. -/
theorem writeOff_succ (height : Int) (n : Nat) (missed : Int) {k : Int} (h1 : 1 ≤ k) :
    writeOff loan height (n + 1) missed (loan.dueAt k) =
      if k ≤ loan.paymentCount ∧ loan.dueAt k < height then
        writeOff loan height n (missed + 1) (loan.dueAt (k + 1))
      else .ok (missed, loan.dueAt k) := by
  rw [writeOff]
  by_cases hle : k ≤ loan.paymentCount
  · simp only [dueAt_step hs hle, (dueAt_pos hs h1 hle).ne', hle, ne_eq, not_false_eq_true, true_and]
  · rw [if_neg fun h => h.1 (dueAt_of_lt (not_le.mp hle)), if_neg fun h => hle h.1]

/-- The write-off ends: every turn takes one installment, and there are no more than are left. -/
theorem writeOff_of_due (height : Int) (n : Nat) (missed k : Int) (h1 : 1 ≤ k)
    (hk : k ≤ loan.paymentCount + 1) (hfuel : loan.paymentCount + 1 - k < n) :
    ∃ r, writeOff loan height n missed (loan.dueAt k) = .ok r := by
  induction n generalizing missed k with
  | zero => omega
  | succ n ih =>
    rw [writeOff_succ hs height n missed h1]
    by_cases hdue : k ≤ loan.paymentCount ∧ loan.dueAt k < height
    · rw [if_pos hdue]
      exact ih (missed + 1) (k + 1) (by omega) (by omega) (by omega)
    · rw [if_neg hdue]
      exact ⟨_, rfl⟩

/-- A write-off that ends has taken the installments from `k` on. -/
theorem writeOff_eq_ok {height : Int} {n : Nat} {missed k : Int} {r : Int × Int} (h1 : 1 ≤ k)
    (hk : k ≤ loan.paymentCount + 1)
    (h : writeOff loan height n missed (loan.dueAt k) = .ok r) :
    ∃ k', k ≤ k' ∧ k' ≤ loan.paymentCount + 1 ∧ r = (missed + (k' - k), loan.dueAt k') := by
  induction n generalizing missed k with
  | zero => cases h
  | succ n ih =>
    rw [writeOff_succ hs height n missed h1] at h
    by_cases hdue : k ≤ loan.paymentCount ∧ loan.dueAt k < height
    · rw [if_pos hdue] at h
      obtain ⟨k', hk', hlast, rfl⟩ := ih (by omega) (by omega) h
      exact ⟨k', by omega, hlast, by rw [Prod.mk.injEq]; exact ⟨by omega, rfl⟩⟩
    · rw [if_neg hdue] at h
      exact ⟨k, le_rfl, hk, by rw [← Except.ok.inj h, Int.sub_self, Int.add_zero]⟩

/-- The catch-up ends, with the installment that it stops at. -/
theorem catchUp_of_due (height : Int) (n : Nat) (amount k : Int) (h1 : 1 ≤ k)
    (hk : k ≤ loan.paymentCount + 1) (hfuel : loan.paymentCount + 1 - k < n) :
    ∃ r, catchUp loan height n amount (loan.dueAt k) = .ok r := by
  induction n generalizing amount k with
  | zero => omega
  | succ n ih =>
    rw [catchUp]
    by_cases hdue : 0 < loan.dueAt k ∧ loan.dueAt k ≤ height
    · have hle : k ≤ loan.paymentCount := by
        by_contra hcon
        exact hdue.1.ne' (dueAt_of_lt (not_le.mp hcon))
      rw [if_pos hdue]
      by_cases hlast : k = loan.paymentCount
      · exact ⟨_, if_pos ((final_lt_dueAt hs hle).mpr hlast)⟩
      · simp only [(final_lt_dueAt hs hle).not.mpr hlast, if_false]
        rw [dueAt_add_interval (by omega)]
        exact ih (amount + loan.paymentAmount) (k + 1) (by omega) (by omega) (by omega)
    · rw [if_neg hdue]
      exact ⟨_, rfl⟩

/-- The payments go to the installments from `k` on, of which there have to be enough. -/
theorem payForward_eq_some {n : Nat} {k p : Int} (h1 : 1 ≤ k) (hk : k ≤ loan.paymentCount + 1)
    (h : payForward loan n (loan.dueAt k) = some p) :
    k + n ≤ loan.paymentCount + 1 ∧ p = loan.dueAt (k + n) := by
  induction n generalizing k with
  | zero => exact ⟨by simpa using hk, by simpa using (Option.some.inj h).symm⟩
  | succ n ih =>
    rw [payForward] at h
    split at h
    · cases h
    rename_i hzero
    have hle : k ≤ loan.paymentCount := by
      by_contra hcon
      exact hzero (dueAt_of_lt (not_le.mp hcon))
    split at h
    · rename_i hfinal
      have hlast := (dueAt_eq_final hs hle).mp hfinal
      split at h
      · rename_i hn
        subst hn
        exact ⟨by simpa using hle, by
          rw [dueAt_of_lt (by simp; omega)]
          exact (Option.some.inj h).symm⟩
      · cases h
    · rename_i hfinal
      have hne : k ≠ loan.paymentCount := fun hcon => hfinal ((dueAt_eq_final hs hle).mpr hcon)
      split at h
      · cases h
      rw [dueAt_add_interval (by omega)] at h
      obtain ⟨hend, rfl⟩ := ih (by omega) (by omega) h
      push_cast
      exact ⟨by omega, congrArg loan.dueAt (by omega)⟩

/-- A claim for no more installments than are left goes through. -/
theorem claimForward_of_due (n : Nat) {k : Int} (h1 : 1 ≤ k) (hk : k + n ≤ loan.paymentCount + 1) :
    claimForward loan n (loan.dueAt k) = some (loan.dueAt (k + n)) := by
  induction n generalizing k with
  | zero => rw [claimForward, Nat.cast_zero, Int.add_zero]
  | succ n ih =>
    push_cast at hk ⊢
    have hle : k ≤ loan.paymentCount := by omega
    rw [claimForward]
    by_cases hlast : k = loan.paymentCount
    · rw [if_pos ((dueAt_eq_final hs hle).mpr hlast), dueAt_of_lt (by omega)]
    · rw [if_neg fun h => hlast ((dueAt_eq_final hs hle).mp h),
        if_neg fun h => hlast ((final_lt_dueAt hs hle).mp h), dueAt_add_interval (by omega),
        ih (by omega) (by omega)]
      exact congrArg (fun j => some (loan.dueAt j)) (by omega)

end Loops

end Astreum
