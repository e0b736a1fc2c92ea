import Astreum.LoanSafety
import Astreum.Rollback
import Astreum.Rounding

namespace Astreum

open Eff

deriving instance DecidableEq for OpenLoan

section Advance

/-- A loan record with its pointer, its missed count and its owner changed. -/
def TreasuryLoanRecord.moved (loan : TreasuryLoanRecord) (next missed : Int) (owner : Bytes) :
    TreasuryLoanRecord :=
  { loan with nextPaymentBlockNumber := next, missedCount := missed, owner := owner }

/-- From installment `k` on, `n` of them are settled and this interest is paid. -/
structure Advances (loan loan' : TreasuryLoanRecord) (k n interest : Int) : Prop where
  nonneg : 0 ≤ n
  last : k + n ≤ loan.paymentCount + 1
  record : ∃ missed owner, loan' = loan.moved (loan.dueAt (k + n)) missed owner
  interest_nonneg : 0 ≤ interest
  interest_le : interest ≤ loan.interestUpTo (k + n) - loan.interestUpTo k

variable {c : Ctx} {t : Transaction} {loan loan' : TreasuryLoanRecord} {k n interest : Int}

theorem Advances.due (h : Advances loan loan' k n interest) (hd : loan.Due k) :
    loan'.Due (k + n) := by
  obtain ⟨missed, owner, rfl⟩ := h.record
  have hfirst := hd.first
  have hnonneg := h.nonneg
  exact ⟨⟨hd.scheduled.creation, hd.scheduled.interval, hd.scheduled.count⟩, by omega, h.last, rfl⟩

/-- Steps without interest. -/
theorem advances_free (hd : loan.Due k) (ht : 0 ≤ loan.totalInterest) (hn : 0 ≤ n)
    (hlast : k + n ≤ loan.paymentCount + 1) (missed : Int) (owner : Bytes) :
    Advances loan (loan.moved (loan.dueAt (k + n)) missed owner) k n 0 := by
  have hmono := interestUpTo_mono hd.scheduled.count ht (show k ≤ k + n by omega)
  exact ⟨hn, hlast, ⟨missed, owner, rfl⟩, le_rfl, by omega⟩

theorem missedPayments_of_due (hd : loan.Due k) {r : Int × Int}
    (h : missedPayments c loan = .ok r) :
    ∃ k₁, k ≤ k₁ ∧ k₁ ≤ loan.paymentCount + 1 ∧ r = (k₁ - k, loan.dueAt k₁) := by
  rw [missedPayments, hd.pointer] at h
  rcases hkind : loan.loanType with _ | _ <;> simp only [hkind] at h
  · exact ⟨k, le_rfl, hd.last, by rw [← Except.ok.inj h, Int.sub_self]⟩
  · obtain ⟨k₁, hk, hlast, rfl⟩ := writeOff_eq_ok hd.scheduled hd.first hd.last h
    exact ⟨k₁, hk, hlast, by rw [Int.zero_add]⟩

theorem repayment_of_due (hs : loan.Scheduled) (h1 : 1 ≤ k) (hk : k ≤ loan.paymentCount + 1)
    {amount : Int} {r : Repayment} (h : repayment loan amount (loan.dueAt k) = .ok (some r)) :
    k + (Python.floorDiv amount loan.paymentAmount).toNat ≤ loan.paymentCount + 1 ∧
      r.nextPaymentBlockNumber =
        loan.dueAt (k + (Python.floorDiv amount loan.paymentAmount).toNat) ∧
      r.paidAfter = k + (Python.floorDiv amount loan.paymentAmount).toNat - 1 := by
  rw [repayment] at h
  rcases hp : payForward loan (Python.floorDiv amount loan.paymentAmount).toNat (loan.dueAt k)
    with _ | next
  · simp only [hp] at h
    cases h
  simp only [hp] at h
  obtain ⟨hlast, rfl⟩ := payForward_eq_some hs h1 hk hp
  rw [paidAt_dueAt hs (by omega) hlast] at h
  obtain ⟨paid, hpaid, h₁⟩ := except_bind_eq_ok.mp h
  obtain rfl := Except.ok.inj hpaid
  split at h₁
  · cases h₁
  · obtain rfl := Option.some.inj (Except.ok.inj h₁)
    exact ⟨hlast, rfl, rfl⟩

theorem floorDiv_nonneg {a b : Int} (ha : 0 < a) (hb : 0 < b) : 0 ≤ Python.floorDiv a b :=
  Int.fdiv_nonneg ha.le hb.le

theorem repaid_advances (hd : loan.Due k) (ht : 0 ≤ loan.totalInterest) (hamount : 0 < t.amount)
    (hpayment : 0 < loan.paymentAmount)
    (h : repaidLoan c t loan = .ok (some (loan', n, interest))) :
    Advances loan loan' k n interest := by
  have hs := hd.scheduled
  have hfirst := hd.first
  obtain ⟨⟨missedDelta, pointer⟩, hmissed, h₁⟩ := except_bind_eq_ok.mp h
  obtain ⟨k₁, hk, hlast, hr⟩ := missedPayments_of_due hd hmissed
  obtain ⟨rfl, rfl⟩ := Prod.mk.inj hr
  obtain ⟨paid, hpaid, h₂⟩ := except_bind_eq_ok.mp h₁
  rw [paidAt_dueAt hs (by omega) hlast] at hpaid
  obtain rfl := Except.ok.inj hpaid
  obtain ⟨moved, hmoved, h₃⟩ := except_bind_eq_ok.mp h₂
  rcases moved with _ | ⟨next, paidAfter, payments⟩
  · cases h₃
  obtain ⟨m, hm, hend, rfl, rfl, hpayments⟩ : ∃ m, 0 ≤ m ∧ k₁ + m ≤ loan.paymentCount + 1 ∧
      next = loan.dueAt (k₁ + m) ∧ paidAfter = k₁ + m - 1 ∧ payments = m := by
    split at hmoved
    · rename_i hzero
      obtain ⟨rfl, rfl, rfl⟩ : 0 = next ∧ k₁ - 1 = paidAfter ∧ 0 = payments := by
        simpa using hmoved
      exact ⟨0, le_rfl, by omega, by rw [Int.add_zero, hzero], by omega, rfl⟩
    · obtain ⟨repaid, hrepaid, h₄⟩ := except_bind_eq_ok.mp hmoved
      rcases repaid with _ | repaid
      · cases h₄
      obtain ⟨hend, hnext, hafter⟩ := repayment_of_due hs (by omega) hlast hrepaid
      have hcount := Int.toNat_of_nonneg (floorDiv_nonneg hamount hpayment)
      rw [hcount] at hend hnext hafter
      obtain ⟨rfl, hr⟩ := Prod.mk.inj (Option.some.inj (Except.ok.inj h₄))
      obtain ⟨rfl, rfl⟩ := Prod.mk.inj hr
      exact ⟨_, floorDiv_nonneg hamount hpayment, hend, hnext, hafter, rfl⟩
  subst hpayments
  rcases hinterest : interestPaidDelta loan (k₁ - 1) (k₁ + payments - 1) loan.paymentCount with
    _ | paid
  · simp only [hinterest] at h₃
    cases h₃
  simp only [hinterest] at h₃
  obtain ⟨rfl, hr⟩ := Prod.mk.inj (Option.some.inj (Except.ok.inj h₃))
  obtain ⟨rfl, rfl⟩ := Prod.mk.inj hr
  obtain ⟨-, rfl⟩ := interestPaidDelta_eq_some hinterest
  have hsum : k + (k₁ - k + payments) = k₁ + payments := by omega
  have hstart := interestUpTo_mono hs.count ht hk
  have hpaidFor := interestUpTo_mono hs.count ht (show k₁ ≤ k₁ + payments by omega)
  refine ⟨by omega, by omega, ⟨_, loan.owner, by rw [hsum]; rfl⟩, by omega, ?_⟩
  rw [hsum]
  omega

theorem closed_advances (hd : loan.Due k) (ht : 0 ≤ loan.totalInterest) (missed : Int) :
    Advances loan (closedLoan loan missed) k (loan.paymentCount + 1 - k) 0 := by
  have hsum : k + (loan.paymentCount + 1 - k) = loan.paymentCount + 1 := by omega
  have hlast := hd.last
  have hfree := advances_free hd ht (by omega) hsum.le (loan.missedCount + missed) loan.owner
  rwa [hsum, dueAt_of_lt (by omega)] at hfree

theorem bought_advances (hd : loan.Due k) (ht : 0 ≤ loan.totalInterest) (buyer : Bytes) :
    Advances loan { loan with owner := buyer } k 0 0 := by
  have hlast := hd.last
  have hfree := advances_free hd ht le_rfl (by omega) loan.missedCount buyer
  rwa [Int.add_zero, ← hd.pointer] at hfree

theorem claimed_advances (hd : loan.Due k) (ht : 0 ≤ loan.totalInterest)
    (hopen : loan.nextPaymentBlockNumber ≠ 0)
    (h : claimedLoan c loan = .ok (some (loan', n))) : Advances loan loan' k n 0 := by
  have hs := hd.scheduled
  have hk : k ≤ loan.paymentCount := by
    by_contra hcon
    exact hopen (hd.pointer.trans (dueAt_of_lt (not_le.mp hcon)))
  obtain ⟨missed, hmissed, h₁⟩ := except_bind_eq_ok.mp h
  rw [paidPaymentCount_of_due hs hd.pointer hd.first hk, hd.pointer] at h₁
  simp only at h₁
  have hnonneg : 0 ≤ missed := by
    rw [installmentsDue] at hmissed
    split at hmissed
    · exact (Except.ok.inj hmissed).le
    · obtain ⟨q, hq, h₂⟩ := except_bind_eq_ok.mp hmissed
      rw [Python.floorDiv?, if_neg hs.interval.ne'] at hq
      obtain rfl := Except.ok.inj hq
      have hdiv := Int.fdiv_nonneg (Int.sub_nonneg_of_le (not_lt.mp ‹_›)) hs.interval.le
      have hsum := Except.ok.inj h₂
      rw [Python.floorDiv] at hsum
      omega
  have hbound : 0 ≤ claimable missed (loan.paymentCount - (k - 1)) ∧
      claimable missed (loan.paymentCount - (k - 1)) ≤ loan.paymentCount - (k - 1) := by
    rw [claimable]
    split <;> omega
  have hcount := Int.toNat_of_nonneg hbound.1
  rw [claimForward_of_due hs _ hd.first (by omega), hcount] at h₁
  obtain ⟨rfl, rfl⟩ := Prod.mk.inj (Option.some.inj (Except.ok.inj h₁))
  exact advances_free hd ht hbound.1 (by omega) loan.missedCount loan.owner

theorem stakePaid_advances (hd : loan.Due k) {amount next : Int}
    (ht : 0 ≤ loan.totalInterest)
    (h : stakePayment loan amount = .ok (some (next, interest))) :
    Advances loan { loan with nextPaymentBlockNumber := next } k
      (Python.floorDiv amount loan.paymentAmount) interest := by
  have hs := hd.scheduled
  have hfirst := hd.first
  rw [stakePayment] at h
  split at h
  · cases h
  rename_i hguard
  have hamount : 0 < amount ∧ 0 < loan.paymentAmount := by omega
  split at h
  · cases h
  rename_i hopen
  have hk : k ≤ loan.paymentCount := by
    by_contra hcon
    exact hopen (hd.pointer.trans (dueAt_of_lt (not_le.mp hcon)))
  split at h
  · cases h
  rw [paidPaymentCount_of_due hs hd.pointer hd.first hk] at h
  simp only at h
  split at h
  · cases h
  rcases hp : payForward loan (Python.floorDiv amount loan.paymentAmount).toNat
    loan.nextPaymentBlockNumber with _ | pointer
  · simp only [hp] at h
    cases h
  simp only [hp] at h
  rw [hd.pointer] at hp
  obtain ⟨hend, rfl⟩ := payForward_eq_some hs hd.first hd.last hp
  have hn := floorDiv_nonneg hamount.1 hamount.2
  rw [Int.toNat_of_nonneg hn] at h hend
  rw [paidAt_dueAt hs (by omega) hend] at h
  obtain ⟨paidAfter, hpaid, h₁⟩ := except_bind_eq_ok.mp h
  obtain rfl := Except.ok.inj hpaid
  split at h₁
  · cases h₁
  rcases hinterest : interestPaidDelta loan (k - 1)
    (k + Python.floorDiv amount loan.paymentAmount - 1) loan.paymentCount with _ | paid
  · simp only [hinterest] at h₁
    cases h₁
  simp only [hinterest] at h₁
  obtain ⟨rfl, rfl⟩ := Prod.mk.inj (Option.some.inj (Except.ok.inj h₁))
  obtain ⟨-, rfl⟩ := interestPaidDelta_eq_some hinterest
  have hmono := interestUpTo_mono hs.count ht
    (show k ≤ k + Python.floorDiv amount loan.paymentAmount by omega)
  exact ⟨hn, hend, ⟨loan.missedCount, loan.owner, rfl⟩, by omega, le_rfl⟩

end Advance

section Changes

/-- A transaction on a loan that goes through: the record it loads, the one the treasury then holds,
how many installments that settles and the interest paid. -/
inductive LoanChange (c : Ctx) (t : Transaction) (l l' : Ledger) :
    TreasuryLoanRecord → TreasuryLoanRecord → Int → Int → Prop where
  | repay {loanId : Bytes} {o : OpenLoan} {loan' : TreasuryLoanRecord} {n interest : Int}
      (h : handleTreasuryRepay c t l = (.ok .success, l')) (ho : Loads c l t.sender loanId o)
      (hamount : 0 < t.amount) (hpayment : 0 < o.loan.paymentAmount)
      (hloan : repaidLoan c t o.loan = .ok (some (loan', n, interest)))
      (hheld : l'.HoldsLoan c t.sender loanId loan' (o.record.totalInterestPaid + interest)) :
      LoanChange c t l l' o.loan loan' n interest
  | close {loanId : Bytes} {o : OpenLoan} {missed : Int}
      (h : handleTreasuryClose c t l = (.ok .success, l')) (ho : Loads c l t.sender loanId o)
      (hheld : l'.HoldsLoan c t.sender loanId (closedLoan o.loan missed)
        o.record.totalInterestPaid) :
      LoanChange c t l l' o.loan (closedLoan o.loan missed) o.loan.unsettled 0
  | buy {borrower loanId : Bytes} {o : OpenLoan}
      (h : handleTreasuryBuy c t l = (.ok .success, l')) (ho : Loads c l borrower loanId o)
      (hheld : l'.HoldsLoan c borrower loanId { o.loan with owner := t.sender }
        o.record.totalInterestPaid) :
      LoanChange c t l l' o.loan { o.loan with owner := t.sender } 0 0
  | claim {borrower loanId : Bytes} {o : OpenLoan} {loan' : TreasuryLoanRecord} {n : Int}
      (h : handleTreasuryClaim c t l = (.ok .success, l')) (ho : Loads c l borrower loanId o)
      (hloan : claimedLoan c o.loan = .ok (some (loan', n)))
      (hheld : l'.HoldsLoan c borrower loanId loan' o.record.totalInterestPaid) :
      LoanChange c t l l' o.loan loan' n 0

variable {c : Ctx} {t : Transaction} {l l' : Ledger}

/-- Every success of one of the handlers changes a loan. -/
theorem exists_loanChange (hreads : c.node.ReadsUsers)
    (h : handleTreasuryRepay c t l = (.ok .success, l') ∨
      handleTreasuryClose c t l = (.ok .success, l') ∨
      handleTreasuryBuy c t l = (.ok .success, l') ∨
      handleTreasuryClaim c t l = (.ok .success, l')) :
    ∃ loan loan' n interest, LoanChange c t l l' loan loan' n interest := by
  rcases h with h | h | h | h
  · obtain ⟨_, _, _, _, _, ho, hamount, hpayment, hloan, hheld⟩ :=
      handleTreasuryRepay_eq_success hreads h
    exact ⟨_, _, _, _, .repay h ho hamount hpayment hloan hheld⟩
  · obtain ⟨_, _, _, ho, hheld⟩ := handleTreasuryClose_eq_success hreads h
    exact ⟨_, _, _, _, .close h ho hheld⟩
  · obtain ⟨_, _, _, ho, hheld⟩ := handleTreasuryBuy_eq_success h
    exact ⟨_, _, _, _, .buy h ho hheld⟩
  · obtain ⟨_, _, _, _, _, ho, hloan, hheld⟩ := handleTreasuryClaim_eq_success h
    exact ⟨_, _, _, _, .claim h ho hloan hheld⟩

theorem unsettled_of_due {loan : TreasuryLoanRecord} {k : Int} (hd : loan.Due k)
    (hopen : loan.nextPaymentBlockNumber ≠ 0) :
    k ≤ loan.paymentCount ∧ loan.unsettled = loan.paymentCount + 1 - k := by
  have hk : k ≤ loan.paymentCount := by
    by_contra hcon
    exact hopen (hd.pointer.trans (dueAt_of_lt (not_le.mp hcon)))
  refine ⟨hk, ?_⟩
  rw [TreasuryLoanRecord.unsettled, paidPaymentCount_of_due hd.scheduled hd.pointer hd.first hk,
    Option.getD_some]
  omega

theorem LoanChange.advances {loan loan' : TreasuryLoanRecord} {k n interest : Int}
    (h : LoanChange c t l l' loan loan' n interest) (hd : loan.Due k)
    (ht : 0 ≤ loan.totalInterest) :
    loan.nextPaymentBlockNumber ≠ 0 ∧ Advances loan loan' k n interest := by
  cases h with
  | repay _ ho hamount hpayment hloan _ =>
    exact ⟨next_ne_zero_of_loads ho, repaid_advances hd ht hamount hpayment hloan⟩
  | close _ ho _ =>
    have hopen := next_ne_zero_of_loads ho
    rw [(unsettled_of_due hd hopen).2]
    exact ⟨hopen, closed_advances hd ht _⟩
  | buy _ ho _ => exact ⟨next_ne_zero_of_loads ho, bought_advances hd ht _⟩
  | claim _ ho hloan _ =>
    have hopen := next_ne_zero_of_loads ho
    exact ⟨hopen, claimed_advances hd ht hopen hloan⟩

end Changes

section Runs

/-- The blocks at which the next `n` installments of a loan are due. -/
def settledBlocks (loan : TreasuryLoanRecord) (n : Int) : List Int :=
  (List.range n.toNat).map fun j : Nat =>
    loan.nextPaymentBlockNumber + loan.paymentIntervalBlocks * j

/-- A loan from its borrowing on, at any heights: its record, the due blocks of the installments
settled so far, and the interest paid. -/
inductive LoanRun : TreasuryLoanRecord → List Int → Int → Prop
  | borrow {c : Ctx} {t : Transaction} {hash : Bytes} {l l' : Ledger} {loan : TreasuryLoanRecord}
      {interest : Int} (h : handleTreasuryBorrow c t hash l = (.ok .success, l'))
      (hloan : LoanMade c t loan) (hheld : l'.HoldsLoan c t.sender hash loan interest)
      (hheight : 0 ≤ c.header.height) (hfees : c.header.CountsFees) : LoanRun loan [] 0
  | change {c : Ctx} {t : Transaction} {l l' : Ledger} {loan loan' : TreasuryLoanRecord}
      {settled : List Int} {paid n interest : Int} (hrun : LoanRun loan settled paid)
      (h : LoanChange c t l l' loan loan' n interest) :
      LoanRun loan' (settled ++ settledBlocks loan n) (paid + interest)
  | stakeReturn {c : Ctx} {borrower loanId : Bytes} {loans : Tree} {l l' : Ledger}
      {record updated : TreasuryUserRecord} {loan : TreasuryLoanRecord} {settled : List Int}
      {paid amount next interest : Int} (hrun : LoanRun loan settled paid)
      (h : applyTreasuryLoanPayment c borrower loans record loanId loan amount l =
        (.ok (some updated), l'))
      (hloan : stakePayment loan amount = .ok (some (next, interest))) :
      LoanRun { loan with nextPaymentBlockNumber := next }
        (settled ++ settledBlocks loan (Python.floorDiv amount loan.paymentAmount))
        (paid + interest)

/-- The due blocks of the installments before `k`. -/
def dueBefore (loan : TreasuryLoanRecord) (k : Int) : List Int :=
  (List.range (k - 1).toNat).map fun j : Nat =>
    loan.creationBlockNumber + loan.paymentIntervalBlocks * (j + 1)

variable {loan loan' : TreasuryLoanRecord} {k n interest : Int}

/-- What is due next follows on what is settled. -/
theorem dueBefore_append (hd : loan.Due k) (hopen : loan.nextPaymentBlockNumber ≠ 0) (hn : 0 ≤ n) :
    dueBefore loan k ++ settledBlocks loan n = dueBefore loan (k + n) := by
  have hk := (unsettled_of_due hd hopen).1
  have hfirst := hd.first
  have hcount : (k + n - 1).toNat = (k - 1).toNat + n.toNat := by omega
  rw [dueBefore, dueBefore, hcount, List.range_add, List.map_append, List.map_map, settledBlocks]
  congr 1
  refine List.map_congr_left fun j _ => ?_
  have hcast : (((k - 1).toNat + j : Nat) : Int) = k - 1 + j := by omega
  simp only [Function.comp, hcast, hd.pointer, dueAt_of_le hk]
  ring

/-- What holds of a loan that has got to installment `k`. -/
structure OnSchedule (loan : TreasuryLoanRecord) (settled : List Int) (paid k : Int) : Prop where
  due : loan.Due k
  total : 0 ≤ loan.totalInterest
  settled : settled = dueBefore loan k
  paid_nonneg : 0 ≤ paid
  paid_le : paid ≤ loan.interestUpTo k

theorem LoanMade.onSchedule {c : Ctx} {t : Transaction} (h : LoanMade c t loan)
    (hheight : 0 ≤ c.header.height) (hfees : c.header.CountsFees) : OnSchedule loan [] 0 1 := by
  obtain ⟨numerator, denominator, interval, count, discounted, hrate, hdiscounted, _, _, _, rfl⟩ := h
  obtain ⟨hinterval, hcount, hle⟩ :=
    discounted_le (nonneg_of_windowedRateFraction hfees hrate) hdiscounted
  refine ⟨⟨⟨hheight, hinterval, hcount⟩, le_rfl, ?_, ?_⟩, Int.sub_nonneg_of_le hle, rfl, le_rfl, ?_⟩
  · exact Int.le_add_of_nonneg_left hcount.le
  · have hone : (1 : Int) ≤ count := Int.add_one_le_of_lt hcount
    rw [dueAt_of_le hone, Int.mul_one]
    rfl
  · exact (interestUpTo_first _).ge

theorem OnSchedule.advances {settled : List Int} {paid : Int} (h : OnSchedule loan settled paid k)
    (hopen : loan.nextPaymentBlockNumber ≠ 0) (ha : Advances loan loan' k n interest) :
    OnSchedule loan' (settled ++ settledBlocks loan n) (paid + interest) (k + n) := by
  have hdue := ha.due h.due
  obtain ⟨missed, owner, rfl⟩ := ha.record
  refine ⟨hdue, h.total, ?_, ?_, ?_⟩
  · rw [h.settled, dueBefore_append h.due hopen ha.nonneg]
    rfl
  · exact add_nonneg h.paid_nonneg ha.interest_nonneg
  · have hle := add_le_add h.paid_le ha.interest_le
    exact hle.trans (add_sub_cancel _ _).le

/-- A payment out of returned stake goes to a loan that is not done. -/
theorem next_ne_zero_of_stakePayment {amount next : Int}
    (h : stakePayment loan amount = .ok (some (next, interest))) :
    loan.nextPaymentBlockNumber ≠ 0 := by
  rw [stakePayment] at h
  split at h
  · cases h
  split at h
  · cases h
  · assumption

theorem LoanRun.onSchedule {settled : List Int} {paid : Int} (hrun : LoanRun loan settled paid) :
    ∃ k, OnSchedule loan settled paid k := by
  induction hrun with
  | borrow h hloan hheld hheight hfees => exact ⟨1, hloan.onSchedule hheight hfees⟩
  | change hrun h ih =>
    obtain ⟨k, hk⟩ := ih
    obtain ⟨hopen, hadvances⟩ := h.advances hk.due hk.total
    exact ⟨_, hk.advances hopen hadvances⟩
  | stakeReturn hrun h hloan ih =>
    obtain ⟨k, hk⟩ := ih
    exact ⟨_, hk.advances (next_ne_zero_of_stakePayment hloan)
      (stakePaid_advances hk.due hk.total hloan)⟩

theorem nodup_dueBefore (hs : loan.Scheduled) (k : Int) : (dueBefore loan k).Nodup := by
  refine List.Nodup.map (fun i j h => ?_) List.nodup_range
  have hmul := Int.eq_of_mul_eq_mul_left hs.interval.ne' (Int.add_left_cancel h)
  omega

end Runs

section Samples

/-- A node that holds a user record and a loan of the user. -/
def loanNode (record : TreasuryUserRecord) (loan : TreasuryLoanRecord) : Node :=
  { bareNode with
    stored := fun h => if h = bareNode.hash record.expr then some record.expr
      else if h = bareNode.hash loan.expr then some loan.expr else none
    openTree := fun _ => Dict.empty.insert aliceHash (.hashOf loan.expr)
    treeRoot := fun tree => if tree = .empty then zero32 else aliceHash }

/-- A block after one that took a fee of 1 for each unit of stake. -/
def rateHeader (height : Int) : Header :=
  { firstHeader with
    height := height
    previousBlock :=
      some ⟨none, 1, [⟨1, 1, 0, 0, 0, 0⟩, ⟨1, 1, 1, 1, 0, 0⟩, ⟨1, 1, 1, 1, 0, 0⟩], 0⟩ }

/-- The treasury with Alice's record in it. -/
def treasuryWith (record : TreasuryUserRecord) : Ledger :=
  (blockOf [(treasuryAddress, { createAccount 100 zero32 with
    data := Dict.empty.insert aliceAddress (.hashOf record.expr) }),
    (aliceAddress, createAccount 9 zero32)]).ledger

/-- Two payments of 4, one block apart. -/
def aliceBorrows : Transaction :=
  { aliceSends .treasuryBorrow treasuryAddress 4 with
    data := link (int_ 0) (link (int_ 1) (link (int_ 2) (link .nil .nil))) }

def aliceRepays : Transaction :=
  { aliceSends .treasuryRepay treasuryAddress 4 with data := link (.bytes aliceHash) .nil }

def aliceLoan : TreasuryLoanRecord :=
  newLoan ⟨bareNode, rateHeader 1⟩ aliceBorrows .secured 1 2 3 [] 0

def aliceStake : TreasuryUserRecord := { TreasuryUserRecord.empty with balance := 20 }

def aliceIndebted : TreasuryUserRecord := { aliceStake with loansRoot := ⟨aliceHash, none⟩ }

theorem countsFees_rateHeader (height : Int) : (rateHeader height).CountsFees := by
  intro p hp
  obtain rfl := Option.some.inj hp
  decide

end Samples

end Astreum
