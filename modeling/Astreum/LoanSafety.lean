import Astreum.Neutral
import Astreum.Schedule
import Astreum.StakeReturn
import Astreum.UserRecords

namespace Astreum

open Eff

section Interest

variable {loan : TreasuryLoanRecord}

/-- What the payments of a loan come to beyond what it was worth. -/
def TreasuryLoanRecord.totalInterest (loan : TreasuryLoanRecord) : Int :=
  loan.paymentAmount * loan.paymentCount - loan.discountedAmount

/-- The interest that falls on the installments before `k`. -/
def TreasuryLoanRecord.interestUpTo (loan : TreasuryLoanRecord) (k : Int) : Int :=
  Python.floorDiv (loan.totalInterest * (k - 1)) loan.paymentCount

theorem interestUpTo_mono (hc : 0 < loan.paymentCount) (ht : 0 ≤ loan.totalInterest) {k k' : Int}
    (h : k ≤ k') : loan.interestUpTo k ≤ loan.interestUpTo k' := by
  rw [TreasuryLoanRecord.interestUpTo, TreasuryLoanRecord.interestUpTo, Python.floorDiv,
    Python.floorDiv, Int.fdiv_eq_ediv_of_nonneg _ hc.le, Int.fdiv_eq_ediv_of_nonneg _ hc.le]
  exact Int.ediv_le_ediv hc (Int.mul_le_mul_of_nonneg_left (by omega) ht)

theorem interestUpTo_first (loan : TreasuryLoanRecord) : loan.interestUpTo 1 = 0 := by
  simp [TreasuryLoanRecord.interestUpTo, Python.floorDiv]

theorem interestUpTo_last (hc : 0 < loan.paymentCount) :
    loan.interestUpTo (loan.paymentCount + 1) = loan.totalInterest := by
  rw [TreasuryLoanRecord.interestUpTo, Python.floorDiv, add_sub_cancel_right,
    Int.fdiv_eq_ediv_of_nonneg _ hc.le, Int.mul_ediv_cancel _ hc.ne']

theorem interestPaidDelta_eq_some {k k' d : Int}
    (h : interestPaidDelta loan (k - 1) (k' - 1) loan.paymentCount = some d) :
    0 ≤ loan.totalInterest ∧ d = loan.interestUpTo k' - loan.interestUpTo k := by
  rw [interestPaidDelta] at h
  split at h
  · cases h
  · exact ⟨not_lt.mp ‹_›, (Option.some.inj h).symm⟩

/-- The difference of two powers is at most what each of its terms can be. -/
theorem mul_pow_sub_pow_le {p q : Int} (hq : 0 ≤ q) (h : q ≤ p) (n : Nat) :
    q * (p ^ n - q ^ n) ≤ n * (p ^ n * (p - q)) := by
  induction n with
  | zero => simp
  | succ n ih =>
    have hp : 0 ≤ p := hq.trans h
    have hgap : 0 ≤ p - q := Int.sub_nonneg_of_le h
    have hstep := Int.mul_le_mul_of_nonneg_left ih hp
    have hpow : q ^ (n + 1) ≤ p ^ (n + 1) := pow_le_pow_left₀ hq h _
    have hlast := Int.mul_le_mul_of_nonneg_right hpow hgap
    calc q * (p ^ (n + 1) - q ^ (n + 1))
        = p * (q * (p ^ n - q ^ n)) + q ^ (n + 1) * (p - q) := by ring
      _ ≤ p * (n * (p ^ n * (p - q))) + p ^ (n + 1) * (p - q) := add_le_add hstep hlast
      _ = (n + 1 : Nat) * (p ^ (n + 1) * (p - q)) := by push_cast; ring

/-- At a rate that is not negative a loan is worth no more than its payments. -/
theorem discounted_le {amount interval count numerator denominator discounted : Int}
    (hrate : 0 ≤ numerator)
    (h : calculateDiscountedAmount amount interval count numerator denominator = some discounted) :
    0 < interval ∧ 0 < count ∧ discounted ≤ amount * count := by
  rw [calculateDiscountedAmount] at h
  split at h
  · cases h
  rename_i hguard
  simp only [not_or, not_le] at hguard
  obtain ⟨hamount, hinterval, hcount, hdenominator, -⟩ := hguard
  refine ⟨hinterval, hcount, ?_⟩
  split at h
  · exact (Option.some.inj h).ge
  rename_i hne
  simp only at h
  have hq : 0 < denominator ^ interval.toNat := pow_pos hdenominator _
  have hqp : denominator ^ interval.toNat < (denominator + numerator) ^ interval.toNat :=
    pow_lt_pow_left₀ (by omega) hdenominator.le (by omega)
  generalize denominator ^ interval.toNat = q at h hq hqp
  generalize (denominator + numerator) ^ interval.toNat = p at h hqp
  have hden : 0 < p ^ count.toNat * (p - q) :=
    Int.mul_pos (pow_pos (hq.trans hqp) _) (Int.sub_pos_of_lt hqp)
  rw [if_neg hden.ne', if_neg (not_lt.mpr hden.le), one_mul, one_mul] at h
  split at h
  · cases h
  split at h
  · cases h
  obtain rfl := Option.some.inj h
  rw [Python.floorDiv, Int.fdiv_eq_ediv_of_nonneg _ hden.le]
  refine Int.ediv_le_of_le_mul hden ?_
  have hterms := Int.mul_le_mul_of_nonneg_left (mul_pow_sub_pow_le hq.le hqp.le count.toNat)
    hamount.le
  have hcast : (count.toNat : Int) = count := Int.toNat_of_nonneg hcount.le
  calc amount * q * (p ^ count.toNat - q ^ count.toNat)
      = amount * (q * (p ^ count.toNat - q ^ count.toNat)) := by ring
    _ ≤ amount * (count.toNat * (p ^ count.toNat * (p - q))) := hterms
    _ = amount * count * (p ^ count.toNat * (p - q)) := by rw [hcast]; ring

end Interest

section Changes

variable (c : Ctx) (t : Transaction)

/-- What becomes of a loan that is repaid, how many installments that settles and the interest paid:
the missed ones are written off, and the amount goes to the next ones. -/
def repaidLoan (loan : TreasuryLoanRecord) : Py (Option (TreasuryLoanRecord × Int × Int)) := do
  let (missedDelta, pointer) ← missedPayments c loan
  let paidAfterWriteOff ← paidAt loan pointer
  let some (next, paidAfter, payments) ← (if pointer = 0 then
      .ok (some (0, paidAfterWriteOff, 0))
    else do
      let some repaid ← repayment loan t.amount pointer | return none
      return some (repaid.nextPaymentBlockNumber, repaid.paidAfter,
        Python.floorDiv t.amount loan.paymentAmount) : Py (Option (Int × Int × Int))) | return none
  let some interest := interestPaidDelta loan paidAfterWriteOff paidAfter loan.paymentCount
    | return none
  return some ({ loan with
    nextPaymentBlockNumber := next
    missedCount := loan.missedCount + missedDelta }, missedDelta + payments, interest)

/-- The installments due by now, of however many are left. -/
def installmentsDue (loan : TreasuryLoanRecord) : Py Int :=
  if c.header.height < loan.nextPaymentBlockNumber then pure 0
  else do
    let n ← Python.floorDiv? (c.header.height - loan.nextPaymentBlockNumber)
      loan.paymentIntervalBlocks
    pure (n + 1)

/-- What becomes of a loan whose due installments its buyer claims, and how many these are. -/
def claimedLoan (loan : TreasuryLoanRecord) : Py (Option (TreasuryLoanRecord × Int)) := do
  let missed ← installmentsDue c loan
  let some paid := paidPaymentCount loan | return none
  let missed := claimable missed (loan.paymentCount - paid)
  let some next := claimForward loan missed.toNat loan.nextPaymentBlockNumber | return none
  return some ({ loan with nextPaymentBlockNumber := next }, missed)

/-- The installments of a loan that are still to be settled. -/
def TreasuryLoanRecord.unsettled (loan : TreasuryLoanRecord) : Int :=
  loan.paymentCount - (paidPaymentCount loan).getD loan.paymentCount

/-- What becomes of a loan that is closed. -/
def closedLoan (loan : TreasuryLoanRecord) (missed : Int) : TreasuryLoanRecord :=
  { loan with nextPaymentBlockNumber := 0, missedCount := loan.missedCount + missed }

/-- The record of a loan that this transaction makes. -/
def LoanMade (loan : TreasuryLoanRecord) : Prop :=
  ∃ numerator denominator interval count discounted,
    windowedRateFraction c.header (interval * count) = .ok (some (numerator, denominator)) ∧
    calculateDiscountedAmount t.amount interval count numerator denominator = some discounted ∧
    ∃ loanType claimed fee, loan = newLoan c t loanType interval count discounted claimed fee

end Changes

section Handlers

variable {c : Ctx} {t : Transaction} {l l' : Ledger}

/-- What a handler loads of a loan, after reading accounts. -/
def Loads (c : Ctx) (l : Ledger) (user loanId : Bytes) (o : OpenLoan) : Prop :=
  ∃ l₁, l.Read c l₁ ∧ openLoan c user loanId l₁ = (.ok (some o), l₁)

/-- The treasury holds this loan of a user, and has it credited with this interest. -/
def Ledger.HoldsLoan (c : Ctx) (l : Ledger) (user loanId : Bytes) (loan : TreasuryLoanRecord)
    (interestPaid : Int) : Prop :=
  ∃ (record : TreasuryUserRecord) (loans : Tree), l.userAt c user = some (.hashOf record.expr) ∧
    record.loansRoot = pointerTo c.node (loans.insert loanId (.hashOf loan.expr)) ∧
    record.totalInterestPaid = interestPaid

theorem Ledger.HoldsLoan.mono {user loanId : Bytes} {loan : TreasuryLoanRecord} {interest : Int}
    (h : l.HoldsLoan c user loanId loan interest) (hk : l.KeepsUsers c l') :
    l'.HoldsLoan c user loanId loan interest := by
  obtain ⟨record, loans, hu, hroot, hinterest⟩ := h
  obtain ⟨guaranteed, hu'⟩ := hk user record hu
  exact ⟨_, loans, hu', hroot, hinterest⟩

theorem holdsLoan_putUserRecord {user loanId : Bytes} {loan : TreasuryLoanRecord}
    {loans loans' : Tree} {record : TreasuryUserRecord} {interest : Int}
    (h : putUserRecord user record l = (.ok (), l'))
    (htree : putInRadixTree loans loanId (.hashOf loan.expr) = .ok loans')
    (hroot : record.loansRoot = pointerTo c.node loans')
    (hinterest : record.totalInterestPaid = interest) :
    l'.HoldsLoan c user loanId loan interest := by
  obtain rfl := putInRadixTree_eq_ok htree
  exact ⟨record, loans, (writesUser_putUserRecord h user).trans (if_pos rfl), hroot, hinterest⟩

theorem holdsLoan_putLoan {user loanId : Bytes} {o : OpenLoan} {loan : TreasuryLoanRecord}
    {update : TreasuryUserRecord → TreasuryUserRecord} {exprs : List Expr} {interest : Int}
    (h : putLoan c user loanId o loan update l = (.ok exprs, l'))
    (hinterest : (update o.record).totalInterestPaid = interest) :
    l'.HoldsLoan c user loanId loan interest := by
  obtain ⟨loans, l₁, h₁, h₂⟩ := bind_eq_ok.mp h
  obtain ⟨htree, rfl⟩ := Prod.mk.inj h₁
  obtain ⟨loanExprs, l₂, h₃, h₄⟩ := bind_eq_ok.mp h₂
  obtain rfl := (keeps_innerExprs (R := Eq) _).of_ok h₃
  obtain ⟨_, l₃, h₅, h₆⟩ := bind_eq_ok.mp h₄
  obtain ⟨-, rfl⟩ := Prod.mk.inj h₆
  exact holdsLoan_putUserRecord h₅ htree rfl hinterest

theorem users_userExprs (o : OpenLoan) (loanId : Bytes) (loan : TreasuryLoanRecord)
    (update : TreasuryUserRecord → TreasuryUserRecord) :
    Keeps (Ledger.KeepsUsers c) (userExprs c o loanId loan update) :=
  keeps_innerExprs _

theorem next_ne_zero_of_loads {user loanId : Bytes} {o : OpenLoan}
    (h : Loads c l user loanId o) : o.loan.nextPaymentBlockNumber ≠ 0 := by
  obtain ⟨l₁, -, h₁⟩ := h
  obtain ⟨treasury, l₂, -, h₂⟩ := bind_eq_ok.mp h₁
  obtain ⟨record, l₃, -, h₃⟩ := bind_eq_ok.mp h₂
  rcases record with _ | record
  · cases h₃
  simp only at h₃
  split at h₃
  · cases h₃
  obtain ⟨loan, l₄, -, h₄⟩ := bind_eq_ok.mp h₃
  rcases loan with _ | loan
  · cases h₄
  simp only at h₄
  split at h₄
  · cases h₄
  rename_i hnext
  obtain ⟨ho, -⟩ := Prod.mk.inj h₄
  rw [← Option.some.inj (Except.ok.inj ho)]
  exact hnext

theorem loads_of_openLoan {user loanId : Bytes} {o : OpenLoan} {l₁ l₂ : Ledger}
    (hread : l.Read c l₁) (h : openLoan c user loanId l₁ = (.ok (some o), l₂)) :
    Loads c l user loanId o := by
  have hsame : l₂ = l₁ := (keeps_openLoan (R := Eq) user loanId).of_ok h |>.symm
  subst hsame
  exact ⟨l₂, hread, h⟩

/-- A repayment or a close that succeeds has opened the loan that its data names. -/
theorem opens_named_loan {k : Bytes → OpenLoan → Stateful Ledger Status}
    (h : (do
      if (← getAccount c treasuryAddress).isNone then return .failed
      let some loanId := loanTransactionId c.node t.data | return .failed
      let some o ← openLoan c t.sender loanId | return .failed
      k loanId o : Stateful Ledger Status) l = (.ok .success, l')) :
    ∃ account l₁ loanId o, getAccount c treasuryAddress l = (.ok account, l₁) ∧
      loanTransactionId c.node t.data = some loanId ∧
      openLoan c t.sender loanId l₁ = (.ok (some o), l₁) ∧ Loads c l t.sender loanId o ∧
      k loanId o l₁ = (.ok .success, l') := by
  obtain ⟨account, l₁, h₁, h₂⟩ := bind_eq_ok.mp h
  obtain ⟨-, hread, -⟩ := getAccount_eq_ok h₁
  split at h₂
  · cases h₂
  rcases hid : loanTransactionId c.node t.data with _ | loanId
  · simp only [hid] at h₂
    cases h₂
  simp only [hid] at h₂
  obtain ⟨o, l₂, h₃, h₄⟩ := bind_eq_ok.mp h₂
  rcases o with _ | o
  · cases h₄
  have hsame : l₂ = l₁ := ((keeps_openLoan (R := Eq) _ _).of_ok h₃).symm
  subst hsame
  exact ⟨account, l₂, loanId, o, h₁, rfl, h₃, ⟨l₂, hread, h₃⟩, h₄⟩

theorem repayOrReturn_eq_some {loan : TreasuryLoanRecord} {pointer paid : Int} {repaid : Repayment}
    (h : repayOrReturn c t loan pointer paid l = (.ok (some repaid), l')) :
    (pointer = 0 ∧ repaid = ⟨0, paid, false⟩) ∨
      (pointer ≠ 0 ∧ repayment loan t.amount pointer = .ok (some repaid)) := by
  rw [repayOrReturn] at h
  split at h
  · rename_i hzero
    obtain ⟨returned, l₁, -, h₂⟩ := bind_eq_ok.mp h
    cases returned with
    | false => cases h₂
    | true =>
      obtain ⟨hr, -⟩ := Prod.mk.inj h₂
      exact .inl ⟨hzero, (Option.some.inj (Except.ok.inj hr)).symm⟩
  · exact .inr ⟨‹_›, (Prod.mk.inj h).1⟩

theorem repaidLoan_of_repayOrReturn {loan : TreasuryLoanRecord} {missedDelta pointer paid : Int}
    {repaid : Repayment} {interest : Int}
    (hmissed : missedPayments c loan = .ok (missedDelta, pointer))
    (hpaid : paidAt loan pointer = .ok paid)
    (h : repayOrReturn c t loan pointer paid l = (.ok (some repaid), l'))
    (hinterest : interestPaidDelta loan paid repaid.paidAfter loan.paymentCount = some interest) :
    ∃ n, repaidLoan c t loan = .ok (some ({ loan with
      nextPaymentBlockNumber := repaid.nextPaymentBlockNumber
      missedCount := loan.missedCount + missedDelta }, n, interest)) := by
  rcases repayOrReturn_eq_some h with ⟨rfl, rfl⟩ | ⟨hpointer, hrepaid⟩
  · refine ⟨missedDelta, ?_⟩
    simp [repaidLoan, hmissed, hpaid, except_bind_eq_ok, hinterest]
    rfl
  · refine ⟨missedDelta + Python.floorDiv t.amount loan.paymentAmount, ?_⟩
    simp [repaidLoan, hmissed, hpaid, hpointer, hrepaid, except_bind_eq_ok]
    exact ⟨_, rfl, by simp only [hinterest]; rfl⟩

theorem handleTreasuryRepay_eq_success (hreads : c.node.ReadsUsers)
    (h : handleTreasuryRepay c t l = (.ok .success, l')) :
    ∃ loanId o loan n interest, Loads c l t.sender loanId o ∧ 0 < t.amount ∧
      0 < o.loan.paymentAmount ∧ repaidLoan c t o.loan = .ok (some (loan, n, interest)) ∧
      l'.HoldsLoan c t.sender loanId loan (o.record.totalInterestPaid + interest) := by
  rw [handleTreasuryRepay] at h
  split at h
  · cases h
  rename_i hguard
  obtain ⟨account, l₁, loanId, o, -, -, -, hloads, h₄⟩ := opens_named_loan h
  simp only at h₄
  split at h₄
  · cases h₄
  rename_i hamount
  rcases hpaid : paidPaymentCount o.loan with _ | paidBefore
  · simp only [hpaid] at h₄
    cases h₄
  simp only [hpaid] at h₄
  split at h₄
  · cases h₄
  obtain ⟨⟨missedDelta, pointer⟩, l₅, h₅, h₆⟩ := bind_eq_ok.mp h₄
  obtain ⟨hmissed, rfl⟩ := Prod.mk.inj h₅
  obtain ⟨paidAfterWriteOff, l₆, h₇, h₈⟩ := bind_eq_ok.mp h₆
  obtain ⟨hwritten, rfl⟩ := Prod.mk.inj h₇
  obtain ⟨repaid, l₇, h₉, h₁₀⟩ := bind_eq_ok.mp h₈
  rcases repaid with _ | repaid
  · cases h₁₀
  simp only at h₁₀
  rcases hinterest : interestPaidDelta o.loan paidAfterWriteOff repaid.paidAfter
    o.loan.paymentCount with _ | interest
  · simp only [hinterest] at h₁₀
    cases h₁₀
  simp only [hinterest] at h₁₀
  obtain ⟨exprs, l₈, h₁₁, h₁₂⟩ := bind_eq_ok.mp h₁₀
  have hkeeps : l₈.KeepsUsers c l' := by
    refine Keeps.of_ok ((users_creditOwnerIf _ _ _).users.bind fun _ => .ite (.pure _) ?_) h₁₂
    refine (users_userExprs _ _ _ _).bind fun _ => ?_
    refine (Keeps.when (users_addDefaulted _).users).bind fun _ => ?_
    refine (users_releaseGuaranteesIf hreads _ _).bind fun _ => ?_
    exact (users_extendPendingExprs _).users.bind fun _ => (users_involve _).users.bind fun _ =>
      .pure _
  have hchange := repaidLoan_of_repayOrReturn hmissed hwritten h₉ hinterest
  obtain ⟨n, hn⟩ := hchange
  exact ⟨loanId, o, _, n, interest, hloads, by omega, by omega, hn,
    (holdsLoan_putLoan h₁₁ rfl).mono hkeeps⟩

theorem handleTreasuryClose_eq_success (hreads : c.node.ReadsUsers)
    (h : handleTreasuryClose c t l = (.ok .success, l')) :
    ∃ loanId o missed, Loads c l t.sender loanId o ∧
      l'.HoldsLoan c t.sender loanId (closedLoan o.loan missed) o.record.totalInterestPaid := by
  rw [handleTreasuryClose] at h
  split at h
  · cases h
  obtain ⟨account, l₁, loanId, o, -, -, -, hloads, h₄⟩ := opens_named_loan h
  simp only at h₄
  split at h₄
  · cases h₄
  obtain ⟨closing, l₄, -, h₅⟩ := bind_eq_ok.mp h₄
  rcases closing with _ | closing
  · cases h₅
  simp only at h₅
  obtain ⟨exprs, l₅, h₆, h₇⟩ := bind_eq_ok.mp h₅
  have hkeeps : l₅.KeepsUsers c l' := by
    refine Keeps.of_ok ((users_creditOwnerIf _ _ _).users.bind fun _ => .ite (.pure _) ?_) h₇
    refine (Keeps.when ((users_returnToSender _ _).users.map _)).bind fun _ => ?_
    refine (users_userExprs _ _ _ _).bind fun _ => ?_
    refine (Keeps.when (users_addDefaulted _).users).bind fun _ => ?_
    refine (users_releaseGuarantees hreads _).bind fun _ => ?_
    exact (users_extendPendingExprs _).users.bind fun _ => (users_involve _).users.bind fun _ =>
      .pure _
  exact ⟨loanId, o, closing.missedDelta, hloads,
    (holdsLoan_putLoan h₆ (by cases o.loan.loanType <;> rfl)).mono hkeeps⟩

theorem loads_of_namedLoan {loanId borrower : Bytes} {o : OpenLoan}
    (h : namedLoan c t l = (.ok (some (loanId, borrower, o)), l')) :
    Loads c l borrower loanId o := by
  rw [namedLoan] at h
  rcases hid : loanTransactionId c.node t.data with _ | id
  · simp only [hid] at h
    cases h
  simp only [hid] at h
  obtain ⟨borrowerTx, l₁, h₁, h₂⟩ := bind_eq_ok.mp h
  obtain ⟨-, rfl⟩ := Prod.mk.inj h₁
  obtain ⟨account, l₂, h₃, h₄⟩ := bind_eq_ok.mp h₂
  obtain ⟨-, hread, -⟩ := getAccount_eq_ok h₃
  split at h₄
  · cases h₄
  obtain ⟨opened, l₃, h₅, h₆⟩ := bind_eq_ok.mp h₄
  rcases opened with _ | opened
  · cases h₆
  obtain ⟨hr, rfl⟩ := Prod.mk.inj h₆
  cases hr
  exact loads_of_openLoan hread h₅

theorem handleTreasuryBuy_eq_success
    (h : handleTreasuryBuy c t l = (.ok .success, l')) :
    ∃ borrower loanId o, Loads c l borrower loanId o ∧
      l'.HoldsLoan c borrower loanId { o.loan with owner := t.sender } o.record.totalInterestPaid := by
  rw [handleTreasuryBuy] at h
  split at h
  · cases h
  obtain ⟨quote, l₁, h₁, h₂⟩ := bind_eq_ok.mp h
  rcases quote with _ | ⟨loanId, borrower, o, price⟩
  · cases h₂
  simp only at h₂
  obtain ⟨debited, l₂, -, h₃⟩ := bind_eq_ok.mp h₂
  split at h₃
  · cases h₃
  obtain ⟨refunded, l₃, -, h₄⟩ := bind_eq_ok.mp h₃
  split at h₄
  · cases h₄
  obtain ⟨exprs, l₄, h₅, h₆⟩ := bind_eq_ok.mp h₄
  have hkeeps : l₄.KeepsUsers c l' := by
    refine Keeps.of_ok ((users_userExprs _ _ _ _).bind fun _ => ?_) h₆
    exact (users_extendPendingExprs _).users.bind fun _ => (users_involve _).users.bind fun _ =>
      .pure _
  refine ⟨borrower, loanId, o, ?_, (holdsLoan_putLoan h₅ rfl).mono hkeeps⟩
  obtain ⟨named, l₅, h₇, h₈⟩ := bind_eq_ok.mp h₁
  rcases named with _ | ⟨id, user, opened⟩
  · cases h₈
  simp only at h₈
  split at h₈
  · cases h₈
  rcases hremaining : remainingPaymentCount opened.loan with _ | remaining
  · simp only [hremaining] at h₈
    cases h₈
  simp only [hremaining] at h₈
  split at h₈
  · cases h₈
  obtain ⟨rate, l₆, -, h₉⟩ := bind_eq_ok.mp h₈
  rcases rate with _ | rate
  · cases h₉
  simp only at h₉
  rcases hprice : calculateDiscountedAmount opened.loan.paymentAmount
    opened.loan.paymentIntervalBlocks remaining rate.1 rate.2 with _ | price
  · simp only [hprice] at h₉
    cases h₉
  simp only [hprice] at h₉
  split at h₉
  · cases h₉
  obtain ⟨hr, -⟩ := Prod.mk.inj h₉
  cases hr
  exact loads_of_namedLoan h₇

theorem handleTreasuryClaim_eq_success
    (h : handleTreasuryClaim c t l = (.ok .success, l')) :
    ∃ borrower loanId o loan n, Loads c l borrower loanId o ∧
      claimedLoan c o.loan = .ok (some (loan, n)) ∧
      l'.HoldsLoan c borrower loanId loan o.record.totalInterestPaid := by
  rw [handleTreasuryClaim] at h
  split at h
  · cases h
  obtain ⟨named, l₁, h₁, h₂⟩ := bind_eq_ok.mp h
  rcases named with _ | ⟨loanId, borrower, o⟩
  · cases h₂
  simp only at h₂
  split at h₂
  · cases h₂
  obtain ⟨missed, l₂, h₃, h₄⟩ := bind_eq_ok.mp h₂
  obtain ⟨hmissed, rfl⟩ := Prod.mk.inj h₃
  rcases hpaid : paidPaymentCount o.loan with _ | paid
  · simp only [hpaid] at h₄
    cases h₄
  simp only [hpaid] at h₄
  split at h₄
  · cases h₄
  split at h₄
  · cases h₄
  obtain ⟨treasury, l₃, -, h₅⟩ := bind_eq_ok.mp h₄
  split at h₅
  · cases h₅
  obtain ⟨_, l₄, -, h₆⟩ := bind_eq_ok.mp h₅
  obtain ⟨owner, l₅, -, h₇⟩ := bind_eq_ok.mp h₆
  split at h₇
  · cases h₇
  obtain ⟨_, l₆, -, h₈⟩ := bind_eq_ok.mp h₇
  obtain ⟨_, l₇, -, h₉⟩ := bind_eq_ok.mp h₈
  rcases hnext : claimForward o.loan (claimable missed (o.loan.paymentCount - paid)).toNat
    o.loan.nextPaymentBlockNumber with _ | next
  · simp only [hnext] at h₉
    cases h₉
  simp only [hnext] at h₉
  obtain ⟨loans, l₈, h₁₀, h₁₁⟩ := bind_eq_ok.mp h₉
  obtain ⟨htree, rfl⟩ := Prod.mk.inj h₁₀
  obtain ⟨exprs, l₉, -, h₁₂⟩ := bind_eq_ok.mp h₁₁
  obtain ⟨_, l₁₀, -, h₁₃⟩ := bind_eq_ok.mp h₁₂
  obtain ⟨_, l₁₁, h₁₄, h₁₅⟩ := bind_eq_ok.mp h₁₃
  have hkeeps : l₁₁.KeepsUsers c l' := by
    refine Keeps.of_ok ((users_userExprs _ _ _ _).bind fun _ => ?_) h₁₅
    exact (users_extendPendingExprs _).users.bind fun _ => (users_involve _).users.bind fun _ =>
      .pure _
  refine ⟨borrower, loanId, o, _, claimable missed (o.loan.paymentCount - paid),
    loads_of_namedLoan h₁, ?_,
    (holdsLoan_putUserRecord h₁₄ htree rfl (by cases o.loan.loanType <;> rfl)).mono hkeeps⟩
  have hdue : installmentsDue c o.loan = .ok missed := hmissed
  simp only [claimedLoan, hdue, hpaid, hnext, bind, Except.bind, pure, Except.pure]

theorem handleSecuredBorrow_eq_success {request : TreasuryBorrowRequest} {hash : Bytes}
    (h : handleSecuredBorrow c t hash request l = (.ok .success, l')) :
    ∃ loan interest, LoanMade c t loan ∧ l'.HoldsLoan c t.sender hash loan interest := by
  obtain ⟨interval, l₁, h₁, h₂⟩ := bind_eq_ok.mp h
  obtain ⟨hinterval, rfl⟩ := Prod.mk.inj h₁
  obtain ⟨count, l₂, h₃, h₄⟩ := bind_eq_ok.mp h₂
  obtain ⟨hcount, rfl⟩ := Prod.mk.inj h₃
  obtain ⟨rate, l₃, h₅, h₆⟩ := bind_eq_ok.mp h₄
  obtain ⟨hrate, rfl⟩ := Prod.mk.inj h₅
  rcases rate with _ | rate
  · cases h₆
  obtain ⟨treasury, l₄, h₇, h₈⟩ := bind_eq_ok.mp h₆
  obtain ⟨htreasury, rfl⟩ := held_eq_ok.mp h₇
  obtain ⟨record, l₅, h₉, h₁₀⟩ := bind_eq_ok.mp h₈
  obtain ⟨hrecord, rfl⟩ := Prod.mk.inj h₉
  rcases record with _ | record
  · cases h₁₀
  obtain ⟨existing, l₆, h₁₁, h₁₂⟩ := bind_eq_ok.mp h₁₀
  obtain ⟨hexisting, rfl⟩ := Prod.mk.inj h₁₁
  rcases existing with _ | existing
  · cases h₁₂
  simp only at h₁₂
  rcases hdiscounted : calculateDiscountedAmount t.amount interval count rate.1 rate.2
    with _ | discounted
  · simp only [hdiscounted] at h₁₂
    cases h₁₂
  simp only [hdiscounted] at h₁₂
  split at h₁₂
  · cases h₁₂
  split at h₁₂
  · cases h₁₂
  obtain ⟨loans, l₇, h₁₃, h₁₄⟩ := bind_eq_ok.mp h₁₂
  obtain ⟨htree, rfl⟩ := Prod.mk.inj h₁₃
  obtain ⟨exprs, l₈, h₁₅, h₁₆⟩ := bind_eq_ok.mp h₁₄
  obtain ⟨_, l₉, h₁₇, h₁₈⟩ := bind_eq_ok.mp h₁₆
  have hkeeps : l₉.KeepsUsers c l' := by
    refine Keeps.of_ok ((users_addBalance _ _).users.bind fun _ => ?_) h₁₈
    refine (users_addBalance _ _).users.bind fun _ => (keeps_innerExprs _).bind fun _ => ?_
    exact (users_extendPendingExprs _).users.bind fun _ => .pure _
  exact ⟨_, _, ⟨rate.1, rate.2, interval, count, discounted, hrate, hdiscounted, _, _, _, rfl⟩,
    (holdsLoan_putUserRecord h₁₇ htree rfl rfl).mono hkeeps⟩

/-- What an unsecured borrow that succeeds has checked, and the payments that it has made. -/
structure BorrowSteps (c : Ctx) (t : Transaction) (hash : Bytes) (refs : List (Bytes × Bytes))
    (l l' : Ledger) (account : Account) (record : TreasuryUserRecord) (claimed : Claimed)
    (loan : TreasuryLoanRecord) : Prop where
  nodup : refs.Nodup
  treasury : l.cache.get? treasuryAddress = some account
  borrower : (Option.getD · .empty) <$> loadUserRecord c.node account.data t.sender = .ok record
  claims : ∃ duration, claimAllNamed c account.data hash duration refs = .ok (some claimed)
  covered : ¬claimed.states.pairs.any (fun (_, s) =>
    decide (s.record.totalInterestPaid < s.record.guaranteed + s.addedGuaranteed)) = true
  made : LoanMade c t loan
  unsecured : loan.loanType = .unsecured
  payments : ∃ loans exprs fee l₁ l₂ l₃ l₄,
    putInRadixTree (openTree c.node record.loansRoot) hash (.hashOf loan.expr) = .ok loans ∧
    0 < loan.discountedAmount - fee - priceTotal claimed.states ∧
    payGuarantors c claimed.states.pairs l = (.ok exprs, l₁) ∧
    putUserRecord t.sender { record with
      loansRoot := pointerTo c.node loans
      loaned := record.loaned + loan.discountedAmount } l₁ = (.ok (), l₂) ∧
    addBalance treasuryAddress (-(loan.discountedAmount - fee)) l₂ = (.ok (), l₃) ∧
    addBalance t.sender (loan.discountedAmount - fee - priceTotal claimed.states) l₃
      = (.ok (), l₄) ∧
    l'.account c = l₄.account c

theorem handleUnsecuredBorrow_steps {request : TreasuryBorrowRequest} {hash : Bytes}
    {refs : List (Bytes × Bytes)}
    (h : handleUnsecuredBorrow c t hash request refs l = (.ok .success, l')) :
    ∃ account record claimed loan, BorrowSteps c t hash refs l l' account record claimed loan := by
  rw [handleUnsecuredBorrow] at h
  split at h
  · cases h
  rename_i hrefs
  have hnodup : refs.Nodup := not_not.mp fun hcon => hrefs (.inr hcon)
  obtain ⟨interval, l₁, h₁, h₂⟩ := bind_eq_ok.mp h
  obtain ⟨hinterval, rfl⟩ := Prod.mk.inj h₁
  obtain ⟨count, l₂, h₃, h₄⟩ := bind_eq_ok.mp h₂
  obtain ⟨hcount, rfl⟩ := Prod.mk.inj h₃
  obtain ⟨discounted, l₃, h₅, h₆⟩ := bind_eq_ok.mp h₄
  obtain ⟨hdiscounted, rfl⟩ := Prod.mk.inj h₅
  rcases discounted with _ | discounted
  · cases h₆
  simp only at h₆
  split at h₆
  · cases h₆
  obtain ⟨treasury, l₄, h₇, h₈⟩ := bind_eq_ok.mp h₆
  obtain ⟨htreasury, rfl⟩ := held_eq_ok.mp h₇
  obtain ⟨record, l₅, h₉, h₁₀⟩ := bind_eq_ok.mp h₈
  obtain ⟨hrecord, rfl⟩ := Prod.mk.inj h₉
  obtain ⟨claimed, l₆, h₁₁, h₁₂⟩ := bind_eq_ok.mp h₁₀
  obtain ⟨hclaimed, rfl⟩ := Prod.mk.inj h₁₁
  rcases claimed with _ | claimed
  · cases h₁₂
  simp only at h₁₂
  split at h₁₂
  · cases h₁₂
  split at h₁₂
  · cases h₁₂
  rename_i hcovered
  rw [read_bind] at h₁₂
  generalize insuranceFee _ _ discounted = fee at h₁₂
  rcases fee with _ | fee
  · cases h₁₂
  simp only at h₁₂
  split at h₁₂
  · cases h₁₂
  rename_i hnet
  split at h₁₂
  · cases h₁₂
  split at h₁₂
  · cases h₁₂
  obtain ⟨loans, l₇, h₁₃, h₁₄⟩ := bind_eq_ok.mp h₁₂
  obtain ⟨htree, rfl⟩ := Prod.mk.inj h₁₃
  obtain ⟨exprs, l₈, h₁₅, h₁₆⟩ := bind_eq_ok.mp h₁₄
  obtain rfl := (keeps_innerExprs (R := Eq) _).of_ok h₁₅
  obtain ⟨guarantorExprs, l₉, h₁₇, h₁₈⟩ := bind_eq_ok.mp h₁₆
  obtain ⟨_, l₁₀, h₁₉, h₂₀⟩ := bind_eq_ok.mp h₁₈
  obtain ⟨userExprs, l₁₁, h₂₁, h₂₂⟩ := bind_eq_ok.mp h₂₀
  obtain rfl := (keeps_innerExprs (R := Eq) _).of_ok h₂₁
  obtain ⟨_, l₁₂, h₂₃, h₂₄⟩ := bind_eq_ok.mp h₂₂
  obtain ⟨_, l₁₃, h₂₅, h₂₆⟩ := bind_eq_ok.mp h₂₄
  obtain ⟨_, l₁₄, h₂₇, h₂₈⟩ := bind_eq_ok.mp h₂₆
  obtain ⟨_, l₁₅, h₂₉, h₃₀⟩ := bind_eq_ok.mp h₂₈
  have hview : l'.account c = l₁₃.account c := by
    obtain ⟨-, rfl⟩ := Prod.mk.inj h₂₇
    obtain ⟨-, rfl⟩ := Prod.mk.inj h₂₉
    obtain ⟨-, rfl⟩ := Prod.mk.inj h₃₀
    rfl
  have hmade : LoanMade c t
      (newLoan c t .unsecured interval count discounted claimed.entries fee) := by
    rw [discountedLoan] at hdiscounted
    obtain ⟨rate, hrate, hamount⟩ := except_bind_eq_ok.mp hdiscounted
    rcases rate with _ | rate
    · cases hamount
    exact ⟨rate.1, rate.2, interval, count, discounted, hrate, Except.ok.inj hamount, _, _, _, rfl⟩
  exact ⟨treasury, record.getD .empty, claimed, _,
    { nodup := hnodup
      treasury := htreasury
      borrower := by rw [hrecord]; rfl
      claims := ⟨_, hclaimed⟩
      covered := hcovered
      made := hmade
      unsecured := rfl
      payments := ⟨loans, guarantorExprs, fee, l₉, l₁₀, l₁₂, l₁₃, htree, not_le.mp hnet, h₁₇, h₁₉,
        h₂₃, h₂₅, hview⟩ }⟩

theorem handleUnsecuredBorrow_eq_success {request : TreasuryBorrowRequest} {hash : Bytes}
    {refs : List (Bytes × Bytes)}
    (h : handleUnsecuredBorrow c t hash request refs l = (.ok .success, l')) :
    ∃ loan interest, LoanMade c t loan ∧ l'.HoldsLoan c t.sender hash loan interest := by
  obtain ⟨account, record, claimed, loan, hsteps⟩ := handleUnsecuredBorrow_steps h
  obtain ⟨loans, exprs, fee, l₁, l₂, l₃, l₄, htree, -, -, hput, hlent, hpaid, hview⟩ :=
    hsteps.payments
  have htail : l₄.userAt c = l₂.userAt c :=
    ((users_addBalance _ _).of_ok hpaid).trans ((users_addBalance _ _).of_ok hlent)
  have hkeeps : l₂.KeepsUsers c l' := by
    refine .of_same (Eq.trans ?_ htail)
    exact userAt_of_account (congrArg (Option.map Account.data) (congrFun hview _))
  exact ⟨loan, _, hsteps.made, (holdsLoan_putUserRecord hput htree rfl rfl).mono hkeeps⟩

theorem handleTreasuryBorrow_eq_success {hash : Bytes}
    (h : handleTreasuryBorrow c t hash l = (.ok .success, l')) :
    ∃ loan interest, LoanMade c t loan ∧ l'.HoldsLoan c t.sender hash loan interest := by
  obtain ⟨-, -, account, l₁, loanType, interval, count, refs, kind, -, -, -, hmade⟩ :=
    handleTreasuryBorrow_steps h
  rcases hmade with ⟨-, hsecured⟩ | ⟨-, named, -, hunsecured⟩
  · exact handleSecuredBorrow_eq_success hsecured
  · exact handleUnsecuredBorrow_eq_success hunsecured

end Handlers

end Astreum
