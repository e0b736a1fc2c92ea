import Astreum.Replay
import Astreum.Supply

namespace Astreum

open Eff

section Holds

variable (c : Ctx)

/-- The accounts hold `total`, and there is one at `a`. -/
def Holds (a : Bytes) (total : Int) (l : Ledger) : Prop :=
  l.supply c = total ∧ (l.account c a).isSome

variable {c} {a : Bytes} {total : Int}

theorem Holds.cast {l : Ledger} {total' : Int} (h : Holds c a total l) (e : total = total') :
    Holds c a total' l :=
  e ▸ h

theorem Holds.of_balanced {l l' : Ledger} (h : l.Balanced c l') (hl : Holds c a total l) :
    Holds c a total l' := by
  obtain ⟨account, ha⟩ := Option.isSome_iff_exists.mp hl.2
  obtain ⟨account', ha', -⟩ := h.2 a account ha
  exact ⟨h.1.trans hl.1, Option.isSome_iff_exists.mpr ⟨account', ha'⟩⟩

theorem holds_of_keeps {α : Type} {m : Stateful Ledger α} (hm : Keeps (Ledger.Balanced c) m) :
    Triple (Holds c a total) m fun _ => Holds c a total :=
  fun _ hl _ _ hr => hl.of_balanced (hm.of_ok hr)

theorem holds_addBalance (b : Bytes) (n : Int) :
    Triple (Holds c a total) (addBalance b n) fun _ => Holds c a (total + n) := by
  intro l hl _ l' hr
  obtain ⟨account, ha⟩ := Option.isSome_iff_exists.mp hl.2
  obtain ⟨account', ha', -⟩ := (grows_addBalance b n).of_ok hr a account ha
  exact ⟨by rw [supply_addBalance hr, hl.1], Option.isSome_iff_exists.mpr ⟨account', ha'⟩⟩

/-- What holds once a handler succeeds. -/
abbrev Succeeds (Q : Ledger → Prop) (s : Status) (l : Ledger) : Prop := s = .success → Q l

theorem holds_failed {P Q : Ledger → Prop} :
    Triple P (pure .failed : Stateful Ledger Status) (Succeeds Q) :=
  .pure fun _ _ h => by cases h

/-- What holds once a part of a handler returns `true`. -/
abbrev Passes (Q : Ledger → Prop) (r : Bool) (l : Ledger) : Prop := r = true → Q l

/-- The rest of a handler whose part may fail it. -/
theorem holds_unless {x : Stateful Ledger Bool} {k : Stateful Ledger Status}
    {P Q S : Ledger → Prop} (hx : Triple P x (Passes Q)) (hk : Triple Q k (Succeeds S)) :
    Triple P (x >>= fun r => if (!r) = true then pure .failed else k) (Succeeds S) := by
  refine hx.bind fun r => ?_
  cases r with
  | false => exact holds_failed
  | true => exact fun l hl => hk l (hl rfl)

end Holds

section Treasury

variable {c : Ctx} {a : Bytes} {total : Int}

theorem holds_creditOwner (owner : Bytes) (amount : Int) :
    Triple (Holds c a total) (creditOwner c owner amount) (Passes (Holds c a (total + amount))) := by
  refine .ite (fun _ => (holds_addBalance _ _).bind fun _ => .pure fun _ hl _ => hl) fun _ => ?_
  refine (holds_of_keeps (balanced_neutral.read _)).bind fun _ => .ite (fun _ => ?_) fun _ => ?_
  · exact .pure fun _ _ h => by cases h
  · exact (holds_addBalance _ _).bind fun _ =>
      (holds_of_keeps (balanced_neutral.involve _)).bind fun _ => .pure fun _ hl _ => hl

theorem holds_creditOwnerIf (owed : Bool) (owner : Bytes) (amount : Int) :
    Triple (Holds c a total) (creditOwnerIf c owed owner amount)
      (Passes (Holds c a (total + if owed then amount else 0))) := by
  cases owed with
  | true => exact holds_creditOwner owner amount
  | false => exact .pure fun _ hl _ => hl.cast (by simp)

/-- The sender is there, so it gets back what it is returned. -/
theorem holds_returnToSender (amount : Int) :
    Triple (Holds c a total) (returnToSender c a amount) fun r l =>
      r = true ∧ Holds c a (total + amount) l := by
  intro l hl r l' hr
  obtain ⟨account, l₁, h₁, hr⟩ := bind_eq_ok.mp hr
  have hl₁ : Holds c a total l₁ := hl.of_balanced ((balanced_neutral.read a).of_ok h₁)
  obtain ⟨haccount, -, -⟩ := getAccount_eq_ok h₁
  have hsome : account.isNone = false := by
    rw [haccount]
    simpa using hl.2
  simp only [hsome, Bool.false_eq_true, if_false] at hr
  have hrest : Triple (Holds c a total) (do addBalance a amount; involve a; return true)
      fun r l => r = true ∧ Holds c a (total + amount) l :=
    (holds_addBalance a amount).bind fun _ =>
      (holds_of_keeps (balanced_neutral.involve _)).bind fun _ => .pure fun _ h => ⟨rfl, h⟩
  exact hrest l₁ hl₁ r l' hr

/-- A part that may return the amount to the sender, unless the owner is to be paid. -/
theorem holds_repayOrReturn (t : Transaction) (loan : TreasuryLoanRecord) (pointer paid : Int) :
    Triple (Holds c t.sender total) (repayOrReturn c t loan pointer paid) fun r l =>
      ∀ repaid, r = some repaid →
        Holds c t.sender (total + if repaid.creditOwner then 0 else t.amount) l := by
  refine .ite (fun _ => (holds_returnToSender _).bind fun r => .ite (fun _ => ?_) fun _ => ?_)
    fun _ => .ofExcept fun r l hr hl repaid hrepaid => ?_
  · exact .pure fun _ _ _ h => by cases h
  · refine .pure fun l hl repaid h => ?_
    obtain rfl := Option.some.inj h
    exact hl.2
  · obtain rfl := hrepaid
    have hcredit : repaid.creditOwner = true := by
      rw [repayment] at hr
      split at hr
      · obtain ⟨paidAfter, -, hr⟩ := except_bind_eq_ok.mp hr
        split at hr
        · cases hr
        · obtain rfl := Option.some.inj (Except.ok.inj hr)
          rfl
      · cases hr
    exact hl.cast (by simp [hcredit])

theorem holds_handleTreasuryRepay (t : Transaction) :
    Triple (Holds c t.sender total) (handleTreasuryRepay c t)
      (Succeeds (Holds c t.sender (total + t.amount))) := by
  refine .ite (fun _ => holds_failed) fun _ => ?_
  refine (holds_of_keeps (balanced_neutral.read _)).bind fun _ => .ite (fun _ => holds_failed)
    fun _ => ?_
  rcases loanTransactionId c.node t.data with _ | loanId
  · exact holds_failed
  refine (holds_of_keeps (keeps_openLoan _ _)).bind fun o => ?_
  rcases o with _ | o
  · exact holds_failed
  refine .ite (fun _ => holds_failed) fun _ => ?_
  rcases paidPaymentCount o.loan with _ | paidBefore
  · exact holds_failed
  refine .ite (fun _ => holds_failed) fun _ => (holds_of_keeps (.ofExcept _)).bind fun missed => ?_
  refine (holds_of_keeps (.ofExcept _)).bind fun _ => (holds_repayOrReturn _ _ _ _).bind fun r => ?_
  rcases r with _ | repaid
  · exact holds_failed
  simp only
  split
  · refine Triple.bind (Q := fun _ => Holds c t.sender _)
      (fun l hl _ _ hr => (hl repaid rfl).of_balanced
        ((balanced_neutral.putLoan _ _ _ _ _).of_ok hr)) fun _ => ?_
    refine holds_unless (holds_creditOwnerIf _ _ _) ?_
    refine (holds_of_keeps (keeps_innerExprs _)).bind fun _ => ?_
    refine (holds_of_keeps (.when (balanced_neutral.addDefaulted _))).bind fun _ => ?_
    refine (holds_of_keeps (balanced_neutral.releaseGuaranteesIf _ _)).bind fun _ => ?_
    refine (holds_of_keeps (balanced_neutral.extendPendingExprs _)).bind fun _ => ?_
    refine (holds_of_keeps (balanced_neutral.involve _)).bind fun _ => .pure fun l hl _ => ?_
    refine hl.cast ?_
    split <;> ring
  · exact holds_failed

/-- What is done of a loan that closes before its owner is paid. -/
theorem holds_closeUnsecured (t : Transaction) (loan : TreasuryLoanRecord) :
    Triple (Holds c t.sender total) (closeUnsecured c t loan) fun r l =>
      ∀ closing, r = some closing →
        Holds c t.sender (total + if closing.creditOwner then 0 else t.amount) l := by
  refine (holds_of_keeps (.ofExcept _)).bind fun missed => .ite (fun _ => ?_) fun _ => ?_
  · exact .pure fun _ _ _ h => by cases h
  refine (holds_of_keeps (.ofExcept _)).bind fun paidAfter => .ite (fun _ => ?_) fun _ => ?_
  · refine (holds_returnToSender _).bind fun r => .ite (fun _ => ?_) fun _ => ?_
    · exact .pure fun _ _ _ h => by cases h
    · refine .pure fun l hl closing h => ?_
      obtain rfl := Option.some.inj h
      exact hl.2
  · refine .ite (fun _ => .pure fun _ _ _ h => by cases h) fun _ => .pure fun l hl closing h => ?_
    obtain rfl := Option.some.inj h
    exact hl.cast (by simp)

theorem creditOwner_of_closeSecured {t : Transaction} {loan : TreasuryLoanRecord}
    {closing : Closing} (h : closeSecured c t loan = .ok (some closing)) :
    closing.creditOwner = true := by
  obtain ⟨⟨caughtUp, next⟩, -, h⟩ := except_bind_eq_ok.mp h
  obtain ⟨principal, -, h⟩ := except_bind_eq_ok.mp h
  rcases principal with _ | principal
  · cases h
  simp only at h
  split at h
  · cases h
  · obtain rfl := Option.some.inj (Except.ok.inj h)
    rfl

theorem holds_closing (t : Transaction) (loan : TreasuryLoanRecord) :
    Triple (Holds c t.sender total)
      (match loan.loanType with
        | .unsecured => closeUnsecured c t loan
        | .secured => .ofExcept (closeSecured c t loan))
      fun r l => ∀ closing, r = some closing →
        (loan.loanType = .secured → closing.creditOwner = true) ∧
        Holds c t.sender (total + if closing.creditOwner then 0 else t.amount) l := by
  cases loan.loanType with
  | unsecured =>
    exact (holds_closeUnsecured t loan).weaken fun r l h closing hr =>
      ⟨nofun, h closing hr⟩
  | secured =>
    refine .ofExcept fun r l hr hl closing h => ?_
    have hcredit := creditOwner_of_closeSecured (hr.trans (congrArg Except.ok h))
    exact ⟨fun _ => hcredit, hl.cast (by simp [hcredit])⟩

/-- What the owner of a closed loan gets and what goes back to the sender is the amount. -/
theorem shares_of_closing (t : Transaction) (loan : TreasuryLoanRecord) (closing : Closing)
    (h : loan.loanType = .secured → closing.creditOwner = true) :
    (if closing.creditOwner then 0 else t.amount) +
      (if closing.creditOwner then ownerShare t loan closing else 0) +
      closingRefund t loan closing = t.amount := by
  rw [ownerShare, closingRefund]
  cases hl : loan.loanType with
  | unsecured =>
    cases closing.creditOwner <;> simp
  | secured => simp [h hl]

theorem holds_handleTreasuryClose (t : Transaction) :
    Triple (Holds c t.sender total) (handleTreasuryClose c t)
      (Succeeds (Holds c t.sender (total + t.amount))) := by
  refine .ite (fun _ => holds_failed) fun _ => ?_
  refine (holds_of_keeps (balanced_neutral.read _)).bind fun _ => .ite (fun _ => holds_failed)
    fun _ => ?_
  rcases loanTransactionId c.node t.data with _ | loanId
  · exact holds_failed
  refine (holds_of_keeps (keeps_openLoan _ _)).bind fun o => ?_
  rcases o with _ | o
  · exact holds_failed
  refine .ite (fun _ => holds_failed) fun _ => (holds_closing t o.loan).bind fun r => ?_
  rcases r with _ | closing
  · exact holds_failed
  refine .given (fun l hl => (hl closing rfl).1) fun hcredit => ?_
  refine Triple.bind (Q := fun _ => Holds c t.sender _)
    (fun l hl _ _ hr => (hl closing rfl).2.of_balanced
      ((balanced_neutral.putLoan _ _ _ _ _).of_ok hr)) fun _ => ?_
  refine holds_unless (holds_creditOwnerIf _ _ _) ?_
  have hrefund : ∀ n, Triple (Holds c t.sender n)
      (.when (closingRefund t o.loan closing ≠ 0)
        (discard (returnToSender c t.sender (closingRefund t o.loan closing))))
      fun _ => Holds c t.sender (n + closingRefund t o.loan closing) := by
    intro n
    refine .ite (fun _ => (holds_returnToSender _).bind fun _ => .pure fun _ hl => hl.2) fun h => ?_
    exact .pure fun _ hl => hl.cast (by simp [not_not.mp h])
  refine (hrefund _).bind fun _ => (holds_of_keeps (keeps_innerExprs _)).bind fun _ => ?_
  refine (holds_of_keeps (.when (balanced_neutral.addDefaulted _))).bind fun _ => ?_
  refine (holds_of_keeps (balanced_neutral.releaseGuarantees _)).bind fun _ => ?_
  refine (holds_of_keeps (balanced_neutral.extendPendingExprs _)).bind fun _ => ?_
  refine (holds_of_keeps (balanced_neutral.involve _)).bind fun _ => .pure fun l hl _ => ?_
  refine hl.cast ?_
  rw [add_assoc, add_assoc, ← add_assoc (ite _ _ _), shares_of_closing t o.loan closing hcredit]

theorem holds_handleTreasuryClaim (t : Transaction) :
    Triple (Holds c a total) (handleTreasuryClaim c t)
      (Succeeds (Holds c a (total + t.amount))) := by
  refine .ite (fun _ => holds_failed) fun hguard => ?_
  have hamount : t.amount = 0 := by
    by_contra hcon
    exact hguard (.inr (.inr hcon))
  refine (holds_of_keeps (balanced_neutral.namedLoan _)).bind fun named => ?_
  rcases named with _ | ⟨loanId, borrower, o⟩
  · exact holds_failed
  refine .ite (fun _ => holds_failed) fun _ => (holds_of_keeps (.ofExcept _)).bind fun missed => ?_
  rcases paidPaymentCount o.loan with _ | paid
  · exact holds_failed
  refine .ite (fun _ => holds_failed) fun _ => .ite (fun _ => holds_failed) fun _ => ?_
  refine (holds_of_keeps (keeps_held _)).bind fun _ => .ite (fun _ => holds_failed) fun _ => ?_
  refine (holds_addBalance _ _).bind fun _ => ?_
  refine (holds_of_keeps (balanced_neutral.read _)).bind fun _ => .ite (fun _ => holds_failed)
    fun _ => (holds_addBalance _ _).bind fun _ => ?_
  refine (holds_of_keeps (balanced_neutral.involve _)).bind fun _ => ?_
  split
  · refine (holds_of_keeps (.ofExcept _)).bind fun _ => ?_
    refine (holds_of_keeps (keeps_innerExprs _)).bind fun _ => ?_
    refine (holds_of_keeps (.when (balanced_neutral.addDefaulted _))).bind fun _ => ?_
    refine (holds_of_keeps (balanced_neutral.putUserRecord _ _)).bind fun _ => ?_
    refine (holds_of_keeps (keeps_innerExprs _)).bind fun _ => ?_
    refine (holds_of_keeps (balanced_neutral.extendPendingExprs _)).bind fun _ => ?_
    refine (holds_of_keeps (balanced_neutral.involve _)).bind fun _ => .pure fun l hl _ => ?_
    exact hl.cast (by rw [hamount]; ring)
  · exact holds_failed

theorem holds_debitOwner (owner : Bytes) (price : Int) :
    Triple (Holds c a total) (debitOwner c owner price) (Passes (Holds c a (total - price))) := by
  refine .ite (fun _ => (holds_of_keeps (keeps_held _)).bind fun _ => .ite (fun _ => ?_) fun _ => ?_)
    fun _ => (holds_of_keeps (balanced_neutral.read _)).bind fun account => ?_
  · exact .pure fun _ _ h => by cases h
  · exact (holds_addBalance _ _).bind fun _ => .pure fun _ hl _ => hl
  rcases account with _ | account
  · exact .pure fun _ _ h => by cases h
  refine .ite (fun _ => .pure fun _ _ h => by cases h) fun _ => (holds_addBalance _ _).bind fun _ => ?_
  exact (holds_of_keeps (balanced_neutral.involve _)).bind fun _ => .pure fun _ hl _ => hl

theorem holds_refundBuyer (refund : Int) (h : 0 ≤ refund) :
    Triple (Holds c a total) (refundBuyer c a refund) (Passes (Holds c a (total + refund))) := by
  refine .ite (fun _ => (holds_returnToSender refund).weaken fun _ _ hl _ => hl.2) fun hn => ?_
  exact .pure fun _ hl _ => hl.cast (by omega)

/-- What a purchase creates: the buyer gets back what the amount exceeds the price by, and the owner
is debited the price, but the buyer pays nothing. -/
def buyImbalance (c : Ctx) (t : Transaction) (l : Ledger) : Int :=
  match (buyQuote c t l).1 with
  | .ok (some quote) => t.amount - 2 * quote.price
  | _ => 0

theorem price_le_of_buyQuote {t : Transaction} {quote : BuyQuote} {l l' : Ledger}
    (h : buyQuote c t l = (.ok (some quote), l')) : quote.price ≤ t.amount := by
  obtain ⟨named, l₁, -, h⟩ := bind_eq_ok.mp h
  rcases named with _ | ⟨loanId, borrower, o⟩
  · cases h
  simp only at h
  split at h
  · cases h
  rcases hr : remainingPaymentCount o.loan with _ | remaining
  · simp only [hr] at h
    cases h
  simp only [hr] at h
  split at h
  · cases h
  obtain ⟨rate, l₂, -, h⟩ := bind_eq_ok.mp h
  rcases rate with _ | ⟨numerator, denominator⟩
  · cases h
  rcases hd : calculateDiscountedAmount o.loan.paymentAmount o.loan.paymentIntervalBlocks remaining
    numerator denominator with _ | price
  · simp only [hd] at h
    cases h
  simp only [hd] at h
  split at h
  · cases h
  rename_i hprice
  obtain ⟨hq, -⟩ := Prod.mk.inj h
  obtain rfl := Option.some.inj (Except.ok.inj hq)
  simp only
  omega

theorem holds_handleTreasuryBuy (t : Transaction) (l₀ : Ledger) :
    Triple (fun l => l = l₀ ∧ Holds c t.sender total l) (handleTreasuryBuy c t)
      (Succeeds (Holds c t.sender (total + buyImbalance c t l₀))) := by
  refine .ite (fun _ => holds_failed) fun _ => ?_
  rintro l ⟨rfl, hl⟩ status l' h
  obtain ⟨quote, l₁, h₁, h⟩ := bind_eq_ok.mp h
  have hl₁ : Holds c t.sender total l₁ := hl.of_balanced ((balanced_neutral.buyQuote t).of_ok h₁)
  rcases quote with _ | quote
  · obtain ⟨hs, -⟩ := Prod.mk.inj h
    obtain rfl := Except.ok.inj hs
    exact fun hcon => by cases hcon
  have hprice := price_le_of_buyQuote h₁
  have himbalance : buyImbalance c t l = t.amount - 2 * quote.price := by
    rw [buyImbalance, h₁]
  rw [himbalance]
  refine Triple.weaken ?_ (fun _ _ h => h) l₁ hl₁ status l' h
  refine holds_unless (holds_debitOwner _ _) (holds_unless (holds_refundBuyer _ (by omega)) ?_)
  refine (holds_of_keeps (balanced_neutral.putLoan _ _ _ _ _)).bind fun _ => ?_
  refine (holds_of_keeps (keeps_innerExprs _)).bind fun _ => ?_
  refine (holds_of_keeps (balanced_neutral.extendPendingExprs _)).bind fun _ => ?_
  refine (holds_of_keeps (balanced_neutral.involve _)).bind fun _ => .pure fun l hl _ => ?_
  exact hl.cast (by ring)

theorem holds_handleSecuredBorrow (t : Transaction) (transactionHash : Bytes)
    (request : TreasuryBorrowRequest) :
    Triple (Holds c a total) (handleSecuredBorrow c t transactionHash request)
      (Succeeds (Holds c a total)) := by
  refine (holds_of_keeps (.ofExcept _)).bind fun _ => (holds_of_keeps (.ofExcept _)).bind fun _ => ?_
  refine (holds_of_keeps (.ofExcept _)).bind fun rate => ?_
  rcases rate with _ | rate
  · exact holds_failed
  refine (holds_of_keeps (keeps_held _)).bind fun _ => ?_
  refine (holds_of_keeps (.ofExcept _)).bind fun record => ?_
  rcases record with _ | record
  · exact holds_failed
  refine (holds_of_keeps (.ofExcept _)).bind fun existing => ?_
  rcases existing with _ | existing
  · exact holds_failed
  simp only
  split
  · refine .ite (fun _ => holds_failed) fun _ => .ite (fun _ => holds_failed) fun _ => ?_
    refine (holds_of_keeps (.ofExcept _)).bind fun _ => ?_
    refine (holds_of_keeps (keeps_innerExprs _)).bind fun _ => ?_
    refine (holds_of_keeps (balanced_neutral.putUserRecord _ _)).bind fun _ => ?_
    refine (holds_addBalance _ _).bind fun _ => (holds_addBalance _ _).bind fun _ => ?_
    refine (holds_of_keeps (keeps_innerExprs _)).bind fun _ => ?_
    refine (holds_of_keeps (balanced_neutral.extendPendingExprs _)).bind fun _ => ?_
    exact .pure fun l hl _ => hl.cast (by ring)
  · exact holds_failed

theorem holds_setAccount {l : Ledger} (hl : Holds c a total l) {b : Bytes} (account : Account)
    (hb : l.account c b = none) :
    Holds c a (total + account.worth c.node) (setAccount b account l).2 := by
  obtain ⟨acc, ha⟩ := Option.isSome_iff_exists.mp hl.2
  obtain ⟨acc', ha', -⟩ := grows_setAccount account hb a acc ha
  exact ⟨by rw [supply_setAccount account hb, hl.1], Option.isSome_iff_exists.mpr ⟨acc', ha'⟩⟩

theorem holds_payGuarantor (guarantor : Bytes) (price : Int) :
    Triple (Holds c a total) (payGuarantor c guarantor price) fun _ =>
      Holds c a (total + price) := by
  intro l hl _ l' hr
  obtain ⟨account, l₁, h₁, hr⟩ := bind_eq_ok.mp hr
  have hl₁ : Holds c a total l₁ := hl.of_balanced ((balanced_neutral.read _).of_ok h₁)
  obtain ⟨haccount, hread, -⟩ := getAccount_eq_ok h₁
  rcases account with _ | account
  · obtain ⟨-, rfl⟩ := Prod.mk.inj hr
    have hset := holds_setAccount hl₁ (createAccount price zero32)
      ((hread.account guarantor).trans haccount.symm)
    rwa [worth_createAccount] at hset
  · have hrest : Triple (Holds c a total) (do addBalance guarantor price; involve guarantor)
        fun _ => Holds c a (total + price) :=
      (holds_addBalance _ _).bind fun _ => holds_of_keeps (balanced_neutral.involve _)
    exact hrest l₁ hl₁ _ l' hr

theorem holds_payGuarantors (states : List (Bytes × GuarantorState)) :
    Triple (Holds c a total) (payGuarantors c states) fun _ =>
      Holds c a (total + (states.map fun s => s.2.priceTotal).sum) := by
  induction states generalizing total with
  | nil => exact .pure fun _ hl => hl.cast (by simp)
  | cons s rest ih =>
    refine (holds_payGuarantor _ _).bind fun _ => ?_
    refine (holds_of_keeps (balanced_neutral.putUserRecord _ _)).bind fun _ => ?_
    refine (holds_of_keeps (keeps_innerExprs _)).bind fun _ => ih.bind fun _ => ?_
    exact .pure fun _ hl => hl.cast (by rw [List.map_cons, List.sum_cons, add_assoc])

theorem holds_handleUnsecuredBorrow (t : Transaction) (transactionHash : Bytes)
    (request : TreasuryBorrowRequest) (refs : List (Bytes × Bytes)) :
    Triple (Holds c a total) (handleUnsecuredBorrow c t transactionHash request refs)
      (Succeeds (Holds c a total)) := by
  refine .ite (fun _ => holds_failed) fun _ => ?_
  refine (holds_of_keeps (.ofExcept _)).bind fun _ => (holds_of_keeps (.ofExcept _)).bind fun _ => ?_
  refine (holds_of_keeps (.ofExcept _)).bind fun discounted => ?_
  rcases discounted with _ | discounted
  · exact holds_failed
  refine .ite (fun _ => holds_failed) fun _ => (holds_of_keeps (keeps_held _)).bind fun _ => ?_
  refine (holds_of_keeps (.ofExcept _)).bind fun _ => ?_
  refine (holds_of_keeps (.ofExcept _)).bind fun claimed => ?_
  rcases claimed with _ | claimed
  · exact holds_failed
  refine .ite (fun _ => holds_failed) fun _ => .ite (fun _ => holds_failed) fun _ => ?_
  refine (holds_of_keeps .read).bind fun l => ?_
  split
  · rename_i fee
    refine .ite (fun _ => holds_failed) fun _ => .ite (fun _ => holds_failed) fun _ => ?_
    refine .ite (fun _ => holds_failed) fun _ => (holds_of_keeps (.ofExcept _)).bind fun _ => ?_
    refine (holds_of_keeps (keeps_innerExprs _)).bind fun _ => (holds_payGuarantors _).bind fun _ => ?_
    refine (holds_of_keeps (balanced_neutral.putUserRecord _ _)).bind fun _ => ?_
    refine (holds_of_keeps (keeps_innerExprs _)).bind fun _ => ?_
    refine (holds_addBalance _ _).bind fun _ => (holds_addBalance _ _).bind fun _ => ?_
    refine (holds_of_keeps (balanced_neutral.addLoaned _)).bind fun _ => ?_
    refine (holds_of_keeps (balanced_neutral.extendPendingExprs _)).bind fun _ => ?_
    refine .pure fun l hl _ => hl.cast ?_
    rw [priceTotal, Dict.sum]
    ring
  · exact holds_failed

theorem holds_handleTreasuryBorrow (t : Transaction) (transactionHash : Bytes) :
    Triple (Holds c a total) (handleTreasuryBorrow c t transactionHash)
      (Succeeds (Holds c a total)) := by
  refine .ite (fun _ => holds_failed) fun _ => ?_
  refine (holds_of_keeps (balanced_neutral.read _)).bind fun _ => .ite (fun _ => holds_failed)
    fun _ => ?_
  split
  · refine .ite (fun _ => holds_failed) fun _ => (holds_of_keeps (.ofExcept _)).bind fun loanType => ?_
    cases loanType with
    | secured => exact holds_handleSecuredBorrow _ _ _
    | unsecured =>
      refine (holds_of_keeps (.ofExcept _)).bind fun refs => ?_
      rcases refs with _ | refs
      · exact holds_failed
      · exact holds_handleUnsecuredBorrow _ _ _ _
  · exact holds_failed

end Treasury

section Channels

variable {c : Ctx} {a : Bytes} {total : Int}

/-- What a balance adds to the supply. A record that was not read as an integer adds nothing. -/
def countedBalance : Val → Int
  | .int n => n
  | _ => 0

/-- The cells of a record that was just built are all loaded. -/
theorem recordNodes_expr (node : Node) (hfuel : 4 ≤ node.fuel) (channel : Channel) :
    recordNodes node (some channel.expr) = .ok (some [typed channel.balance "int",
      typed channel.counter "int", typed channel.withdrawalWindow "int"]) := by
  obtain ⟨n, hn⟩ : ∃ n, node.fuel = n + 1 + 1 + 1 + 1 := ⟨node.fuel - 4, by omega⟩
  have hlist : getExprListFrom node node.fuel channel.expr = .ok (some channel.expr) := by
    rw [hn]
    rfl
  have hnodes : resolveListExprs node channel.expr = .ok ([typed channel.balance "int",
      typed channel.counter "int", typed channel.withdrawalWindow "int"], []) := by
    rw [resolveListExprs, hn]
    rfl
  have htag : node.tag channel.expr = "link" := rfl
  simp only [recordNodes]
  rw [hlist]
  simp [except_bind_eq_ok, hnodes, htag]
  rfl

theorem statedBalance_expr (node : Node) (hfuel : 4 ≤ node.fuel) (channel : Channel) :
    statedBalance node channel.expr = match channel.balance with
      | .int n => some n
      | _ => none := by
  rw [statedBalance, recordNodes_expr node hfuel]
  cases hb : channel.balance <;> rfl

/-- The cells of a record are as deep as its resolution reaches. -/
theorem fuel_of_pendChannel {channel : Channel} {l l' : Ledger}
    (h : pendChannel c channel l = (.ok (), l')) : 4 ≤ c.node.fuel := by
  by_contra hcon
  obtain ⟨x, l₁, h₁, -⟩ := bind_eq_ok.mp h
  obtain ⟨hx, -⟩ := Prod.mk.inj h₁
  obtain ⟨inner, hi, -⟩ := except_bind_eq_ok.mp hx
  have hf : c.node.fuel = 0 ∨ c.node.fuel = 1 ∨ c.node.fuel = 2 ∨ c.node.fuel = 3 := by omega
  rcases hf with hf | hf | hf | hf <;> rw [hf] at hi <;> cases hi

/-- A record that was written counts the balance it was given. -/
theorem recordedBalance_written {node : Node} (hkeeps : node.KeepsRecords) (hfuel : 4 ≤ node.fuel)
    (channel : Channel) :
    recordedBalance node (.hashOf channel.expr) = countedBalance channel.balance := by
  rw [recordedBalance, statedBalance_expr node hfuel]
  rcases hg : getExpr node (node.hash channel.expr) with _ | record
  · cases hb : channel.balance <;> simp [countedBalance]
  rcases hs : statedBalance node record with _ | n
  · cases hb : channel.balance <;> simp [hs, countedBalance]
  · have hb := hkeeps channel record n hg hs
    simp [hs, hb, countedBalance]

theorem putChannel_eq_true {owner counterparty : Bytes} {channel : Channel} {l l' : Ledger}
    (h : putChannel c owner counterparty channel l = (.ok true, l')) :
    ∃ account, l.cache.get? owner = some account ∧
      l' = { l with cache := l.cache.insert owner { account with
        channels := account.channels.insert counterparty (.hashOf channel.expr) } } := by
  simp only [putChannel] at h
  split at h
  · cases h
  obtain ⟨account, l₁, h₁, hk⟩ := bind_eq_ok.mp h
  obtain ⟨haccount, rfl⟩ := held_eq_ok.mp h₁
  obtain ⟨tree, l₂, h₂, hk₂⟩ := bind_eq_ok.mp hk
  obtain ⟨htree, rfl⟩ := Prod.mk.inj h₂
  obtain ⟨_, l₃, h₃, hk₃⟩ := bind_eq_ok.mp hk₂
  obtain ⟨-, rfl⟩ := Prod.mk.inj hk₃
  obtain ⟨account', haccount', rfl⟩ := mutate_eq_ok.mp h₃
  obtain rfl := Option.some.inj (haccount.symm.trans haccount')
  exact ⟨account, haccount, by rw [putInRadixTree_eq_ok htree]⟩

/-- What the tree of `owner` records of its channel with `counterparty`. -/
def channelRecord (node : Node) (account : Account) (counterparty : Bytes) : Int :=
  (account.channels.get? counterparty).elim 0 (recordedBalance node)

theorem holds_putChannel {owner counterparty : Bytes} {channel : Channel} {l l' : Ledger}
    {account : Account} (hl : Holds c a total l) (haccount : l.cache.get? owner = some account)
    (h : putChannel c owner counterparty channel l = (.ok true, l')) :
    Holds c a (total + recordedBalance c.node (.hashOf channel.expr) -
      channelRecord c.node account counterparty) l' := by
  obtain ⟨acc, ha⟩ := Option.isSome_iff_exists.mp hl.2
  obtain ⟨acc', ha', -⟩ := (grows_putChannel owner counterparty channel).of_ok h a acc ha
  refine ⟨?_, Option.isSome_iff_exists.mpr ⟨acc', ha'⟩⟩
  obtain ⟨account', haccount', rfl⟩ := putChannel_eq_true h
  obtain rfl := Option.some.inj (haccount.symm.trans haccount')
  rw [supply_insert, Ledger.worthAt, Ledger.account_of_cached haccount, hl.1, channelRecord]
  simp only [Account.worth, Dict.sum_insert, Option.elim_some]
  ring

theorem channelState_eq_ok {owner counterparty : Bytes} {r : Option Channel} {l l' : Ledger}
    (h : channelState c owner counterparty l = (.ok r, l')) :
    l' = l ∧ ∃ account, l.cache.get? owner = some account ∧
      Channel.fromStorage c.node (getFromRadixTree c.node account.channels counterparty) = .ok r := by
  obtain ⟨account, l₁, h₁, hk⟩ := bind_eq_ok.mp h
  obtain ⟨haccount, rfl⟩ := held_eq_ok.mp h₁
  obtain ⟨hread, rfl⟩ := Prod.mk.inj hk
  exact ⟨rfl, account, haccount, hread⟩

theorem channelRecord_of_read {account : Account} {counterparty : Bytes} {channel : Channel}
    {n : Int} (h : Channel.fromStorage c.node
      (getFromRadixTree c.node account.channels counterparty) = .ok (some channel))
    (hn : channel.balance = .int n) : channelRecord c.node account counterparty = n := by
  obtain ⟨v, hv, hr⟩ := recordedBalance_of_read h hn
  rw [channelRecord, hv, Option.elim_some, hr]

/-- What an update of a channel destroys: what the channel records beyond the balance that was read
of it. -/
def lostBalance (c : Ctx) (owner counterparty : Bytes) (l : Ledger) : Int :=
  match (channelState c owner counterparty l).1 with
  | .ok (some channel) => (l.account c owner).elim 0 fun account =>
    channelRecord c.node account counterparty - countedBalance channel.balance
  | _ => 0

/-- The record goes into the tree and its cells to the pending ones, or the handler fails. -/
theorem holds_writeChannel (hkeeps : c.node.KeepsRecords) {owner counterparty : Bytes}
    {channel : Channel} {l l' : Ledger} {account : Account} {α : Type}
    {k : Stateful Ledger α} {r : α} {failed : α}
    (hl : Holds c a total l) (haccount : l.cache.get? owner = some account) (hne : failed ≠ r)
    (h : (do
      if !(← putChannel c owner counterparty channel) then return failed
      pendChannel c channel
      k) l = (.ok r, l')) :
    ∃ l₁, Holds c a (total + countedBalance channel.balance -
      channelRecord c.node account counterparty) l₁ ∧ k l₁ = (.ok r, l') := by
  obtain ⟨put, l₁, h₁, hk⟩ := bind_eq_ok.mp h
  cases put with
  | false =>
    obtain ⟨hr, -⟩ := Prod.mk.inj hk
    exact absurd (Except.ok.inj hr) hne
  | true =>
    obtain ⟨_, l₂, h₂, hk₂⟩ := bind_eq_ok.mp hk
    have hput := holds_putChannel hl haccount h₁
    rw [recordedBalance_written hkeeps (fuel_of_pendChannel h₂)] at hput
    exact ⟨l₂, hput.of_balanced ((balanced_neutral.pendChannel _).of_ok h₂), hk₂⟩

theorem holds_handleChannelUpdate (hkeeps : c.node.KeepsRecords) (owner counterparty : Bytes)
    (window : Val) (amount : Int) (l₀ : Ledger) :
    Triple (fun l => l = l₀ ∧ Holds c a total l)
      (handleChannelUpdate c owner counterparty window amount)
      (Passes (Holds c a (total + amount - lostBalance c owner counterparty l₀))) := by
  rintro l ⟨rfl, hl⟩ r l' h rfl
  rw [handleChannelUpdate] at h
  split at h
  · cases h
  obtain ⟨current, l₁, h₁, h₂⟩ := bind_eq_ok.mp h
  obtain ⟨rfl, account, haccount, hread⟩ := channelState_eq_ok h₁
  rcases current with _ | current
  · cases h₂
  obtain ⟨newWindow, l₃, h₃, h₄⟩ := bind_eq_ok.mp h₂
  obtain ⟨-, rfl⟩ := Prod.mk.inj h₃
  obtain ⟨currentWindow, l₄, h₅, h₆⟩ := bind_eq_ok.mp h₄
  obtain ⟨-, rfl⟩ := Prod.mk.inj h₅
  simp only at h₆
  split at h₆
  · cases h₆
  obtain ⟨balance, l₅, h₇, h₈⟩ := bind_eq_ok.mp h₆
  obtain ⟨hbalance, rfl⟩ := Prod.mk.inj h₇
  obtain ⟨counter, l₆, h₉, h₁₀⟩ := bind_eq_ok.mp h₈
  obtain ⟨-, rfl⟩ := Prod.mk.inj h₉
  obtain ⟨l₇, hl₇, hk⟩ := holds_writeChannel (a := a) hkeeps hl haccount (by simp) h₁₀
  obtain ⟨-, rfl⟩ := Prod.mk.inj hk
  refine hl₇.cast ?_
  have hlost : lostBalance c owner counterparty l₁ =
      channelRecord c.node account counterparty - countedBalance current.balance := by
    rw [lostBalance, h₁, Ledger.account_of_cached haccount]
    rfl
  have hnew : countedBalance balance = countedBalance current.balance + amount := by
    split at hbalance
    · obtain ⟨b, hb, hsum⟩ := except_bind_eq_ok.mp hbalance
      obtain rfl := Except.ok.inj hsum
      rw [toInt_eq_ok hb]
      rfl
    · obtain rfl := Except.ok.inj hbalance
      omega
  rw [hlost, hnew]
  ring

theorem holds_handleChannelWithdraw (hkeeps : c.node.KeepsRecords) (t : Transaction) :
    Triple (Holds c a total) (handleChannelWithdraw c t) (Passes (Holds c a total)) := by
  have hfalse : ∀ {P Q : Ledger → Prop},
      Triple P (pure false : Stateful Ledger Bool) (Passes Q) :=
    .pure fun _ _ h => by cases h
  rw [handleChannelWithdraw]
  split
  · refine .ite (fun _ => hfalse) fun _ => (holds_of_keeps (.ofExcept _)).bind fun amount => ?_
    refine .ite (fun _ => hfalse) fun _ => ?_
    split
    · refine .ite (fun _ => hfalse) fun _ => (holds_of_keeps (.ofExcept _)).bind fun counter => ?_
      refine (holds_of_keeps (balanced_neutral.read _)).bind fun _ => .ite (fun _ => hfalse) fun _ => ?_
      -- from here on the record that was read is the one that is overwritten
      rintro l hl r l' h rfl
      obtain ⟨channel, l₁, h₁, h₂⟩ := bind_eq_ok.mp h
      obtain ⟨rfl, account, haccount, hread⟩ := channelState_eq_ok h₁
      rcases channel with _ | channel
      · cases h₂
      simp only at h₂
      rcases hprevious : c.header.previousBlock with _ | previous
      · simp only [hprevious] at h₂
        cases h₂
      simp only [hprevious] at h₂
      rcases htimestamp : previous.timestamp with _ | timestamp
      · simp only [htimestamp] at h₂
        cases h₂
      simp only [htimestamp] at h₂
      obtain ⟨window, l₂, h₃, h₄⟩ := bind_eq_ok.mp h₂
      obtain ⟨-, rfl⟩ := Prod.mk.inj h₃
      split at h₄
      · cases h₄
      obtain ⟨stored, l₃, h₅, h₆⟩ := bind_eq_ok.mp h₄
      obtain ⟨-, rfl⟩ := Prod.mk.inj h₅
      split at h₆
      · cases h₆
      obtain ⟨balance, l₄, h₇, h₈⟩ := bind_eq_ok.mp h₆
      obtain ⟨hbalance, rfl⟩ := Prod.mk.inj h₇
      split at h₈
      · cases h₈
      obtain ⟨put, l₅, h₉, h₁₀⟩ := bind_eq_ok.mp h₈
      cases put with
      | false => cases h₁₀
      | true =>
        have hput := holds_putChannel hl haccount h₉
        obtain ⟨_, l₆, h₁₁, h₁₂⟩ := bind_eq_ok.mp h₁₀
        have hpaid := holds_addBalance _ _ l₅ hput _ l₆ h₁₁
        obtain ⟨_, l₇, h₁₃, h₁₄⟩ := bind_eq_ok.mp h₁₂
        rw [recordedBalance_written hkeeps (fuel_of_pendChannel h₁₃)] at hpaid
        have hpend := hpaid.of_balanced ((balanced_neutral.pendChannel _).of_ok h₁₃)
        obtain ⟨-, rfl⟩ := Prod.mk.inj h₁₄
        refine (hpend.of_balanced (balanced_neutral.involve _ l₇)).cast ?_
        rw [channelRecord_of_read hread (toInt_eq_ok hbalance)]
        simp only [countedBalance]
        ring
    · exact hfalse
  · exact hfalse

theorem holds_handleChannelClose (hkeeps : c.node.KeepsRecords) (owner counterparty : Bytes) :
    Triple (Holds c a total) (handleChannelClose c owner counterparty)
      (Passes (Holds c a total)) := by
  rintro l hl r l' h rfl
  rw [handleChannelClose] at h
  rcases htimestamp : c.header.previousBlock.bind Parent.timestamp with _ | timestamp
  · simp only [htimestamp] at h
    cases h
  · simp only [htimestamp] at h
    obtain ⟨channel, l₁, h₁, h₂⟩ := bind_eq_ok.mp h
    obtain ⟨rfl, account, haccount, hread⟩ := channelState_eq_ok h₁
    rcases channel with _ | channel
    · cases h₂
    obtain ⟨window, l₂, h₃, h₄⟩ := bind_eq_ok.mp h₂
    obtain ⟨-, rfl⟩ := Prod.mk.inj h₃
    split at h₄
    · cases h₄
    obtain ⟨balance, l₃, h₅, h₆⟩ := bind_eq_ok.mp h₄
    obtain ⟨hbalance, rfl⟩ := Prod.mk.inj h₅
    obtain ⟨_, l₄, h₇, h₈⟩ := bind_eq_ok.mp h₆
    have hl₄ := holds_addBalance owner balance l₁ hl _ l₄ h₇
    obtain ⟨account', haccount', rfl⟩ := mutate_eq_ok.mp h₇
    obtain rfl := Option.some.inj (haccount.symm.trans haccount')
    obtain ⟨counter, l₅, h₉, h₁₀⟩ := bind_eq_ok.mp h₈
    obtain ⟨-, rfl⟩ := Prod.mk.inj h₉
    obtain ⟨l₆, hl₆, hk⟩ := holds_writeChannel (a := a) hkeeps hl₄
      (Dict.get?_insert_self _ _ _) (by simp) h₁₀
    obtain ⟨-, rfl⟩ := Prod.mk.inj hk
    refine hl₆.cast ?_
    have hrecord := channelRecord_of_read hread (toInt_eq_ok hbalance)
    rw [channelRecord] at hrecord ⊢
    simp only [hrecord, countedBalance]
    ring

end Channels

section Storage

variable {c : Ctx} {a : Bytes} {total : Int}

theorem holds_handleStorageInitialContract (t : Transaction) (fees : Int) :
    Triple (Holds c a total) (handleStorageInitialContract c t fees) fun r l =>
      r.isSome → Holds c a total l := by
  refine triple_exceptException ((holds_of_keeps (.ofExcept _)).bind fun cost => ?_)
    (.pure fun _ _ h => by cases h)
  rcases cost with _ | cost
  · exact .pure fun _ _ h => by cases h
  refine (holds_of_keeps (keeps_held _)).bind fun _ => .ite (fun _ => ?_) fun _ => ?_
  · exact .pure fun _ _ h => by cases h
  refine (holds_addBalance _ _).bind fun _ => (holds_addBalance _ _).bind fun _ => ?_
  exact .pure fun _ hl _ => hl.cast (by ring)

theorem holds_payClaims (sender : Bytes) (claims : List Claim) (minted : Int) :
    Triple (Holds c a total) (payClaims c sender claims minted) fun r =>
      Holds c a (total + (r - minted)) := by
  induction claims generalizing minted total with
  | nil => exact .pure fun _ hl => hl.cast (by ring)
  | cons claim claims ih =>
    refine (holds_of_keeps (keeps_held _)).bind fun _ => ?_
    refine (holds_of_keeps (.ofExcept _)).bind fun checked => ?_
    rcases checked with _ | ⟨record, lane, payout⟩
    · exact ih minted
    refine (holds_addBalance _ _).bind fun _ => (holds_of_keeps (keeps_held _)).bind fun _ => ?_
    refine (holds_of_keeps (.ofExcept _)).bind fun _ => ?_
    refine (holds_of_keeps (balanced_neutral.data _ _)).bind fun _ => ?_
    refine (holds_of_keeps (balanced_neutral.extendPendingExprs _)).bind fun _ => ?_
    refine (holds_of_keeps balanced_neutral.countClaim).bind fun _ => ?_
    refine (holds_of_keeps (.ofExcept _)).bind fun _ => ?_
    refine (holds_of_keeps (balanced_neutral.addVotes _)).bind fun _ => ?_
    exact (ih (minted + payout)).weaken fun r l hl => hl.cast (by ring)

theorem holds_handleStoragePaymentContract (t : Transaction) :
    Triple (Holds c a total) (handleStoragePaymentContract c t) fun r l =>
      r ≠ 0 → Holds c a (total + r) l := by
  refine triple_exceptException ((holds_of_keeps (.ofExcept _)).bind fun nodes => ?_)
    (.pure fun _ _ h => absurd rfl h)
  refine .ite (fun _ => .pure fun _ _ h => absurd rfl h) fun _ => ?_
  refine (holds_of_keeps (.ofExcept _)).bind fun claims => ?_
  refine .ite (fun _ => .pure fun _ _ h => absurd rfl h) fun _ => ?_
  exact (holds_payClaims _ _ _).weaken fun r l hl _ => hl.cast (by ring)

end Storage

section Accounts

variable {c : Ctx} {a : Bytes} {total : Int}

theorem holds_handleExpressionAccountCreate (t : Transaction) (transactionHash : Bytes) :
    Triple (Holds c a total) (handleExpressionAccountCreate c t transactionHash)
      (Passes (Holds c a (total + t.amount))) := by
  have hfalse : ∀ {P Q : Ledger → Prop},
      Triple P (pure false : Stateful Ledger Bool) (Passes Q) :=
    .pure fun _ _ h => by cases h
  refine .ite (fun _ => hfalse) fun _ => ?_
  rcases t.data.head? with _ | dataHead
  · exact hfalse
  refine .ite (fun _ => hfalse) fun _ => (holds_of_keeps (.ofExcept _)).bind fun programHash => ?_
  refine .ite (fun _ => hfalse) fun _ => .ite (fun _ => hfalse) fun _ => ?_
  rintro l hl r l' h rfl
  obtain ⟨account, l₁, h₁, h₂⟩ := bind_eq_ok.mp h
  have hl₁ : Holds c a total l₁ := hl.of_balanced ((balanced_neutral.read _).of_ok h₁)
  obtain ⟨haccount, hread, -⟩ := getAccount_eq_ok h₁
  split at h₂
  · cases h₂
  · rename_i hnone
    obtain ⟨-, rfl⟩ := Prod.mk.inj h₂
    have hset := holds_setAccount hl₁ (createAccount t.amount programHash) (b := transactionHash)
      (by rw [hread.account, ← haccount]; simpa using hnone)
    rwa [worth_createAccount] at hset

/-- No operator catches an error that a move of balance can end in. -/
abbrev Uncaught (e : PyError) : Prop := errorValue e = none

/-- What one account is debited another is credited, or the error is not caught. -/
theorem unless_move {α : Type} (payer payee : Bytes) (n : Int) {k : Stateful Ledger α}
    (hk : KeepsUnless Uncaught (Ledger.Balanced c) k) :
    KeepsUnless Uncaught (Ledger.Balanced c) (do addBalance payer (-n); addBalance payee n; k) := by
  have herror : ∀ {b m l e l'}, addBalance b m l = (.error e, l') → Uncaught e := by
    intro b m l e l' h
    simp only [addBalance, mutate] at h
    split at h
    · cases h
    · obtain ⟨he, -⟩ := Prod.mk.inj h
      obtain rfl := Except.error.inj he
      rfl
  intro l
  rcases h₁ : addBalance payer (-n) l with ⟨e | _, l₁⟩
  · rw [bind_of_error h₁]
    exact .inl (herror h₁)
  rw [bind_of_ok h₁]
  rcases h₂ : addBalance payee n l₁ with ⟨e | _, l₂⟩
  · rw [bind_of_error h₂]
    exact .inl (herror h₂)
  rw [bind_of_ok h₂]
  have hmoved : l.Balanced c l₂ := by
    refine ⟨?_, trans_of _ ((grows_addBalance _ _).of_ok h₁) ((grows_addBalance _ _).of_ok h₂)⟩
    rw [supply_addBalance h₂, supply_addBalance h₁]
    ring
  have hrest := hk l₂
  rcases h₃ : k l₂ with ⟨e | _, l₃⟩ <;> rw [h₃] at hrest
  · exact hrest.imp_right (trans_of _ hmoved)
  · exact trans_of _ hmoved hrest

variable {call : Call} {apply : NestedApply}

theorem unless_accPut (key value : Bytes) (e : Expr) :
    KeepsUnless Uncaught (Ledger.Balanced call.ctx) (accPut call key value e) := by
  have hread : ∀ b, KeepsUnless Uncaught (Ledger.Balanced call.ctx) (getAccount call.ctx b) :=
    fun b => (balanced_neutral.read b).unless
  refine (hread _).bind fun _ => (KeepsUnless.when (.raise _)).bind fun _ => ?_
  refine (hread _).bind fun sender => ?_
  rcases sender with _ | sender
  · exact .raise _
  refine (hread _).bind fun _ => (KeepsUnless.ofExcept _).bind fun fee => ?_
  refine (KeepsUnless.when (.raise _)).bind fun _ => unless_move _ _ _ ?_
  refine (keeps_held _).unless.bind fun account => (KeepsUnless.ofExcept _).bind fun tree => ?_
  refine (balanced_neutral.data _ _).unless.bind fun _ => ?_
  refine (balanced_neutral.involve _).unless.bind fun _ => ?_
  exact (balanced_neutral.involve _).unless.bind fun _ => (balanced_neutral.involve _).unless

theorem balanced_takeCounter : Keeps (Ledger.Balanced call.ctx) (takeCounter call) := by
  refine (balanced_neutral.read _).bind fun account => ?_
  rcases account with _ | account
  · exact .raise _
  refine (balanced_mutate call.tx.recipient
    (f := fun account => { account with counter := account.counter + 1 }) (fun _ => rfl)
    fun _ => ?_).bind fun _ => ?_
  · exact Int.le_add_of_nonneg_right (by decide)
  · exact (balanced_neutral.involve _).bind fun _ => .pure _

/-- Nested transactions that keep the supply when they succeed. -/
abbrev KeepsSupply (c : Ctx) (apply : NestedApply) : Prop :=
  apply.Within Uncaught (Ledger.Balanced c)

theorem within_balanced (happly : KeepsSupply call.ctx apply) :
    call.Within apply Uncaught (Ledger.Balanced call.ctx) where
  uncaught _ he := he
  read a := (balanced_neutral.read a).unless
  put := unless_accPut
  counter := balanced_takeCounter.unless
  apply := happly

theorem holds_handleExpressionAccountCall (happly : KeepsSupply call.ctx apply) :
    Triple (Holds call.ctx a total) (handleExpressionAccountCall call apply) fun r l =>
      r.status = .success → Holds call.ctx a (total + call.tx.amount) l := by
  have hnoRun : ∀ {P Q : Ledger → Prop}, Triple P
      (pure (noRun call.tx) : Stateful Ledger CallResult) fun r l => r.status = .success → Q l :=
    .pure fun _ _ h => by cases h
  refine (holds_of_keeps (balanced_neutral.read _)).bind fun account => ?_
  rcases account with _ | account
  · exact hnoRun
  refine .ite (fun _ => hnoRun) fun _ => (holds_of_keeps (.ofExcept _)).bind fun program => ?_
  rcases program with _ | program
  · exact hnoRun
  rintro l hl r l' h hs
  change callProgram call apply program l = _ at h
  rw [callProgram, read_bind] at h
  obtain ⟨_, l₁, h₁, h₂⟩ := bind_eq_ok.mp h
  have hl₁ := holds_addBalance _ _ l hl _ l₁ h₁
  obtain ⟨_, l₂, h₃, h₄⟩ := bind_eq_ok.mp h₂
  have hl₂ := hl₁.of_balanced ((balanced_neutral.involve _).of_ok h₃)
  -- a run that succeeds has ended, so no step of it left the supply changed
  have hrun := within_evaluation (within_balanced happly) call.ctx.node.fuel
    (link call.tx.data program) (newMachine l₂ call.tx.costLimit call.tx)
  simp only [runContract] at h₄
  rcases hr : evaluation call apply call.ctx.node.fuel (link call.tx.data program)
    (newMachine l₂ call.tx.costLimit call.tx) with ⟨e | _, m⟩ <;> rw [hr] at hrun
  · rw [hr] at h₄
    cases e with
    | meterExceeded =>
      obtain ⟨hcon, -⟩ := Prod.mk.inj h₄
      rw [← Except.ok.inj hcon] at hs
      cases hs
    | runtimeError =>
      obtain ⟨hcon, -⟩ := Prod.mk.inj h₄
      rw [← Except.ok.inj hcon] at hs
      cases hs
    | _ => cases h₄
  · rw [hr] at h₄
    obtain ⟨-, rfl⟩ := Prod.mk.inj h₄
    exact hl₂.of_balanced hrun

end Accounts

end Astreum
