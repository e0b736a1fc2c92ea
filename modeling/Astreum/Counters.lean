import Astreum.Execution
import Astreum.Neutral

namespace Astreum

open Eff

variable (c : Ctx)

/-- No account vanishes and no counter goes down. -/
def Ledger.Grows (l l' : Ledger) : Prop :=
  ∀ a account, l.account c a = some account →
    ∃ account', l'.account c a = some account' ∧ account.counter ≤ account'.counter

instance : IsPreorder Ledger (Ledger.Grows c) where
  refl _ _ account h := ⟨account, h, le_rfl⟩
  trans _ _ _ h h' a account ha := by
    obtain ⟨account', ha', hle⟩ := h a account ha
    obtain ⟨account'', ha'', hle'⟩ := h' a account' ha'
    exact ⟨account'', ha'', hle.trans hle'⟩

variable {c}

theorem Ledger.Grows.of_account {l l' : Ledger} (h : ∀ a, l'.account c a = l.account c a) :
    l.Grows c l' :=
  fun a account ha => ⟨account, (h a).trans ha, le_rfl⟩

theorem grows_getAccount (a : Bytes) : Keeps (Ledger.Grows c) (getAccount c a) :=
  fun l => .of_account (account_getAccount c l a)

theorem grows_mutate (a : Bytes) {f : Account → Account}
    (hf : ∀ account, account.counter ≤ (f account).counter) :
    Keeps (Ledger.Grows c) (mutate a f) := by
  intro l b account hb
  rcases h : mutate a f l with ⟨_ | _, l'⟩
  · rw [mutate] at h
    split at h
    · cases h
    · obtain ⟨-, rfl⟩ := Prod.mk.inj h
      exact ⟨account, hb, le_rfl⟩
  · refine ⟨_, by rw [account_of_mutate h b, hb]; rfl, ?_⟩
    split
    · exact hf account
    · exact le_rfl

theorem grows_addBalance (a : Bytes) (n : Int) : Keeps (Ledger.Grows c) (addBalance a n) :=
  grows_mutate a fun _ => le_rfl

theorem grows_setChannels (a : Bytes) (tree : Tree) :
    Keeps (Ledger.Grows c) (setChannels a tree) :=
  grows_mutate a fun _ => le_rfl

/-- Writes outside the accounts. -/
theorem grows_update {f : Ledger → Ledger} (hf : ∀ l, (f l).cache = l.cache) :
    Keeps (Ledger.Grows c) (Eff.update f : Stateful Ledger Unit) :=
  fun l => .of_account fun a => by simp only [update_apply, Ledger.account, hf]

theorem grows_neutral : Neutral c (Ledger.Grows c) where
  read := grows_getAccount
  data a _ := grows_mutate a fun _ => le_rfl
  rest _ hf := grows_update hf

/-- A new account may stand where there was none. -/
theorem grows_setAccount {l : Ledger} {a : Bytes} (account : Account) (h : l.account c a = none) :
    l.Grows c (setAccount a account l).2 := by
  intro b account' hb
  have hab : a ≠ b := by
    rintro rfl
    rw [h] at hb
    cases hb
  refine ⟨account', ?_, le_rfl⟩
  have hins := Ledger.account_insert c l a b account
  rw [if_neg hab, hb] at hins
  exact hins

section Channels

theorem grows_putChannel (owner counterparty : Bytes) (channel : Channel) :
    Keeps (Ledger.Grows c) (putChannel c owner counterparty channel) := by
  refine .ite (.pure _) ?_
  refine (keeps_held owner).bind fun _ => (Keeps.ofExcept _).bind fun _ => ?_
  exact (grows_setChannels owner _).bind fun _ => .pure _

theorem grows_handleChannelUpdate (sender counterparty : Bytes) (window : Val) (amount : Int) :
    Keeps (Ledger.Grows c) (handleChannelUpdate c sender counterparty window amount) := by
  refine .ite (.pure _) ((keeps_channelState _ _).bind fun channel => ?_)
  rcases channel with _ | current
  · exact .pure _
  refine (Keeps.ofExcept _).bind fun _ => (Keeps.ofExcept _).bind fun _ => .ite (.pure _) ?_
  refine (Keeps.ofExcept _).bind fun _ => (Keeps.ofExcept _).bind fun _ => ?_
  refine (grows_putChannel _ _ _).bind fun _ => .ite (.pure _) ?_
  exact (grows_neutral.pendChannel _).bind fun _ => .pure _

theorem grows_handleChannelWithdraw (t : Transaction) :
    Keeps (Ledger.Grows c) (handleChannelWithdraw c t) := by
  rw [handleChannelWithdraw]
  split
  · refine .ite (.pure _) ((Keeps.ofExcept _).bind fun _ => .ite (.pure _) ?_)
    split
    · refine .ite (.pure _) ((Keeps.ofExcept _).bind fun _ => ?_)
      refine (grows_getAccount _).bind fun _ => .ite (.pure _) ?_
      refine (keeps_channelState _ _).bind fun channel => ?_
      rcases channel with _ | channel
      · exact .pure _
      simp only
      split
      · split
        · refine (Keeps.ofExcept _).bind fun _ => .ite (.pure _) ?_
          refine (Keeps.ofExcept _).bind fun _ => .ite (.pure _) ?_
          refine (Keeps.ofExcept _).bind fun _ => .ite (.pure _) ?_
          refine (grows_putChannel _ _ _).bind fun _ => .ite (.pure _) ?_
          refine (grows_addBalance _ _).bind fun _ => (grows_neutral.pendChannel _).bind fun _ => ?_
          exact (grows_neutral.involve _).bind fun _ => .pure _
        · exact .pure _
      · exact .raise _
    · exact .pure _
  · exact .pure _

theorem grows_handleChannelClose (sender counterparty : Bytes) :
    Keeps (Ledger.Grows c) (handleChannelClose c sender counterparty) := by
  rw [handleChannelClose]
  split
  · refine (keeps_channelState _ _).bind fun channel => ?_
    rcases channel with _ | channel
    · exact .pure _
    refine (Keeps.ofExcept _).bind fun _ => .ite (.pure _) ?_
    refine (Keeps.ofExcept _).bind fun _ => (grows_addBalance _ _).bind fun _ => ?_
    refine (Keeps.ofExcept _).bind fun _ => (grows_putChannel _ _ _).bind fun _ => ?_
    exact .ite (.pure _) ((grows_neutral.pendChannel _).bind fun _ => .pure _)
  · exact .pure _

end Channels

section Loans

theorem grows_creditOwner (owner : Bytes) (amount : Int) :
    Keeps (Ledger.Grows c) (creditOwner c owner amount) := by
  refine .ite ((grows_addBalance _ _).bind fun _ => .pure _) ?_
  refine (grows_getAccount _).bind fun _ => .ite (.pure _) ?_
  exact (grows_addBalance _ _).bind fun _ => (grows_neutral.involve _).bind fun _ => .pure _

theorem grows_creditOwnerIf (owed : Bool) (owner : Bytes) (amount : Int) :
    Keeps (Ledger.Grows c) (creditOwnerIf c owed owner amount) :=
  .ite (grows_creditOwner _ _) (.pure _)

theorem grows_returnToSender (sender : Bytes) (amount : Int) :
    Keeps (Ledger.Grows c) (returnToSender c sender amount) := by
  refine (grows_getAccount _).bind fun _ => .ite (.pure _) ?_
  exact (grows_addBalance _ _).bind fun _ => (grows_neutral.involve _).bind fun _ => .pure _

end Loans

section Treasury

theorem grows_repayOrReturn (t : Transaction) (loan : TreasuryLoanRecord) (pointer paid : Int) :
    Keeps (Ledger.Grows c) (repayOrReturn c t loan pointer paid) :=
  .ite ((grows_returnToSender _ _).bind fun _ => .ite (.pure _) (.pure _)) (.ofExcept _)

theorem grows_handleTreasuryRepay (t : Transaction) :
    Keeps (Ledger.Grows c) (handleTreasuryRepay c t) := by
  refine .ite (.pure _) ((grows_getAccount _).bind fun _ => .ite (.pure _) ?_)
  rcases loanTransactionId c.node t.data with _ | loanId
  · exact .pure _
  refine (keeps_openLoan _ _).bind fun o => ?_
  rcases o with _ | o
  · exact .pure _
  refine .ite (.pure _) ?_
  rcases paidPaymentCount o.loan with _ | paidBefore
  · exact .pure _
  refine .ite (.pure _) ((Keeps.ofExcept _).bind fun missed => (Keeps.ofExcept _).bind fun _ => ?_)
  refine (grows_repayOrReturn _ _ _ _).bind fun repaid => ?_
  rcases repaid with _ | repaid
  · exact .pure _
  simp only
  split
  · refine (grows_neutral.putLoan _ _ _ _ _).bind fun _ => (grows_creditOwnerIf _ _ _).bind fun _ => ?_
    refine .ite (.pure _) ((keeps_innerExprs _).bind fun _ => ?_)
    refine (Keeps.when (grows_neutral.addDefaulted _)).bind fun _ => ?_
    refine (grows_neutral.releaseGuaranteesIf _ _).bind fun _ => ?_
    refine (grows_neutral.extendPendingExprs _).bind fun _ => ?_
    exact (grows_neutral.involve _).bind fun _ => .pure _
  · exact .pure _

theorem grows_closeUnsecured (t : Transaction) (loan : TreasuryLoanRecord) :
    Keeps (Ledger.Grows c) (closeUnsecured c t loan) := by
  refine (Keeps.ofExcept _).bind fun _ => .ite (.pure _) ((Keeps.ofExcept _).bind fun _ => ?_)
  refine .ite ((grows_returnToSender _ _).bind fun _ => .ite (.pure _) (.pure _)) ?_
  exact .ite (.pure _) (.pure _)

theorem grows_handleTreasuryClose (t : Transaction) :
    Keeps (Ledger.Grows c) (handleTreasuryClose c t) := by
  refine .ite (.pure _) ((grows_getAccount _).bind fun _ => .ite (.pure _) ?_)
  rcases loanTransactionId c.node t.data with _ | loanId
  · exact .pure _
  refine (keeps_openLoan _ _).bind fun o => ?_
  rcases o with _ | o
  · exact .pure _
  refine .ite (.pure _) (Keeps.bind ?_ fun closing => ?_)
  · split
    · exact grows_closeUnsecured t o.loan
    · exact .ofExcept _
  rcases closing with _ | closing
  · exact .pure _
  refine (grows_neutral.putLoan _ _ _ _ _).bind fun _ => (grows_creditOwnerIf _ _ _).bind fun _ => ?_
  refine .ite (.pure _) ((Keeps.when ((grows_returnToSender _ _).map _)).bind fun _ => ?_)
  refine (keeps_innerExprs _).bind fun _ => (Keeps.when (grows_neutral.addDefaulted _)).bind fun _ => ?_
  refine (grows_neutral.releaseGuarantees _).bind fun _ => ?_
  refine (grows_neutral.extendPendingExprs _).bind fun _ => ?_
  exact (grows_neutral.involve _).bind fun _ => .pure _

theorem grows_debitOwner (owner : Bytes) (price : Int) :
    Keeps (Ledger.Grows c) (debitOwner c owner price) := by
  refine .ite ((keeps_held _).bind fun _ => .ite (.pure _) ?_) ?_
  · exact (grows_addBalance _ _).bind fun _ => .pure _
  refine (grows_getAccount _).bind fun account => ?_
  rcases account with _ | account
  · exact .pure _
  refine .ite (.pure _) ((grows_addBalance _ _).bind fun _ => ?_)
  exact (grows_neutral.involve _).bind fun _ => .pure _

theorem grows_refundBuyer (buyer : Bytes) (refund : Int) :
    Keeps (Ledger.Grows c) (refundBuyer c buyer refund) :=
  .ite (grows_returnToSender _ _) (.pure _)

theorem grows_handleTreasuryBuy (t : Transaction) :
    Keeps (Ledger.Grows c) (handleTreasuryBuy c t) := by
  refine .ite (.pure _) ((grows_neutral.buyQuote _).bind fun quote => ?_)
  rcases quote with _ | quote
  · exact .pure _
  refine (grows_debitOwner _ _).bind fun _ => .ite (.pure _) ?_
  refine (grows_refundBuyer _ _).bind fun _ => .ite (.pure _) ?_
  refine (grows_neutral.putLoan _ _ _ _ _).bind fun _ => (keeps_innerExprs _).bind fun _ => ?_
  exact (grows_neutral.extendPendingExprs _).bind fun _ =>
    (grows_neutral.involve _).bind fun _ => .pure _

theorem grows_handleTreasuryClaim (t : Transaction) :
    Keeps (Ledger.Grows c) (handleTreasuryClaim c t) := by
  refine .ite (.pure _) ((grows_neutral.namedLoan _).bind fun named => ?_)
  rcases named with _ | ⟨loanId, borrower, o⟩
  · exact .pure _
  refine .ite (.pure _) ((Keeps.ofExcept _).bind fun missed => ?_)
  rcases paidPaymentCount o.loan with _ | paid
  · exact .pure _
  refine .ite (.pure _) (.ite (.pure _) ((keeps_held _).bind fun _ => .ite (.pure _) ?_))
  refine (grows_addBalance _ _).bind fun _ => (grows_getAccount _).bind fun _ => .ite (.pure _) ?_
  refine (grows_addBalance _ _).bind fun _ => (grows_neutral.involve _).bind fun _ => ?_
  split
  · refine (Keeps.ofExcept _).bind fun _ => (keeps_innerExprs _).bind fun _ => ?_
    refine (Keeps.when (grows_neutral.addDefaulted _)).bind fun _ => ?_
    refine (grows_neutral.putUserRecord _ _).bind fun _ => ?_
    refine (keeps_innerExprs _).bind fun _ => (grows_neutral.extendPendingExprs _).bind fun _ => ?_
    exact (grows_neutral.involve _).bind fun _ => .pure _
  · exact .pure _

theorem grows_handleSecuredBorrow (t : Transaction) (transactionHash : Bytes)
    (request : TreasuryBorrowRequest) :
    Keeps (Ledger.Grows c) (handleSecuredBorrow c t transactionHash request) := by
  refine (Keeps.ofExcept _).bind fun _ => (Keeps.ofExcept _).bind fun _ => ?_
  refine (Keeps.ofExcept _).bind fun rate => ?_
  rcases rate with _ | rate
  · exact .pure _
  refine (keeps_held _).bind fun _ => (Keeps.ofExcept _).bind fun record => ?_
  rcases record with _ | record
  · exact .pure _
  refine (Keeps.ofExcept _).bind fun existing => ?_
  rcases existing with _ | existing
  · exact .pure _
  simp only
  split
  · refine .ite (.pure _) (.ite (.pure _) ((Keeps.ofExcept _).bind fun _ => ?_))
    refine (keeps_innerExprs _).bind fun _ => (grows_neutral.putUserRecord _ _).bind fun _ => ?_
    refine (grows_addBalance _ _).bind fun _ => (grows_addBalance _ _).bind fun _ => ?_
    exact (keeps_innerExprs _).bind fun _ => (grows_neutral.extendPendingExprs _).bind fun _ => .pure _
  · exact .pure _

theorem grows_payGuarantor (guarantor : Bytes) (price : Int) :
    Keeps (Ledger.Grows c) (payGuarantor c guarantor price) := by
  refine (grows_getAccount _).bind_of fun l account l' h => ?_
  obtain ⟨haccount, hread, -⟩ := getAccount_eq_ok h
  rcases account with _ | account
  · exact grows_setAccount _ ((hread.account _).trans haccount.symm)
  · exact ((grows_addBalance _ _).bind fun _ => grows_neutral.involve _) l'

theorem grows_payGuarantors (states : List (Bytes × GuarantorState)) :
    Keeps (Ledger.Grows c) (payGuarantors c states) := by
  induction states with
  | nil => exact .pure _
  | cons s rest ih =>
    refine (grows_payGuarantor _ _).bind fun _ => (grows_neutral.putUserRecord _ _).bind fun _ => ?_
    exact (keeps_innerExprs _).bind fun _ => ih.bind fun _ => .pure _

theorem grows_handleUnsecuredBorrow (t : Transaction) (transactionHash : Bytes)
    (request : TreasuryBorrowRequest) (refs : List (Bytes × Bytes)) :
    Keeps (Ledger.Grows c) (handleUnsecuredBorrow c t transactionHash request refs) := by
  refine .ite (.pure _) ((Keeps.ofExcept _).bind fun _ => (Keeps.ofExcept _).bind fun _ => ?_)
  refine (Keeps.ofExcept _).bind fun discounted => ?_
  rcases discounted with _ | discounted
  · exact .pure _
  refine .ite (.pure _) ((keeps_held _).bind fun _ => (Keeps.ofExcept _).bind fun _ => ?_)
  refine (Keeps.ofExcept _).bind fun claimed => ?_
  rcases claimed with _ | claimed
  · exact .pure _
  refine .ite (.pure _) (.ite (.pure _) (Keeps.read.bind fun l => ?_))
  split
  · refine .ite (.pure _) (.ite (.pure _) (.ite (.pure _) ((Keeps.ofExcept _).bind fun _ => ?_)))
    refine (keeps_innerExprs _).bind fun _ => (grows_payGuarantors _).bind fun _ => ?_
    refine (grows_neutral.putUserRecord _ _).bind fun _ => (keeps_innerExprs _).bind fun _ => ?_
    refine (grows_addBalance _ _).bind fun _ => (grows_addBalance _ _).bind fun _ => ?_
    refine (grows_neutral.addLoaned _).bind fun _ => ?_
    exact (grows_neutral.extendPendingExprs _).bind fun _ => .pure _
  · exact .pure _

theorem grows_handleTreasuryBorrow (t : Transaction) (transactionHash : Bytes) :
    Keeps (Ledger.Grows c) (handleTreasuryBorrow c t transactionHash) := by
  refine .ite (.pure _) ((grows_getAccount _).bind fun _ => .ite (.pure _) ?_)
  split
  · refine .ite (.pure _) ((Keeps.ofExcept _).bind fun loanType => ?_)
    cases loanType with
    | secured => exact grows_handleSecuredBorrow _ _ _
    | unsecured =>
      refine (Keeps.ofExcept _).bind fun refs => ?_
      rcases refs with _ | refs
      · exact .pure _
      · exact grows_handleUnsecuredBorrow _ _ _ _
  · exact .pure _

end Treasury

section Storage

theorem grows_handleStorageInitialContract (t : Transaction) (fees : Int) :
    Keeps (Ledger.Grows c) (handleStorageInitialContract c t fees) := by
  refine keeps_exceptException ((Keeps.ofExcept _).bind fun cost => ?_) (.pure _)
  rcases cost with _ | cost
  · exact .pure _
  refine (keeps_held _).bind fun _ => .ite (.pure _) ((grows_addBalance _ _).bind fun _ => ?_)
  exact (grows_addBalance _ _).bind fun _ => .pure _

theorem grows_payClaims (sender : Bytes) (claims : List Claim) (minted : Int) :
    Keeps (Ledger.Grows c) (payClaims c sender claims minted) := by
  induction claims generalizing minted with
  | nil => exact .pure _
  | cons claim claims ih =>
    refine (keeps_held _).bind fun _ => (Keeps.ofExcept _).bind fun checked => ?_
    rcases checked with _ | ⟨record, lane, payout⟩
    · exact ih minted
    refine (grows_addBalance _ _).bind fun _ => (keeps_held _).bind fun _ => ?_
    refine (Keeps.ofExcept _).bind fun _ => (grows_neutral.data _ _).bind fun _ => ?_
    refine (grows_neutral.extendPendingExprs _).bind fun _ => grows_neutral.countClaim.bind fun _ => ?_
    refine (Keeps.ofExcept _).bind fun _ => (grows_neutral.addVotes _).bind fun _ => ?_
    exact ih (minted + payout)

theorem grows_handleStoragePaymentContract (t : Transaction) :
    Keeps (Ledger.Grows c) (handleStoragePaymentContract c t) := by
  refine keeps_exceptException ((Keeps.ofExcept _).bind fun nodes => ?_) (.pure _)
  refine .ite (.pure _) ((Keeps.ofExcept _).bind fun claims => .ite (.pure _) ?_)
  exact grows_payClaims _ _ _

end Storage

section Contracts

theorem grows_accPut (call : Call) (key value : Bytes) (e : Expr) :
    Keeps (Ledger.Grows call.ctx) (accPut call key value e) := by
  refine (grows_getAccount _).bind fun _ => (Keeps.when (.raise _)).bind fun _ => ?_
  refine (grows_getAccount _).bind fun sender => ?_
  rcases sender with _ | sender
  · exact .raise _
  refine (grows_getAccount _).bind fun _ => (Keeps.ofExcept _).bind fun _ => ?_
  refine (Keeps.when (.raise _)).bind fun _ => (grows_addBalance _ _).bind fun _ => ?_
  refine (grows_addBalance _ _).bind fun _ => (keeps_held _).bind fun _ => ?_
  refine (Keeps.ofExcept _).bind fun _ => (grows_neutral.data _ _).bind fun _ => ?_
  refine (grows_neutral.involve _).bind fun _ => ?_
  exact (grows_neutral.involve _).bind fun _ => grows_neutral.involve _

theorem grows_takeCounter (call : Call) : Keeps (Ledger.Grows call.ctx) (takeCounter call) := by
  refine (grows_getAccount _).bind fun account => ?_
  rcases account with _ | account
  · exact .raise _
  refine (grows_mutate _ fun account => ?_).bind fun _ => (grows_neutral.involve _).bind fun _ => .pure _
  exact Int.le_add_of_nonneg_right (by decide)

theorem grows_handleExpressionAccountCreate (t : Transaction) (transactionHash : Bytes) :
    Keeps (Ledger.Grows c) (handleExpressionAccountCreate c t transactionHash) := by
  refine .ite (.pure _) ?_
  rcases t.data.head? with _ | dataHead
  · exact .pure _
  refine .ite (.pure _) ((Keeps.ofExcept _).bind fun _ => .ite (.pure _) (.ite (.pure _) ?_))
  refine (grows_getAccount _).bind_of fun l account l' h => ?_
  obtain ⟨haccount, hread, -⟩ := getAccount_eq_ok h
  split
  · exact refl_of (Ledger.Grows c) l'
  · rename_i hnone
    have hnone' : l'.account c transactionHash = none := by
      rw [hread.account, ← haccount]
      simpa using hnone
    exact grows_setAccount _ hnone'

variable {call : Call} {apply : NestedApply}

theorem within_grows (happly : ∀ t hash, Keeps (Ledger.Grows call.ctx) (apply t hash)) :
    call.Within apply (fun _ => False) (Ledger.Grows call.ctx) where
  uncaught _ he := he.elim
  read a := (grows_getAccount a).unless
  put key value e := (grows_accPut call key value e).unless
  counter := (grows_takeCounter call).unless
  apply t hash l := by
    have h := happly t hash l
    rcases hr : apply t hash l with ⟨_ | _, l'⟩ <;> rw [hr] at h
    · exact .inr (.inr h)
    · exact fun _ => h

theorem grows_callProgram
    (happly : ∀ t hash, Keeps (Ledger.Grows call.ctx) (apply t hash)) (program : Expr) :
    Keeps (Ledger.Grows call.ctx) (callProgram call apply program) := by
  -- the snapshot is the ledger before the contract is credited
  refine .of_spec fun l₀ => .read_bind fun l hl => ?_
  have hgrown : ∀ l', l.Grows call.ctx l' → l₀.Grows call.ctx l' := fun _ h => trans_of _ hl h
  refine (((grows_addBalance _ _).spec l).weaken ?_ (fun _ _ h => h) fun _ => hgrown).bind fun _ => ?_
  · rintro _ rfl
    exact refl_of (Ledger.Grows _) _
  refine (((grows_neutral.involve _).spec l).weaken (fun _ h => h) (fun _ _ h => h)
    fun _ => hgrown).bind fun _ => ?_
  exact (within_runContract (within_grows happly) program l).weaken (fun _ h => h)
    (fun _ => hgrown) fun _ l' h => hgrown l' (h.resolve_left id)

theorem grows_handleExpressionAccountCall
    (happly : ∀ t hash, Keeps (Ledger.Grows call.ctx) (apply t hash)) :
    Keeps (Ledger.Grows call.ctx) (handleExpressionAccountCall call apply) := by
  refine (grows_getAccount _).bind fun account => ?_
  rcases account with _ | account
  · exact .pure _
  refine .ite (.pure _) ((Keeps.ofExcept _).bind fun program => ?_)
  rcases program with _ | program
  · exact .pure _
  · exact grows_callProgram happly program

end Contracts

section Handlers

variable {t : Transaction} {g : Guarded}

theorem grows_getOrCreateRecipient : Keeps (Ledger.Grows c) (getOrCreateRecipient c t) := by
  refine .ite (.pure _) (.ite (Keeps.read.bind fun _ => .pure _) ?_)
  refine (grows_getAccount _).bind fun account => ?_
  rcases account with _ | account <;> exact .pure _

theorem grows_creditRecipient (r : Recipient) (amount : Int) :
    Keeps (Ledger.Grows c) (creditRecipient t r amount) := by
  cases r with
  | none => exact .raise _
  | held => exact (grows_addBalance _ _).bind fun _ => .pure _
  | fresh account => exact .pure _

theorem grows_applyTransfer : Keeps (Ledger.Grows c) (applyTransfer c t g) :=
  grows_getOrCreateRecipient.bind fun _ => (grows_creditRecipient _ _).bind fun _ => .pure _

theorem grows_applyChannelUpdate : Keeps (Ledger.Grows c) (applyChannelUpdate c t g) := by
  refine .ite (.pure _) (.ite (.pure _) ((Keeps.ofExcept _).bind fun _ => ?_))
  exact (grows_handleChannelUpdate _ _ _ _).bind fun _ => .ite (.pure _) (.pure _)

theorem grows_applyChannelWithdraw : Keeps (Ledger.Grows c) (applyChannelWithdraw c t g) := by
  refine (grows_getAccount _).bind fun _ => .ite (.pure _) (.ite (.pure _) ?_)
  exact (grows_handleChannelWithdraw _).bind fun _ => .ite (.pure _) (.pure _)

theorem grows_applyChannelClose : Keeps (Ledger.Grows c) (applyChannelClose c t g) := by
  refine .ite (.pure _) (.ite (.pure _) ?_)
  split
  · exact (grows_handleChannelClose _ _).bind fun _ => .ite (.pure _) (.pure _)
  · exact .pure _

theorem grows_applyTreasuryDeposit : Keeps (Ledger.Grows c) (applyTreasuryDeposit c t g) := by
  refine grows_getOrCreateRecipient.bind fun _ => .ite (.pure _) (.ite (.pure _) ?_)
  refine (grows_neutral.depositRecord _ _ _).bind fun _ => .ite ?_ (.pure _)
  exact (grows_creditRecipient _ _).bind fun _ => .pure _

theorem grows_applyTreasury (amount : Int) {handler : Stateful Ledger Status}
    (hh : Keeps (Ledger.Grows c) handler) :
    Keeps (Ledger.Grows c) (applyTreasury c t g amount handler) := by
  refine (grows_getAccount _).bind fun _ => .ite (.pure _) (hh.bind fun status => ?_)
  cases status <;> exact .pure _

theorem grows_creditPositive (r : Recipient) (amount : Int) :
    Keeps (Ledger.Grows c) (creditPositive t r amount) :=
  .ite (grows_creditRecipient _ _) (.pure _)

theorem grows_applyStorageCreate (nested : Bool) :
    Keeps (Ledger.Grows c) (applyStorageCreate c t g nested) := by
  refine grows_getOrCreateRecipient.bind fun _ => .ite (.pure _) (.ite (.pure _) ?_)
  refine (Keeps.ofExcept _).bind fun _ => .ite (.pure _) ?_
  refine (grows_handleStorageInitialContract _ _).bind fun cost => ?_
  rcases cost with _ | cost <;> exact .pure _

theorem grows_applyStoragePayment : Keeps (Ledger.Grows c) (applyStoragePayment c t g) := by
  refine grows_getOrCreateRecipient.bind fun _ => .ite (.pure _) (Keeps.bind ?_ fun _ => ?_)
  · exact .ite (grows_handleStoragePaymentContract _) (.pure _)
  · exact (grows_creditPositive _ _).bind fun _ => .pure _

theorem grows_applyStorageRemove : Keeps (Ledger.Grows c) (applyStorageRemove c t g) :=
  grows_getOrCreateRecipient.bind fun _ => .pure _

theorem grows_applyCodeAccountCreate (transactionHash : Bytes) :
    Keeps (Ledger.Grows c) (applyCodeAccountCreate c t g transactionHash) := by
  refine .ite (.pure _) ((grows_handleExpressionAccountCreate _ _).bind fun _ => ?_)
  exact .ite (.pure _) (.pure _)

variable {apply : NestedApply} (happly : ∀ t hash, Keeps (Ledger.Grows c) (apply t hash))

include happly

theorem grows_applyCodeAccountCall (keys : List Bytes) :
    Keeps (Ledger.Grows c) (applyCodeAccountCall c t g keys apply) := by
  have hcall := @grows_handleExpressionAccountCall ⟨c, t, keys⟩ apply happly
  refine .ite (.pure _) (hcall.bind fun _ => .ite (.pure _) ?_)
  refine (grows_getAccount _).bind fun _ => (grows_getAccount _).bind fun _ => ?_
  exact (grows_getAccount _).bind fun _ => .pure _

theorem grows_runHandler (nested : Bool) (keys : List Bytes) (transactionHash : Bytes) :
    Keeps (Ledger.Grows c) (runHandler c t nested keys apply transactionHash g) := by
  rw [runHandler]
  cases t.code with
  | transfer => exact grows_applyTransfer
  | channelUpdate => exact grows_applyChannelUpdate
  | channelWithdraw => exact grows_applyChannelWithdraw
  | channelClose => exact grows_applyChannelClose
  | treasuryDeposit => exact grows_applyTreasuryDeposit
  | treasuryBorrow => exact grows_applyTreasury _ (grows_handleTreasuryBorrow _ _)
  | treasuryRepay => exact grows_applyTreasury _ (grows_handleTreasuryRepay _)
  | treasuryClose => exact grows_applyTreasury _ (grows_handleTreasuryClose _)
  | treasuryGuarantee => exact grows_applyTreasury _ (grows_neutral.handleTreasuryGuarantee _ _)
  | treasuryBuy => exact grows_applyTreasury _ (grows_handleTreasuryBuy _)
  | treasuryClaim => exact grows_applyTreasury _ (grows_handleTreasuryClaim _)
  | storageCreate => exact grows_applyStorageCreate _
  | storagePayment => exact grows_applyStoragePayment
  | storageRemove => exact grows_applyStorageRemove
  | codeAccountCreate => exact grows_applyCodeAccountCreate _
  | codeAccountCall => exact grows_applyCodeAccountCall happly _

end Handlers

end Astreum
