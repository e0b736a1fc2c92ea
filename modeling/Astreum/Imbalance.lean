import Astreum.Conservation

namespace Astreum

open Eff

/-- What a new recipient holds before its address does. -/
def Recipient.worth (node : Node) : Recipient → Int
  | .fresh account => account.worth node
  | _ => 0

theorem worth_heldIf (node : Node) (account : Option Account) : (heldIf account).worth node = 0 := by
  rw [heldIf]
  split <;> rfl

/-- What a transaction that succeeds creates besides the fees, the mint and what it moves: a
purchase credits the buyer and debits the owner, a negative amount to the storage account is a
credit of the sender, and an update of a channel can lose the balance that it does not read. -/
def createdBeside (c : Ctx) (t : Transaction) (l : Ledger) : Int :=
  match t.code with
  | .treasuryBuy => buyImbalance c t l
  | .storageCreate => if t.recipient = storageAddress then max 0 (-t.amount) else 0
  | .storagePayment => if t.recipient = storageAddress then max 0 (-t.amount) else 0
  | .channelUpdate => match channelUpdateData c t with
    | .ok (counterparty, _) => -lostBalance c t.sender counterparty l
    | .error _ => 0
  | _ => 0

section Handlers

variable {c : Ctx} {t : Transaction} {g : Guarded} {total : Int}

/-- What holds once a handler succeeds that has created `extra`. -/
abbrev Handles (c : Ctx) (t : Transaction) (total extra : Int) (h : Handled) (l : Ledger) : Prop :=
  h.status = .success → Holds c t.sender
    (total + h.transferAmount + h.minted + extra - h.recipient.worth c.node) l

theorem handles_failed {P : Ledger → Prop} {extra amount : Int} {r : Recipient} :
    Triple P (pure (handled t .failed amount r) : Stateful Ledger Handled)
      (Handles c t total extra) :=
  .pure fun _ _ h => by cases h

theorem handles_of_guard {P : Ledger → Prop} {extra amount : Int} {r : Recipient}
    (hg : g.status ≠ .success) :
    Triple P (pure (handled t g.status amount r) : Stateful Ledger Handled)
      (Handles c t total extra) :=
  .pure fun _ _ h => absurd h hg

theorem holds_getOrCreateRecipient :
    Triple (Holds c t.sender total) (getOrCreateRecipient c t) fun r =>
      Holds c t.sender (total - r.worth c.node) := by
  refine .ite (fun _ => .pure fun l hl => hl.cast (by simp [Recipient.worth])) fun _ => ?_
  refine .ite (fun _ => (holds_of_keeps .read).bind fun _ => ?_) fun _ => ?_
  · exact .pure fun l hl => hl.cast (by rw [worth_heldIf, Int.sub_zero])
  refine (holds_of_keeps (balanced_neutral.read _)).bind fun account => ?_
  rcases account with _ | account
  · exact .pure fun l hl => hl.cast (by simp [Recipient.worth, worth_createAccount])
  · exact .pure fun l hl => hl.cast (by simp [Recipient.worth])

theorem holds_creditRecipient (r : Recipient) (amount : Int) :
    Triple (Holds c t.sender (total - r.worth c.node)) (creditRecipient t r amount) fun r' =>
      Holds c t.sender (total + amount - r'.worth c.node) := by
  cases r with
  | none => exact .raise _
  | held =>
    refine (holds_addBalance _ _).bind fun _ => .pure fun l hl => hl.cast ?_
    simp only [Recipient.worth]
    ring
  | fresh account =>
    refine .pure fun l hl => hl.cast ?_
    simp only [Recipient.worth, worth_addBalance]
    ring

theorem handles_applyTransfer :
    Triple (Holds c t.sender total) (applyTransfer c t g) (Handles c t total 0) := by
  refine holds_getOrCreateRecipient.bind fun r => (holds_creditRecipient r _).bind fun r' => ?_
  exact .pure fun l hl _ => hl.cast (by simp only [handled]; ring)

theorem handles_applyChannelUpdate (hkeeps : c.node.KeepsRecords) (l₀ : Ledger)
    (hcode : t.code = .channelUpdate) (hg : g.status = .success → g.transferAmount = t.amount) :
    Triple (fun l => l = l₀ ∧ Holds c t.sender total l) (applyChannelUpdate c t g)
      (Handles c t total (createdBeside c t l₀)) := by
  refine .ite (fun _ => handles_failed) fun _ => .ite handles_of_guard fun hs => ?_
  rintro l ⟨rfl, hl⟩ h l' hr
  obtain ⟨⟨counterparty, window⟩, l₁, h₁, h₂⟩ := bind_eq_ok.mp hr
  obtain ⟨hdata, rfl⟩ := Prod.mk.inj h₁
  obtain ⟨updated, l₂, h₃, h₄⟩ := bind_eq_ok.mp h₂
  have hupdate := holds_handleChannelUpdate hkeeps t.sender counterparty window t.amount l _
    ⟨rfl, hl⟩ _ _ h₃
  cases updated with
  | false =>
    obtain ⟨hh, -⟩ := Prod.mk.inj h₄
    rw [← Except.ok.inj hh]
    exact fun hcon => by cases hcon
  | true =>
    obtain ⟨hh, rfl⟩ := Prod.mk.inj h₄
    rw [← Except.ok.inj hh]
    refine fun _ => (hupdate rfl).cast ?_
    simp only [createdBeside, hcode, hdata, handled, Recipient.worth, hg (not_not.mp hs)]
    ring

theorem handles_applyChannelWithdraw (hkeeps : c.node.KeepsRecords) :
    Triple (Holds c t.sender total) (applyChannelWithdraw c t g) (Handles c t total 0) := by
  refine (holds_of_keeps (balanced_neutral.read _)).bind fun r => .ite handles_of_guard fun _ => ?_
  refine .ite (fun _ => handles_failed) fun _ => ?_
  refine (holds_handleChannelWithdraw hkeeps t).bind fun withdrawn => .ite (fun h => ?_) fun _ => ?_
  · exact .pure fun l hl _ => (hl h).cast (by simp [handled, Recipient.worth])
  · exact handles_failed

theorem handles_applyChannelClose (hkeeps : c.node.KeepsRecords) :
    Triple (Holds c t.sender total) (applyChannelClose c t g) (Handles c t total 0) := by
  refine .ite (fun _ => handles_failed) fun _ => .ite handles_of_guard fun _ => ?_
  split
  · refine (holds_handleChannelClose hkeeps _ _).bind fun closed => .ite (fun h => ?_) fun _ => ?_
    · exact .pure fun l hl _ => (hl h).cast (by simp [handled, Recipient.worth])
    · exact handles_failed
  · exact handles_failed

theorem handles_applyTreasuryDeposit :
    Triple (Holds c t.sender total) (applyTreasuryDeposit c t g) (Handles c t total 0) := by
  refine holds_getOrCreateRecipient.bind fun r => .ite (fun _ => ?_) fun _ => ?_
  · exact .pure fun l hl _ => hl.cast (by simp [handled])
  refine .ite handles_of_guard fun _ => ?_
  refine (holds_of_keeps (balanced_neutral.depositRecord _ _ _)).bind fun deposited => ?_
  refine .ite (fun _ => (holds_creditRecipient r _).bind fun r' => ?_) fun _ => handles_failed
  exact .pure fun l hl _ => hl.cast (by simp only [handled]; ring)

/-- The codes whose handler gives the account of the treasury what it leaves to transfer. -/
theorem handles_applyTreasury {P : Ledger → Prop} {amount extra : Int}
    {handler : Stateful Ledger Status}
    (hread : Triple P (getAccount c treasuryAddress) fun _ => P)
    (hhandler : g.status = .success →
      Triple P handler (Succeeds (Holds c t.sender (total + amount + extra)))) :
    Triple P (applyTreasury c t g amount handler) (Handles c t total extra) := by
  refine hread.bind fun r => .ite handles_of_guard fun hs => ?_
  refine (hhandler (not_not.mp hs)).bind fun status => ?_
  cases status with
  | success =>
    refine .pure fun l hl _ => (hl rfl).cast ?_
    simp only [handled, worth_heldIf]
    ring
  | failed => exact handles_failed

theorem holds_read (b : Bytes) :
    Triple (Holds c t.sender total) (getAccount c b) fun _ => Holds c t.sender total :=
  holds_of_keeps (balanced_neutral.read b)

theorem handles_applyStorageCreate (nested : Bool) (l₀ : Ledger) (hcode : t.code = .storageCreate)
    (hg : g.status = .success → g.transferAmount = t.amount) :
    Triple (Holds c t.sender total) (applyStorageCreate c t g nested)
      (Handles c t total (createdBeside c t l₀)) := by
  refine holds_getOrCreateRecipient.bind fun r => .ite (fun hr => ?_) fun hr => ?_
  · exact .pure fun l hl _ => hl.cast (by simp [handled, createdBeside, hcode, hr])
  refine .ite (fun _ => handles_failed) fun hs => (holds_of_keeps (.ofExcept _)).bind fun named => ?_
  refine .ite (fun _ => handles_failed) fun _ => ?_
  refine (holds_handleStorageInitialContract t _).bind fun cost => ?_
  rcases cost with _ | cost
  · exact handles_failed
  · refine .pure fun l hl _ => (hl rfl).cast ?_
    simp only [not_or, not_not, not_lt] at hs
    have hamount := hg hs.1
    simp only [handled, createdBeside, hcode, not_not.mp hr, if_true]
    rw [max_eq_right (by omega)]
    omega

theorem handles_applyStoragePayment (l₀ : Ledger) (hcode : t.code = .storagePayment)
    (hg : g.status = .success → g.transferAmount = t.amount) :
    Triple (Holds c t.sender total) (applyStoragePayment c t g)
      (Handles c t total (createdBeside c t l₀)) := by
  refine holds_getOrCreateRecipient.bind fun r => .ite (fun hr => ?_) fun hr => ?_
  · exact .pure fun l hl _ => hl.cast (by simp [handled, createdBeside, hcode, hr])
  by_cases hs : g.status = .success
  · have hminted : Triple (Holds c t.sender (total - r.worth c.node)) (paymentMinted c t g)
        fun minted l => minted ≠ 0 → Holds c t.sender (total + minted - r.worth c.node) l := by
      rw [paymentMinted, if_pos hs]
      exact (holds_handleStoragePaymentContract t).weaken fun n l hl hn =>
        (hl hn).cast (by ring)
    refine hminted.bind fun minted => ?_
    by_cases hzero : minted = 0
    · intro l _ h l' hr' hcon
      obtain ⟨r', l₁, -, h₂⟩ := bind_eq_ok.mp hr'
      obtain ⟨hh, -⟩ := Prod.mk.inj h₂
      rw [← Except.ok.inj hh] at hcon
      simp [handled, hzero] at hcon
    · refine Triple.bind (Q := fun r' => Holds c t.sender
        (total + minted + max 0 t.amount - r'.worth c.node)) ?_ fun r' => ?_
      · refine .ite (fun hpos => ?_) fun hneg => ?_
        · intro l hl r' l' hr'
          refine (holds_creditRecipient r _ l (hl hzero) r' l' hr').cast ?_
          rw [hg hs] at hpos ⊢
          rw [max_eq_right hpos.le]
        · refine .pure fun l hl => (hl hzero).cast ?_
          rw [hg hs] at hneg
          rw [max_eq_left (not_lt.mp hneg)]
          ring
      · refine .pure fun l hl _ => hl.cast ?_
        simp only [handled, createdBeside, hcode, not_not.mp hr, if_true, hg hs]
        omega
  · intro l _ h l' hr' hcon
    obtain ⟨minted, l₁, -, h₂⟩ := bind_eq_ok.mp hr'
    obtain ⟨r', l₂, -, h₃⟩ := bind_eq_ok.mp h₂
    obtain ⟨hh, -⟩ := Prod.mk.inj h₃
    rw [← Except.ok.inj hh] at hcon
    simp only [handled] at hcon
    split at hcon
    · cases hcon
    · exact absurd hcon hs

theorem handles_applyStorageRemove :
    Triple (Holds c t.sender total) (applyStorageRemove c t g) (Handles c t total 0) :=
  holds_getOrCreateRecipient.bind fun r =>
    .pure fun l hl _ => hl.cast (by simp [handled])

theorem handles_applyCodeAccountCreate (transactionHash : Bytes)
    (hg : g.status = .success → g.transferAmount = t.amount) :
    Triple (Holds c t.sender total) (applyCodeAccountCreate c t g transactionHash)
      (Handles c t total 0) := by
  refine .ite handles_of_guard fun hs => ?_
  refine (holds_handleExpressionAccountCreate t _).bind fun created => .ite (fun h => ?_) fun _ => ?_
  · refine .pure fun l hl _ => (hl h).cast ?_
    simp [handled, Recipient.worth, hg (not_not.mp hs)]
  · exact handles_failed

theorem handles_applyCodeAccountCall {apply : NestedApply} (happly : KeepsSupply c apply)
    (keys : List Bytes) (hg : g.status = .success → g.transferAmount = t.amount) :
    Triple (Holds c t.sender total) (applyCodeAccountCall c t g keys apply)
      (Handles c t total 0) := by
  refine .ite handles_of_guard fun hs => ?_
  have hcall := @holds_handleExpressionAccountCall t.sender total ⟨c, t, keys⟩ apply happly
  refine hcall.bind fun result => .ite (fun h => ?_) fun h => ?_
  · exact .pure fun l _ hcon => absurd hcon h
  refine Triple.bind (Q := fun _ => Holds c t.sender (total + t.amount)) ?_ fun _ => ?_
  · exact fun l hl _ l' hr => holds_read t.sender l (hl (not_not.mp h)) _ l' hr
  refine (holds_read _).bind fun _ => (holds_read _).bind fun r => .pure fun l hl _ => hl.cast ?_
  simp [worth_heldIf, hg (not_not.mp hs)]

/-- A second read of an account changes nothing. -/
theorem getAccount_getAccount (b : Bytes) (l : Ledger) :
    getAccount c b (getAccount c b l).2 = getAccount c b l := by
  rcases hc : l.cache.get? b with _ | account
  · rcases ht : c.header.accountsTrie.get? b with _ | account <;> simp [getAccount, hc, ht]
  · simp [getAccount, hc]

theorem buyImbalance_read (l : Ledger) :
    buyImbalance c t (getAccount c treasuryAddress l).2 = buyImbalance c t l := by
  suffices h : (buyQuote c t (getAccount c treasuryAddress l).2).1 = (buyQuote c t l).1 by
    rw [buyImbalance, h, buyImbalance]
  rcases hid : loanTransactionId c.node t.data with _ | loanId
  · simp [buyQuote, namedLoan, hid]
  rcases htx : getTransactionFromStorage c.node loanId with e | tx
  · simp [buyQuote, namedLoan, hid, htx, bind_apply]
  · have hsame : namedLoan c t (getAccount c treasuryAddress l).2 = namedLoan c t l := by
      simp [namedLoan, hid, htx, bind_apply, getAccount_getAccount]
    rw [buyQuote, bind_apply, bind_apply, hsame]

/-- What a handler creates that succeeds. -/
theorem handles_runHandler (hkeeps : c.node.KeepsRecords) {apply : NestedApply}
    (happly : t.code = .codeAccountCall → KeepsSupply c apply) (nested : Bool) (keys : List Bytes)
    (transactionHash : Bytes) (l₀ : Ledger)
    (hg : g.status = .success → g.transferAmount = if t.code ∈ amountCodes then 0 else t.amount) :
    Triple (fun l => l = l₀ ∧ Holds c t.sender total l)
      (runHandler c t nested keys apply transactionHash g)
      (Handles c t total (createdBeside c t l₀)) := by
  have hweak : ∀ {m : Stateful Ledger Handled} {extra : Int},
      Triple (Holds c t.sender total) m (Handles c t total extra) →
      Triple (fun l => l = l₀ ∧ Holds c t.sender total l) m (Handles c t total extra) :=
    fun h l hl => h l hl.2
  have hamount : t.code ∉ amountCodes → g.status = .success → g.transferAmount = t.amount := by
    intro hcode hs
    rw [hg hs, if_neg hcode]
  rw [runHandler]
  cases hcode : t.code with
  | transfer =>
    simp only [createdBeside, hcode]
    exact hweak handles_applyTransfer
  | channelUpdate =>
    exact handles_applyChannelUpdate hkeeps l₀ hcode (hamount (by rw [hcode]; decide))
  | channelWithdraw =>
    simp only [createdBeside, hcode]
    exact hweak (handles_applyChannelWithdraw hkeeps)
  | channelClose =>
    simp only [createdBeside, hcode]
    exact hweak (handles_applyChannelClose hkeeps)
  | treasuryDeposit =>
    simp only [createdBeside, hcode]
    exact hweak handles_applyTreasuryDeposit
  | treasuryBorrow =>
    simp only [createdBeside, hcode]
    refine hweak (handles_applyTreasury (holds_read _) fun _ => ?_)
    simp only [Int.add_zero]
    exact holds_handleTreasuryBorrow t _
  | treasuryRepay =>
    simp only [createdBeside, hcode]
    refine hweak (handles_applyTreasury (holds_read _) fun hs => ?_)
    simp only [Int.add_zero, hamount (by rw [hcode]; decide) hs]
    exact holds_handleTreasuryRepay t
  | treasuryClose =>
    simp only [createdBeside, hcode]
    refine hweak (handles_applyTreasury (holds_read _) fun hs => ?_)
    simp only [Int.add_zero, hamount (by rw [hcode]; decide) hs]
    exact holds_handleTreasuryClose t
  | treasuryGuarantee =>
    simp only [createdBeside, hcode]
    refine hweak (handles_applyTreasury (holds_read _) fun _ => ?_)
    simp only [Int.add_zero]
    exact (holds_of_keeps (balanced_neutral.handleTreasuryGuarantee _ _)).weaken fun _ _ hl _ => hl
  | treasuryBuy =>
    -- the price is that of the ledger before the treasury was read
    simp only [createdBeside, hcode]
    suffices hbuy : Triple
        (fun l => buyImbalance c t l = buyImbalance c t l₀ ∧ Holds c t.sender total l)
        (applyTreasury c t g 0 (handleTreasuryBuy c t))
        (Handles c t total (buyImbalance c t l₀)) from
      fun l hl => hbuy l ⟨by rw [hl.1], hl.2⟩
    refine handles_applyTreasury (fun l hl r l' hr => ?_) fun _ => ?_
    · refine ⟨?_, holds_read _ l hl.2 r l' hr⟩
      have hread := buyImbalance_read (c := c) (t := t) l
      rw [hr] at hread
      exact hread.trans hl.1
    · intro l hl status l' hr hs
      have hbuy := holds_handleTreasuryBuy t l l ⟨rfl, hl.2⟩ status l' hr hs
      exact hbuy.cast (by rw [hl.1]; ring)
  | treasuryClaim =>
    simp only [createdBeside, hcode]
    refine hweak (handles_applyTreasury (holds_read _) fun hs => ?_)
    simp only [Int.add_zero, hamount (by rw [hcode]; decide) hs]
    exact holds_handleTreasuryClaim t
  | storageCreate =>
    exact hweak (handles_applyStorageCreate nested l₀ hcode (hamount (by rw [hcode]; decide)))
  | storagePayment =>
    exact hweak (handles_applyStoragePayment l₀ hcode (hamount (by rw [hcode]; decide)))
  | storageRemove =>
    simp only [createdBeside, hcode]
    exact hweak handles_applyStorageRemove
  | codeAccountCreate =>
    simp only [createdBeside, hcode]
    exact hweak (handles_applyCodeAccountCreate _ (hamount (by rw [hcode]; decide)))
  | codeAccountCall =>
    simp only [createdBeside, hcode]
    exact hweak (handles_applyCodeAccountCall (happly hcode) _ (hamount (by rw [hcode]; decide)))

end Handlers

section Settlement

variable {c : Ctx} {t : Transaction} {a : Bytes} {total : Int}

theorem fresh_mutate (b : Bytes) (f : Account → Account) (r : Recipient) :
    Triple (FreshAbsent c t r) (mutate b f) fun _ => FreshAbsent c t r := by
  intro l hl _ l' hr account hacc
  obtain ⟨hsender, hstorage, habsent⟩ := hl account hacc
  exact ⟨hsender, hstorage, by rw [account_of_mutate hr, habsent]; rfl⟩

theorem holds_setRecipient (r : Recipient) :
    Triple (fun l => Holds c a total l ∧ FreshAbsent c t r l) (setRecipient t r) fun _ =>
      Holds c a (total + r.worth c.node) := by
  cases r with
  | none => exact .pure fun l hl => hl.1.cast (by simp [Recipient.worth])
  | held =>
    intro l hl _ l' hr
    exact (hl.1.of_balanced ((balanced_neutral.involve _).of_ok hr)).cast (by simp [Recipient.worth])
  | fresh account =>
    rintro l ⟨hl, hfresh⟩ _ l' hr
    obtain ⟨-, rfl⟩ := Prod.mk.inj hr
    exact holds_setAccount hl account (hfresh account rfl).2.2

/-- The deductions take the total from the sender and give the storage account its fee. -/
theorem holds_deduct (counterMatched : Bool) (h : Handled) (s : FeeSettlement) :
    Triple (fun l => Holds c a (total - h.recipient.worth c.node) l ∧ FreshAbsent c t h.recipient l)
      (deduct t counterMatched h s) fun _ => Holds c a (total - s.total + s.storageFee) := by
  refine ((holds_addBalance _ _).and (fresh_mutate _ _ _)).bind fun _ => ?_
  refine ((holds_addBalance _ _).and (fresh_mutate _ _ _)).bind fun _ => ?_
  have hbump : ∀ n, Triple (fun l => Holds c a n l ∧ FreshAbsent c t h.recipient l)
      (bumpCounter t.sender counterMatched)
      fun _ l => Holds c a n l ∧ FreshAbsent c t h.recipient l := by
    intro n
    rw [bumpCounter]
    split
    · have hcounter : Keeps (Ledger.Balanced c)
          (mutate t.sender fun account => { account with counter := account.counter + 1 }) :=
        balanced_mutate _ (fun _ => rfl) fun _ => Int.le_add_of_nonneg_right (by decide)
      exact (holds_of_keeps hcounter).and (fresh_mutate _ _ _)
    · exact .pure fun _ hl => hl
  refine (hbump _).bind fun _ => (holds_setRecipient _).bind fun _ => ?_
  refine (holds_of_keeps (balanced_neutral.involve _)).bind fun _ => ?_
  exact (holds_of_keeps (balanced_neutral.involve _)).weaken fun _ l hl => hl.cast (by ring)

end Settlement

section Nested

variable {c : Ctx} {t : Transaction} {g : Guarded}

/-- Only a payment of the storage contract mints. -/
abbrev MintsOnlyPayment (t : Transaction) (h : Handled) (_ : Ledger) : Prop :=
  h.minted ≠ 0 → t.code = .storagePayment ∧ t.recipient = storageAddress

theorem minted_runHandler (nested : Bool) (keys : List Bytes) (apply : NestedApply)
    (transactionHash : Bytes) :
    Triple (fun _ => True) (runHandler c t nested keys apply transactionHash g)
      (MintsOnlyPayment t) := by
  have hhandled : ∀ status amount r, Triple (fun _ => True)
      (pure (handled t status amount r) : Stateful Ledger Handled) (MintsOnlyPayment t) :=
    fun _ _ _ => .pure fun _ _ h => absurd rfl h
  have htreasury : ∀ amount handler, Triple (fun _ => True) (applyTreasury c t g amount handler)
      (MintsOnlyPayment t) := by
    refine fun amount handler => .skip fun _ => .ite (fun _ => hhandled _ _ _) fun _ => ?_
    refine .skip fun status => ?_
    cases status <;> exact hhandled _ _ _
  rw [runHandler]
  cases hcode : t.code with
  | transfer => exact .skip fun r => .skip fun r' => hhandled _ _ _
  | channelUpdate =>
    refine .ite (fun _ => hhandled _ _ _) fun _ => .ite (fun _ => hhandled _ _ _) fun _ => ?_
    refine .skip fun p => .skip fun updated => ?_
    exact .ite (fun _ => hhandled _ _ _) fun _ => hhandled _ _ _
  | channelWithdraw =>
    refine .skip fun r => .ite (fun _ => hhandled _ _ _) fun _ => .ite (fun _ => hhandled _ _ _) ?_
    exact fun _ => .skip fun _ => .ite (fun _ => hhandled _ _ _) fun _ => hhandled _ _ _
  | channelClose =>
    refine .ite (fun _ => hhandled _ _ _) fun _ => .ite (fun _ => hhandled _ _ _) fun _ => ?_
    split
    · exact .skip fun _ => .ite (fun _ => hhandled _ _ _) fun _ => hhandled _ _ _
    · exact hhandled _ _ _
  | treasuryDeposit =>
    refine .skip fun r => .ite (fun _ => hhandled _ _ _) fun _ => .ite (fun _ => hhandled _ _ _) ?_
    exact fun _ => .skip fun _ => .ite (fun _ => .skip fun _ => hhandled _ _ _)
      fun _ => hhandled _ _ _
  | treasuryBorrow => exact htreasury _ _
  | treasuryRepay => exact htreasury _ _
  | treasuryClose => exact htreasury _ _
  | treasuryGuarantee => exact htreasury _ _
  | treasuryBuy => exact htreasury _ _
  | treasuryClaim => exact htreasury _ _
  | storageCreate =>
    refine .skip fun r => .ite (fun _ => hhandled _ _ _) fun _ => .ite (fun _ => hhandled _ _ _) ?_
    refine fun _ => .skip fun _ => .ite (fun _ => hhandled _ _ _) fun _ => .skip fun cost => ?_
    rcases cost with _ | cost <;> exact hhandled _ _ _
  | storagePayment =>
    refine .skip fun r => .ite (fun _ => hhandled _ _ _) fun hr => .skip fun minted => ?_
    exact .skip fun r' => .pure fun _ _ _ => ⟨hcode, not_not.mp hr⟩
  | storageRemove => exact .skip fun r => hhandled _ _ _
  | codeAccountCreate =>
    refine .ite (fun _ => hhandled _ _ _) fun _ => .skip fun _ => ?_
    exact .ite (fun _ => hhandled _ _ _) fun _ => hhandled _ _ _
  | codeAccountCall =>
    refine .ite (fun _ => hhandled _ _ _) fun _ => .skip fun result => .ite (fun _ => ?_) fun _ => ?_
    · exact .pure fun _ _ h => absurd rfl h
    · exact .skip fun _ => .skip fun _ => .skip fun _ => .pure fun _ _ h => absurd rfl h

/-- A nested transaction whose success changes the supply: it mints, or creates balance. -/
def Unbalanced (c : Ctx) (t : Transaction) (l : Ledger) : Prop :=
  (t.code = .storagePayment ∧ t.recipient = storageAddress) ∨
    createdBeside c t (enter c true t l).2 ≠ 0

instance (c : Ctx) (t : Transaction) (l : Ledger) : Decidable (Unbalanced c t l) :=
  inferInstanceAs (Decidable (_ ∨ _))

/-- `apply`, stopped at a transaction that changes the supply. -/
def watched (c : Ctx) (apply : NestedApply) : NestedApply := fun t transactionHash => do
  let l ← .read
  let outcome ← apply t transactionHash
  if outcome.status = .success ∧ Unbalanced c t l then .raise .outOfFuel else return outcome

/-- `applyNested`, stopped at a transaction that changes the supply. -/
def applyWatched (c : Ctx) (blockBloomKeys : List Bytes) : Nat → NestedApply
  | 0 => fun _ _ => .raise .outOfFuel
  | n + 1 => watched c (applyNestedWith c blockBloomKeys (applyWatched c blockBloomKeys n))

theorem isException_or_uncaught (e : PyError) : e.isException ∨ Uncaught e := by
  cases e <;> simp [PyError.isException, Uncaught, errorValue]

theorem guards_transferAmount (nested : Bool) (t : Transaction) (sender : Account)
    (h : (guards nested t sender).status = .success) :
    (guards nested t sender).transferAmount = if t.code ∈ amountCodes then 0 else t.amount := by
  have hpass : ∀ (blocked : Bool) (failed passed : Guarded), failed.status = .failed →
      (if blocked then failed else passed).status = .success →
      (if blocked then failed else passed) = passed := by
    intro blocked failed passed hf hs
    cases blocked with
    | false => rfl
    | true => cases hf.symm.trans hs
  rcases hmatched : nested || decide (t.counter = sender.counter) with _ | _
  · simp [guards, hmatched] at h
  · simp only [guards, hmatched, if_true] at h ⊢
    rw [hpass _ _ _ rfl h]

theorem balanced_enter (nested : Bool) : Keeps (Ledger.Balanced c) (enter c nested t) := by
  refine .ite (.raise _) (Keeps.bind (balanced_neutral.rest _ ?_) fun _ => ?_)
  · exact fun _ => rfl
  refine (balanced_neutral.read _).bind fun sender => ?_
  rcases sender with _ | sender
  · exact .raise _
  · exact (balanced_neutral.read _).bind fun _ => .ite (.raise _) (.pure _)

/-- A nested transaction that succeeds has kept the supply, up to what it mints and creates. -/
theorem supply_applyNestedWith (hkeeps : c.node.KeepsRecords) {keys : List Bytes}
    {apply : NestedApply} (happly : KeepsSupply c apply) {transactionHash : Bytes} {l l' : Ledger}
    {o : Outcome} (h : applyNestedWith c keys apply t transactionHash l = (.ok o, l'))
    (ho : o.status = .success) (hbalanced : ¬Unbalanced c t l) : l'.supply c = l.supply c := by
  obtain ⟨hmints, hcreated⟩ := not_or.mp hbalanced
  have hcreated := not_not.mp hcreated
  obtain ⟨g, l₁, handled, l₂, l₅, l₆, h₁, h₂, hs, h₅, h₆, h₇⟩ := applyNestedWith_steps h ho
  obtain ⟨-, hread, sender, hsender, hcached, -, rfl⟩ := enter_eq_ok h₁
  rw [h₁] at hcreated
  have hl₁ : Holds c t.sender (l.supply c) l₁ :=
    Holds.of_balanced ((balanced_enter true).of_ok h₁) ⟨rfl, by rw [hsender]; rfl⟩
  have hl₂ := handles_runHandler hkeeps (fun _ => happly) true keys transactionHash l₁
    (guards_transferAmount true t sender) l₁ ⟨rfl, hl₁⟩ handled l₂ h₂ hs
  have hfresh := fresh_runHandler true keys apply transactionHash l₁ trivial handled l₂ h₂
  have hminted : handled.minted = 0 := by
    by_contra hcon
    exact hmints (minted_runHandler true keys apply transactionHash l₁ trivial handled l₂ h₂ hcon)
  have hl₅ := ((holds_addBalance _ _).and (fresh_mutate _ _ _)) l₂ ⟨hl₂, hfresh⟩ _ l₅ h₅
  have hl₆ := holds_setRecipient _ l₅ hl₅ _ l₆ h₆
  have hl₇ := holds_of_keeps (balanced_neutral.involve _) l₆ hl₆ _ l' h₇
  rw [hl₇.1, hcreated, hminted]
  ring

theorem grows_applyWatched (keys : List Bytes) (n : Nat) (t : Transaction) (hash : Bytes) :
    Keeps (Ledger.Grows c) (applyWatched c keys n t hash) := by
  induction n generalizing t hash with
  | zero => exact .raise _
  | succ n ih =>
    refine Keeps.read.bind fun l => (grows_applyNestedWith ih keys t hash).bind fun o => ?_
    exact .ite (.raise _) (.pure _)

/-- Stopped at the transactions that change the supply, the nested ones keep it. -/
theorem keepsSupply_applyWatched (hkeeps : c.node.KeepsRecords) (keys : List Bytes) (n : Nat) :
    KeepsSupply c (applyWatched c keys n) := by
  induction n with
  | zero => exact fun _ _ _ => .inr (.inl rfl)
  | succ n ih =>
    intro t hash l
    have herror : ∀ {e : PyError} {l'}, e.isException ∨ Uncaught e ∨ l.Balanced c l' := by
      intro e l'
      exact (isException_or_uncaught e).imp_right .inl
    rw [applyWatched, watched, read_bind]
    rcases h : applyNestedWith c keys (applyWatched c keys n) t hash l with ⟨e | o, l₁⟩
    · rw [bind_of_error h]
      exact herror
    rw [bind_of_ok h]
    split_ifs with hun
    · exact herror
    · intro ho
      have hsupply := supply_applyNestedWith hkeeps ih h ho fun hcon => hun ⟨ho, hcon⟩
      exact ⟨hsupply, (grows_applyNestedWith (grows_applyWatched keys n) keys t hash).of_ok h⟩

end Nested

section TopLevel

variable {t : Transaction} {transactionHash : Bytes} {node : Node} {b b' : Block} {o : Outcome}

/-- What the accounts of a block and their channels hold. -/
def Block.supply (b : Block) (node : Node) : Int := b.ledger.supply (b.ctx node)

/-- What the transaction would create from the ledger that it enters. -/
def Block.created (b : Block) (node : Node) (t : Transaction) : Int :=
  createdBeside (b.ctx node) t (enter (b.ctx node) false t b.ledger).2

/-- No nested transaction of a contract that the transaction calls goes through and changes the
supply: the call runs as it does where it would be stopped there. -/
def Block.CallBalanced (b : Block) (node : Node) (t : Transaction) (transactionHash : Bytes) :
    Prop :=
  t.code = .codeAccountCall → ∀ g l, enter (b.ctx node) false t b.ledger = (.ok g, l) →
    runHandler (b.ctx node) t false b.pendingBloomKeys (b.nestedApply node) transactionHash g l =
      runHandler (b.ctx node) t false b.pendingBloomKeys
        (applyWatched (b.ctx node) b.pendingBloomKeys node.fuel) transactionHash g l

/-- The deductions of a block whose accounts hold `total`. -/
theorem supply_of_concluded {c : Ctx} {matched : Bool} {h : Handled} {priced : Priced}
    {status : Status} {s : FeeSettlement} {receipt : Receipt} {total : Int}
    (hc : Concluded t transactionHash matched h priced status s receipt b b' o)
    (hb : Holds c t.sender (total - h.recipient.worth c.node) b.ledger)
    (hfresh : FreshAbsent c t h.recipient b.ledger) :
    b'.ledger.supply c = total - s.total + s.storageFee := by
  have hlogs := hb.of_balanced
    (balanced_neutral.extendPendingExprs (keptLogs h priced.logsExpr) b.ledger)
  exact (holds_deduct matched h s _ ⟨hlogs, hfresh⟩ _ _ hc.deducted).1

/-- What the supply changes by: the fees go, the mint comes, and what a successful one creates. -/
theorem supply_applyTxEffects (hkeeps : node.KeepsRecords)
    (hcall : b.CallBalanced node t transactionHash)
    (hrun : applyTxEffects t transactionHash node b = (.ok o, b')) :
    ∃ receipt, b'.receipts = b.receipts ++ [receipt] ∧
      b'.supply node = b.supply node - (receipt.transactionFee + receipt.dataFee) + receipt.mint +
        if o.status = .success then b.created node t else 0 := by
  have hheader : b'.header = b.header := (header_applyTxEffects node).of_ok hrun
  obtain ⟨g, l₀, h, l₁, e₀, e₁, hf⟩ := applyTxEffects_eq_ok hrun
  obtain ⟨-, hread, sender, hsender, -, -, rfl⟩ := enter_eq_ok e₀
  have hl₀ : Holds (b.ctx node) t.sender (b.supply node) l₀ :=
    Holds.of_balanced ((balanced_enter false).of_ok e₀) ⟨rfl, by rw [hsender]; rfl⟩
  have hcreated : b.created node t = createdBeside (b.ctx node) t l₀ := by
    rw [Block.created, e₀]
  have hsame : b'.supply node = b'.ledger.supply (b.ctx node) := by
    rw [Block.supply, Block.ctx, hheader, Block.ctx]
  obtain ⟨h₁, b₁, balance, priced, b₂, inserted, account, -, -, -, -, hcase⟩ := finish_eq_ok hf
  rcases hcase with ⟨hs, -, -, -, hbalance, -, hc⟩ | ⟨-, hc⟩
  · -- the handler has moved what the sender pays besides the fees
    have hhandled : Handles (b.ctx node) t (b.supply node) (b.created node t) h l₁ := by
      rw [hcreated]
      by_cases hcode : t.code = .codeAccountCall
      · rw [hcall hcode _ _ e₀] at e₁
        exact handles_runHandler hkeeps (fun _ => keepsSupply_applyWatched hkeeps _ _) _ _ _ l₀
          (guards_transferAmount _ _ _) l₀ ⟨rfl, hl₀⟩ h l₁ e₁
      · exact handles_runHandler hkeeps (fun hcon => absurd hcon hcode) _ _ _ l₀
          (guards_transferAmount _ _ _) l₀ ⟨rfl, hl₀⟩ h l₁ e₁
    have hsupply := supply_of_concluded hc (hhandled hs)
      (fresh_runHandler _ _ _ _ l₀ trivial h l₁ e₁)
    refine ⟨_, hc.receipts, ?_⟩
    rw [hsame, hsupply, settleFees_affordable (by omega), hc.outcome]
    simp only [FeeSettlement.total, buildReceipt, if_true]
    ring
  · -- the ledger is back where the handler started
    have hback : Holds (b.ctx node) t.sender
        (b.supply node - h.rolledBack.recipient.worth (b.ctx node).node) l₀ :=
      hl₀.cast (by simp [Handled.rolledBack, Recipient.worth])
    have hsupply := supply_of_concluded hc hback (freshAbsent_none _)
    refine ⟨_, hc.receipts, ?_⟩
    rw [hsame, hsupply, hc.outcome]
    have hparts := settleFees_parts account.balance (1 + h.evaluationFee) priced.receipt.storageFee
    simp only [Handled.rolledBack, buildReceipt, hparts, reduceCtorEq, if_false]
    ring

/-- A node without cells has no channel record in storage. -/
theorem bareNode_keepsRecords : bareNode.KeepsRecords := by
  intro channel record n hrecord hn
  have hterminal : ∀ s, statedBalance bareNode (.symbol s) = none := fun s => rfl
  rw [getExpr] at hrecord
  split at hrecord
  · obtain rfl := Option.some.inj hrecord
    cases hn
  · obtain ⟨s, -, rfl⟩ := Option.map_eq_some_iff.mp hrecord
    rw [hterminal] at hn
    cases hn

end TopLevel

end Astreum
