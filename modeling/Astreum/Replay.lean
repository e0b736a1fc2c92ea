import Astreum.Counters
import Astreum.Rollback
import Astreum.Runs

namespace Astreum

open Eff

section Fresh

variable {c : Ctx} {t : Transaction} {g : Guarded}

/-- A recipient account that no address holds yet is not the sender's. -/
def FreshAbsent (c : Ctx) (t : Transaction) (r : Recipient) (l : Ledger) : Prop :=
  ∀ account, r = .fresh account →
    t.recipient ≠ t.sender ∧ t.recipient ≠ storageAddress ∧ l.account c t.recipient = none

theorem freshAbsent_none (l : Ledger) : FreshAbsent c t .none l := by
  intro account h
  cases h

theorem freshAbsent_held (l : Ledger) : FreshAbsent c t .held l := by
  intro account h
  cases h

theorem freshAbsent_heldIf (account : Option Account) (l : Ledger) :
    FreshAbsent c t (heldIf account) l := by
  rw [heldIf]
  split
  · exact freshAbsent_held l
  · exact freshAbsent_none l

theorem fresh_getOrCreateRecipient (P : Ledger → Prop) :
    Triple P (getOrCreateRecipient c t) (FreshAbsent c t) := by
  refine .ite (fun _ => .pure fun l _ => freshAbsent_held l) fun hsender => ?_
  refine .ite (fun _ => .skip fun _ => .pure fun l _ => freshAbsent_heldIf _ l) fun hstorage => ?_
  intro l _ r l' h
  obtain ⟨account, l₁, h₁, h⟩ := bind_eq_ok.mp h
  obtain ⟨haccount, hread, -⟩ := getAccount_eq_ok h₁
  rcases account with _ | account
  · obtain ⟨hr, rfl⟩ := Prod.mk.inj h
    exact fun _ _ => ⟨hsender, hstorage, (hread.account _).trans haccount.symm⟩
  · obtain ⟨hr, rfl⟩ := Prod.mk.inj h
    obtain rfl := Except.ok.inj hr
    exact freshAbsent_held _

theorem fresh_creditRecipient (r : Recipient) (amount : Int) :
    Triple (FreshAbsent c t r) (creditRecipient t r amount) (FreshAbsent c t) := by
  cases r with
  | none => exact .raise _
  | held => exact .skip fun _ => .pure fun l _ => freshAbsent_held l
  | fresh account => exact .pure fun l hl _ _ => hl account rfl

theorem fresh_creditPositive (r : Recipient) (amount : Int) :
    Triple (FreshAbsent c t r) (creditPositive t r amount) (FreshAbsent c t) :=
  .ite (fun _ => fresh_creditRecipient r amount) fun _ => .pure fun _ hl => hl

/-- What a handler leaves in the locals. -/
abbrev FreshAfter (c : Ctx) (t : Transaction) (h : Handled) (l : Ledger) : Prop :=
  FreshAbsent c t h.recipient l

theorem fresh_applyTransfer : Triple (fun _ => True) (applyTransfer c t g) (FreshAfter c t) :=
  (fresh_getOrCreateRecipient _).bind fun r =>
    (fresh_creditRecipient r _).bind fun _ => .pure fun _ hl => hl

theorem fresh_applyChannelUpdate :
    Triple (fun _ => True) (applyChannelUpdate c t g) (FreshAfter c t) := by
  refine .ite (fun _ => .pure fun l _ => freshAbsent_none l) fun _ => ?_
  refine .ite (fun _ => .pure fun l _ => freshAbsent_held l) fun _ => .skip fun _ => .skip fun _ => ?_
  exact .ite (fun _ => .pure fun l _ => freshAbsent_held l) fun _ =>
    .pure fun l _ => freshAbsent_held l

theorem fresh_applyChannelWithdraw :
    Triple (fun _ => True) (applyChannelWithdraw c t g) (FreshAfter c t) := by
  refine .skip fun r => .ite (fun _ => .pure fun l _ => freshAbsent_heldIf r l) fun _ => ?_
  refine .ite (fun _ => .pure fun l _ => freshAbsent_none l) fun _ => .skip fun _ => ?_
  exact .ite (fun _ => .pure fun l _ => freshAbsent_held l) fun _ =>
    .pure fun l _ => freshAbsent_held l

theorem fresh_applyChannelClose :
    Triple (fun _ => True) (applyChannelClose c t g) (FreshAfter c t) := by
  refine .ite (fun _ => .pure fun l _ => freshAbsent_none l) fun _ => ?_
  refine .ite (fun _ => .pure fun l _ => freshAbsent_none l) fun _ => ?_
  split
  · refine .skip fun _ => .ite (fun _ => .pure fun l _ => freshAbsent_none l) fun _ => ?_
    exact .pure fun l _ => freshAbsent_none l
  · exact .pure fun l _ => freshAbsent_none l

theorem fresh_depositRecord (r : Recipient) (amount : Int) :
    Triple (FreshAbsent c t r) (depositRecord c t r amount) fun _ => FreshAbsent c t r := by
  cases r with
  | none => exact .pure fun _ hl => hl
  | fresh account => exact .pure fun _ hl => hl
  | held => exact fun _ _ _ l _ => freshAbsent_held l

theorem fresh_applyTreasuryDeposit :
    Triple (fun _ => True) (applyTreasuryDeposit c t g) (FreshAfter c t) := by
  refine (fresh_getOrCreateRecipient _).bind fun r => .ite (fun _ => .pure fun _ hl => hl) fun _ => ?_
  refine .ite (fun _ => .pure fun _ hl => hl) fun _ => (fresh_depositRecord r _).bind fun _ => ?_
  refine .ite (fun _ => (fresh_creditRecipient r _).bind fun _ => ?_) fun _ => ?_
  · exact .pure fun _ hl => hl
  · exact .pure fun _ hl => hl

theorem fresh_applyTreasury (amount : Int) (handler : Stateful Ledger Status) :
    Triple (fun _ => True) (applyTreasury c t g amount handler) (FreshAfter c t) := by
  refine .skip fun r => .ite (fun _ => .pure fun l _ => freshAbsent_heldIf r l) fun _ => ?_
  refine .skip fun status => ?_
  cases status with
  | success => exact .pure fun l _ => freshAbsent_heldIf r l
  | failed => exact .pure fun l _ => freshAbsent_heldIf r l

/-- The storage account is no new one. -/
theorem not_fresh_of_storage {r : Recipient} {l : Ledger} (h : FreshAbsent c t r l)
    (hr : t.recipient = storageAddress) (l' : Ledger) : FreshAbsent c t r l' :=
  fun account hfresh => absurd hr (h account hfresh).2.1

theorem fresh_applyStorageCreate (nested : Bool) :
    Triple (fun _ => True) (applyStorageCreate c t g nested) (FreshAfter c t) := by
  refine (fresh_getOrCreateRecipient _).bind fun r => .ite (fun _ => .pure fun _ hl => hl) fun hs => ?_
  refine .given (fun l hl => not_fresh_of_storage hl (not_not.mp hs)) fun hfresh => ?_
  refine .ite (fun _ => .pure fun l _ => hfresh l) fun _ => .skip fun _ => ?_
  refine .ite (fun _ => .pure fun l _ => hfresh l) fun _ => .skip fun cost => ?_
  cases cost with
  | none => exact .pure fun l _ => hfresh l
  | some cost => exact .pure fun l _ => hfresh l

theorem fresh_applyStoragePayment :
    Triple (fun _ => True) (applyStoragePayment c t g) (FreshAfter c t) := by
  refine (fresh_getOrCreateRecipient _).bind fun r => .ite (fun _ => .pure fun _ hl => hl) fun hs => ?_
  refine .given (fun l hl => not_fresh_of_storage hl (not_not.mp hs)) fun hfresh => ?_
  have hminted : Triple (FreshAbsent c t r) (paymentMinted c t g) fun _ => FreshAbsent c t r :=
    fun _ _ _ l _ => hfresh l
  exact hminted.bind fun _ => (fresh_creditPositive r _).bind fun _ => .pure fun _ hl => hl

theorem fresh_runHandler (nested : Bool) (keys : List Bytes) (apply : NestedApply)
    (transactionHash : Bytes) :
    Triple (fun _ => True) (runHandler c t nested keys apply transactionHash g)
      (FreshAfter c t) := by
  rw [runHandler]
  cases t.code with
  | transfer => exact fresh_applyTransfer
  | channelUpdate => exact fresh_applyChannelUpdate
  | channelWithdraw => exact fresh_applyChannelWithdraw
  | channelClose => exact fresh_applyChannelClose
  | treasuryDeposit => exact fresh_applyTreasuryDeposit
  | treasuryBorrow => exact fresh_applyTreasury _ _
  | treasuryRepay => exact fresh_applyTreasury _ _
  | treasuryClose => exact fresh_applyTreasury _ _
  | treasuryGuarantee => exact fresh_applyTreasury _ _
  | treasuryBuy => exact fresh_applyTreasury _ _
  | treasuryClaim => exact fresh_applyTreasury _ _
  | storageCreate => exact fresh_applyStorageCreate nested
  | storagePayment => exact fresh_applyStoragePayment
  | storageRemove => exact (fresh_getOrCreateRecipient _).bind fun r => .pure fun _ hl => hl
  | codeAccountCreate =>
    refine .ite (fun _ => .pure fun l _ => freshAbsent_none l) fun _ => .skip fun _ => ?_
    exact .ite (fun _ => .pure fun l _ => freshAbsent_none l) fun _ =>
      .pure fun l _ => freshAbsent_none l
  | codeAccountCall =>
    refine .ite (fun _ => .pure fun l _ => freshAbsent_none l) fun _ => .skip fun _ => ?_
    refine .ite (fun _ => .pure fun l _ => freshAbsent_none l) fun _ => .skip fun _ => ?_
    exact .skip fun _ => .skip fun r => .pure fun l _ => freshAbsent_heldIf r l

end Fresh

section Growth

variable {c : Ctx} {t : Transaction} {transactionHash : Bytes} {l₀ : Ledger} {h : Handled}

theorem grows_enter (nested : Bool) : Keeps (Ledger.Grows c) (enter c nested t) := by
  refine .ite (.raise _) (Keeps.bind (grows_update fun _ => ?_) fun _ => ?_)
  · rfl
  refine (grows_getAccount _).bind fun sender => ?_
  rcases sender with _ | sender
  · exact .raise _
  · exact (grows_getAccount _).bind fun _ => .ite (.raise _) (.pure _)

/-- What the stages after the handler keep: the accounts have grown since `l₀`, and a new recipient
is none of them. -/
def GrownFrom (c : Ctx) (t : Transaction) (l₀ : Ledger) (r : Recipient) (b : Block) : Prop :=
  l₀.Grows c b.ledger ∧ FreshAbsent c t r b.ledger

theorem grown_rollback (h : Handled) (P : Block → Prop) :
    Spec P (rollback l₀ h) (fun h' => GrownFrom c t l₀ h'.recipient)
      fun _ b => l₀.Grows c b.ledger :=
  fun _ _ => ⟨refl_of (Ledger.Grows c) l₀, freshAbsent_none l₀⟩

theorem grown_rollbackFailed :
    Spec (GrownFrom c t l₀ h.recipient) (rollbackFailed l₀ h)
      (fun h' => GrownFrom c t l₀ h'.recipient) fun _ b => l₀.Grows c b.ledger := by
  rw [rollbackFailed]
  split
  · exact .pure fun _ hb => hb
  · exact grown_rollback h _

theorem grown_rollbackLate (late : Status) :
    Spec (GrownFrom c t l₀ h.recipient) (rollbackLate l₀ late h)
      (fun h' => GrownFrom c t l₀ h'.recipient) fun _ b => l₀.Grows c b.ledger := by
  rw [rollbackLate]
  split
  · exact .pure fun _ hb => hb
  · exact grown_rollback h _

theorem keeps_priceOnBlock :
    Keeps (fun b b' : Block => b'.ledger = b.ledger) (priceOnBlock t transactionHash h c) := by
  have hbloom : ∀ elements, Keeps (fun b b' : Block => b'.ledger = b.ledger) (bloomInsert elements) :=
    fun elements b => congrArg (fun p => p.2.1) (keeps_bloomInsert elements b)
  have hheld : ∀ a, Keeps (fun b b' : Block => b'.ledger = b.ledger) (onLedger (held a)) := by
    intro a b
    rcases hc : b.ledger.cache.get? a with _ | account <;> simp [onLedger, Eff.zoom, held, hc]
  exact (hbloom _).bind fun _ => Keeps.read.bind fun _ => (hheld _).bind fun _ =>
    (Keeps.ofExcept _).bind fun _ => .pure _

theorem grown_mutate (a : Bytes) {f : Account → Account}
    (hf : ∀ account, account.counter ≤ (f account).counter) (r : Recipient) :
    Spec (fun l => l₀.Grows c l ∧ FreshAbsent c t r l) (mutate a f)
      (fun _ l => l₀.Grows c l ∧ FreshAbsent c t r l) fun _ l => l₀.Grows c l := by
  intro l ⟨hgrown, hfresh⟩
  have hg := trans_of (Ledger.Grows c) hgrown (grows_mutate a hf l)
  rcases hr : mutate a f l with ⟨_ | _, l'⟩ <;> rw [hr] at hg
  · exact hg
  · refine ⟨hg, fun account hacc => ?_⟩
    obtain ⟨hsender, hstorage, habsent⟩ := hfresh account hacc
    exact ⟨hsender, hstorage, by rw [account_of_mutate hr, habsent]; rfl⟩

theorem grown_addBalance (a : Bytes) (n : Int) (r : Recipient) :
    Spec (fun l => l₀.Grows c l ∧ FreshAbsent c t r l) (addBalance a n)
      (fun _ l => l₀.Grows c l ∧ FreshAbsent c t r l) fun _ l => l₀.Grows c l := by
  refine grown_mutate a (fun account => ?_) r
  exact le_rfl

theorem grown_setRecipient (r : Recipient) :
    Spec (fun l => l₀.Grows c l ∧ FreshAbsent c t r l) (setRecipient t r)
      (fun _ l => l₀.Grows c l) fun _ l => l₀.Grows c l := by
  intro l ⟨hgrown, hfresh⟩
  cases r with
  | none => exact hgrown
  | held => exact trans_of (Ledger.Grows c) hgrown (grows_neutral.involve t.recipient l)
  | fresh account =>
    exact trans_of (Ledger.Grows c) hgrown (grows_setAccount account (hfresh account rfl).2.2)

theorem grown_deduct (counterMatched : Bool) (s : FeeSettlement) :
    Spec (fun l => l₀.Grows c l ∧ FreshAbsent c t h.recipient l) (deduct t counterMatched h s)
      (fun _ l => l₀.Grows c l) fun _ l => l₀.Grows c l := by
  refine (grown_addBalance _ _ _).bind fun _ => (grown_addBalance _ _ _).bind fun _ => ?_
  have hbump : Spec (fun l => l₀.Grows c l ∧ FreshAbsent c t h.recipient l)
      (bumpCounter t.sender counterMatched)
      (fun _ l => l₀.Grows c l ∧ FreshAbsent c t h.recipient l) fun _ l => l₀.Grows c l := by
    rw [bumpCounter]
    split
    · exact grown_mutate _ (fun account => Int.le_add_of_nonneg_right (by decide)) _
    · exact .pure fun _ hl => hl
  refine hbump.bind fun _ => ?_
  refine (grown_setRecipient _).bind fun _ => ?_
  exact .bind (.update fun _ hl => hl) fun _ => .update fun _ hl => hl

theorem grown_of_keeps {α : Type} {m : Stateful Block α}
    (hm : Keeps (fun b b' : Block => b'.ledger = b.ledger) m) (r : Recipient) :
    Spec (GrownFrom c t l₀ r) m (fun _ => GrownFrom c t l₀ r) fun _ b => l₀.Grows c b.ledger :=
  (Spec.of_keeps hm fun l => l₀.Grows c l ∧ FreshAbsent c t r l).weaken (fun _ hb => hb)
    (fun _ _ hb => hb) fun _ _ hb => hb.1

theorem keeps_ledger_of_outsideBloom {α : Type} {m : Stateful Block α}
    (hm : Keeps (fun b b' => b'.outsideBloom = b.outsideBloom) m) :
    Keeps (fun b b' : Block => b'.ledger = b.ledger) m :=
  fun b => congrArg (fun p => p.2.1) (hm b)

theorem keeps_onLedger_held (a : Bytes) :
    Keeps (fun b b' : Block => b'.ledger = b.ledger) (onLedger (held a)) := by
  intro b
  rcases hc : b.ledger.cache.get? a with _ | account <;> simp [onLedger, Eff.zoom, held, hc]

theorem grown_conclude (counterMatched : Bool) (priced : Priced) :
    Spec (GrownFrom c t l₀ h.recipient) (conclude t transactionHash counterMatched h priced)
      (fun _ b => l₀.Grows c b.ledger) fun _ b => l₀.Grows c b.ledger := by
  refine (grown_of_keeps (keeps_onLedger_held _) _).bind fun sender => ?_
  refine (grown_of_keeps (keeps_ledger_of_outsideBloom
    (keeps_finalizePendingBloomInserts _ _ _)) _).bind fun _ => ?_
  have hlogs : Spec (GrownFrom c t l₀ h.recipient) (onLedger (keepLogs h priced.logsExpr))
      (fun _ => GrownFrom c t l₀ h.recipient) fun _ b => l₀.Grows c b.ledger := by
    intro b hb
    simp only [onLedger, Eff.zoom, keepLogs_apply]
    exact hb
  refine hlogs.bind fun _ => ?_
  refine (grown_of_keeps (keeps_ledger_of_outsideBloom (keeps_insertInvolved _)) _).bind fun _ => ?_
  refine (onLedger_spec (grown_deduct counterMatched _)).bind fun _ => ?_
  have hrecord : Keeps (fun b b' : Block => b'.ledger = b.ledger) (record t transactionHash
      (settle transactionHash sender.balance h priced.receipt).2.2) := by
    refine Keeps.bind (fun _ => rfl) fun _ => Keeps.read.bind fun _ => (Keeps.ofExcept _).bind fun _ => ?_
    exact fun _ => rfl
  exact (Spec.of_keeps hrecord fun l => l₀.Grows c l).bind fun _ => .pure fun _ hb => hb

theorem grown_finish (counterMatched : Bool) :
    Spec (GrownFrom c t l₀ h.recipient) (finish t transactionHash l₀ counterMatched h c)
      (fun _ b => l₀.Grows c b.ledger) fun _ b => l₀.Grows c b.ledger := by
  refine grown_rollbackFailed.bind fun h' => ?_
  refine (grown_of_keeps keeps_priceOnBlock _).bind fun p => ?_
  exact (grown_rollbackLate _).bind fun h'' => grown_conclude _ _

section Nested

variable {apply : NestedApply} (happly : ∀ t hash, Keeps (Ledger.Grows c) (apply t hash))

include happly

theorem grown_runHandler (nested : Bool) (keys : List Bytes) (g : Guarded) :
    Spec (l₀.Grows c) (runHandler c t nested keys apply transactionHash g)
      (fun h l => l₀.Grows c l ∧ FreshAbsent c t h.recipient l) fun _ => l₀.Grows c := by
  intro l hl
  have hg := (grows_runHandler (t := t) (g := g) happly nested keys transactionHash).spec l₀ l hl
  rcases hr : runHandler c t nested keys apply transactionHash g l with ⟨_ | h, l'⟩ <;> rw [hr] at hg
  · exact hg
  · exact ⟨hg, fresh_runHandler nested keys apply transactionHash l trivial h l' hr⟩

theorem grows_applyNestedWith (keys : List Bytes) (t : Transaction) (transactionHash : Bytes) :
    Keeps (Ledger.Grows c) (applyNestedWith c keys apply t transactionHash) := by
  refine .of_spec fun l₀ => ((grows_enter true).spec l₀).bind fun g => ?_
  refine (grown_runHandler happly true keys g).bind fun h => ?_
  have hfees : ∀ x : Py (Option Int), Spec
      (fun l => l₀.Grows c l ∧ FreshAbsent c t h.recipient l) (Eff.ofExcept x : Stateful Ledger _)
      (fun _ l => l₀.Grows c l ∧ FreshAbsent c t h.recipient l) fun _ => l₀.Grows c := by
    intro x l hl
    rcases x with e | a
    · exact hl.1
    · exact hl
  refine (hfees _).bind fun logs => (hfees _).bind fun fresh => ?_
  refine (grown_addBalance _ _ _).bind fun _ => (grown_setRecipient _).bind fun _ => ?_
  exact ((grows_neutral.involve _).spec l₀).bind fun _ => .pure fun _ hl => hl

omit happly in
theorem grows_applyNested (keys : List Bytes) (n : Nat) (t : Transaction)
    (transactionHash : Bytes) : Keeps (Ledger.Grows c) (applyNested c keys n t transactionHash) := by
  induction n generalizing t transactionHash with
  | zero => exact .raise _
  | succ n ih => exact grows_applyNestedWith ih keys t transactionHash

end Nested

/-- However a transaction ends, no account has vanished and no counter has gone down. -/
theorem grown_applyTxEffects (node : Node) (b : Block) :
    b.ledger.Grows (b.ctx node) (applyTxEffects t transactionHash node b).2.ledger := by
  let R : Block → Block → Prop := Along Block.ledger (Ledger.Grows (b.ctx node))
  suffices hs : Spec (R b) (do
      let g ← onLedger (enter (b.ctx node) false t)
      let snapshot := (← Eff.read).ledger
      let h ← onLedger <| runHandler (b.ctx node) t false b.pendingBloomKeys (b.nestedApply node)
        transactionHash g
      finish t transactionHash snapshot g.counterMatched h (b.ctx node)) (fun _ => R b)
      fun _ => R b by
    have hb := hs b (refl_of R b)
    rw [applyTxEffects, Eff.read_bind]
    split at hb <;> rename_i hr <;> exact (congrArg (fun p => R b p.2) hr).mpr hb
  refine (onLedger_spec ((grows_enter false).spec b.ledger)).bind fun g => ?_
  refine .read_bind fun b₀ hb₀ => ?_
  have hrun := @grown_runHandler (b.ctx node) t transactionHash b₀.ledger (b.nestedApply node)
    (grows_applyNested b.pendingBloomKeys node.fuel) false b.pendingBloomKeys g
  refine ((onLedger_spec hrun).weaken ?_ (fun _ _ h => h) ?_).bind fun h => ?_
  · rintro _ rfl
    exact refl_of (Ledger.Grows _) _
  · exact fun _ _ h => trans_of (Ledger.Grows _) hb₀ h
  · exact (grown_finish g.counterMatched).weaken (fun _ h => h)
      (fun _ _ h => trans_of (Ledger.Grows _) hb₀ h) fun _ _ h => trans_of (Ledger.Grows _) hb₀ h

end Growth

section Header

variable {c : Ctx} {t : Transaction} {transactionHash : Bytes}

theorem header_onLedger {α : Type} (x : Stateful Ledger α) :
    Keeps (fun b b' : Block => b'.header = b.header) (onLedger x) :=
  fun _ => rfl

theorem header_of_outsideBloom {α : Type} {m : Stateful Block α}
    (hm : Keeps (fun b b' => b'.outsideBloom = b.outsideBloom) m) :
    Keeps (fun b b' : Block => b'.header = b.header) m :=
  fun b => congrArg Prod.fst (hm b)

theorem header_conclude (counterMatched : Bool) (h : Handled) (priced : Priced) :
    Keeps (fun b b' : Block => b'.header = b.header)
      (conclude t transactionHash counterMatched h priced) := by
  refine (header_onLedger _).bind fun sender => ?_
  refine (header_of_outsideBloom (keeps_finalizePendingBloomInserts _ _ _)).bind fun _ => ?_
  refine (header_onLedger _).bind fun _ => ?_
  refine (header_of_outsideBloom (keeps_insertInvolved _)).bind fun _ => ?_
  refine (header_onLedger _).bind fun _ => Keeps.bind ?_ fun _ => .pure _
  refine Keeps.bind (fun _ => rfl) fun _ => Keeps.read.bind fun _ => (Keeps.ofExcept _).bind fun _ => ?_
  exact fun _ => rfl

theorem header_finish (snapshot : Ledger) (counterMatched : Bool) (h : Handled) :
    Keeps (fun b b' : Block => b'.header = b.header)
      (finish t transactionHash snapshot counterMatched h c) := by
  have hroll : ∀ h, Keeps (fun b b' : Block => b'.header = b.header) (rollback snapshot h) :=
    fun h => (header_onLedger _).bind fun _ => .pure _
  refine Keeps.bind (.ite (.pure _) (hroll h)) fun h' => Keeps.bind ?_ fun p => ?_
  · refine (header_of_outsideBloom (keeps_bloomInsert _)).bind fun _ => Keeps.read.bind fun _ => ?_
    exact (header_onLedger _).bind fun _ => (Keeps.ofExcept _).bind fun _ => .pure _
  · exact Keeps.bind (.ite (.pure _) (hroll h')) fun h'' => header_conclude _ _ _

/-- No transaction writes the header of its block. -/
theorem header_applyTxEffects (node : Node) :
    Keeps (fun b b' : Block => b'.header = b.header) (applyTxEffects t transactionHash node) := by
  refine Keeps.read.bind fun b => (header_onLedger _).bind fun g => Keeps.read.bind fun b₀ => ?_
  exact (header_onLedger _).bind fun h => header_finish _ _ _

end Header

section Counter

variable {c : Ctx} {t : Transaction} {transactionHash : Bytes} {g : Guarded} {node : Node}
  {b b' : Block} {o : Outcome} {sender : Account}

/-- What the handlers make of a transaction that failed a guard. -/
abbrev FailedQuietly (h : Handled) (_ : Ledger) : Prop := h.status = .failed ∧ h.logs = []

/-- A transaction that failed a guard gets no further. -/
theorem failed_runHandler (nested : Bool) (keys : List Bytes) (apply : NestedApply)
    (hg : g.status = .failed) :
    Triple (fun _ => True) (runHandler c t nested keys apply transactionHash g) FailedQuietly := by
  have hne : g.status ≠ .success := by
    rw [hg]
    decide
  have hfails : ∀ amount r, Triple (fun _ => True)
      (pure (handled t g.status amount r) : Stateful Ledger Handled) FailedQuietly :=
    fun _ _ => .pure fun _ _ => ⟨hg, rfl⟩
  have hfailed : ∀ amount r, Triple (fun _ => True)
      (pure (handled t .failed amount r) : Stateful Ledger Handled) FailedQuietly :=
    fun _ _ => .pure fun _ _ => ⟨rfl, rfl⟩
  have htreasury : ∀ amount handler, Triple (fun _ => True) (applyTreasury c t g amount handler)
      FailedQuietly :=
    fun _ _ => .skip fun _ => .ite (fun _ => hfails _ _) fun h => absurd hne h
  rw [runHandler]
  cases t.code with
  | transfer => exact .skip fun r => .skip fun r' => hfails _ _
  | channelUpdate =>
    exact .ite (fun _ => hfailed _ _) fun _ => .ite (fun _ => hfails _ _) fun h => absurd hne h
  | channelWithdraw => exact .skip fun r => .ite (fun _ => hfails _ _) fun h => absurd hne h
  | channelClose =>
    exact .ite (fun _ => hfailed _ _) fun _ => .ite (fun _ => hfails _ _) fun h => absurd hne h
  | treasuryDeposit =>
    refine .skip fun r => .ite (fun _ => hfails _ _) fun _ => ?_
    exact .ite (fun _ => hfails _ _) fun h => absurd hne h
  | treasuryBorrow => exact htreasury _ _
  | treasuryRepay => exact htreasury _ _
  | treasuryClose => exact htreasury _ _
  | treasuryGuarantee => exact htreasury _ _
  | treasuryBuy => exact htreasury _ _
  | treasuryClaim => exact htreasury _ _
  | storageCreate =>
    refine .skip fun r => .ite (fun _ => hfails _ _) fun _ => ?_
    exact .ite (fun _ => hfailed _ _) fun h => absurd (.inl hne) h
  | storagePayment =>
    refine .skip fun r => .ite (fun _ => hfails _ _) fun _ => .skip fun minted => .skip fun r' => ?_
    refine .pure fun _ _ => ⟨?_, rfl⟩
    simp only [handled, hg, ite_self]
  | storageRemove => exact .skip fun r => hfails _ _
  | codeAccountCreate => exact .ite (fun _ => hfails _ _) fun h => absurd hne h
  | codeAccountCall => exact .ite (fun _ => hfails _ _) fun h => absurd hne h

/-- A transaction fails when its counter is not the one of its sender. -/
theorem failed_of_counter (hrun : applyTxEffects t transactionHash node b = (.ok o, b'))
    (hsender : b.ledger.account (b.ctx node) t.sender = some sender)
    (hcounter : t.counter ≠ sender.counter) : o.status = .failed ∧ o.logs = [] := by
  obtain ⟨g, l₀, h, l₁, e₀, e₁, hf⟩ := applyTxEffects_eq_ok hrun
  obtain ⟨-, -, sender', hsender', -, -, rfl⟩ := enter_eq_ok e₀
  obtain rfl : sender' = sender := Option.some.inj (hsender'.symm.trans hsender)
  have hg : (guards false t sender').status = .failed := by
    simp [guards, hcounter]
  obtain ⟨hstatus, hlogs⟩ := failed_runHandler _ _ _ hg l₀ trivial h l₁ e₁
  obtain ⟨h₁, b₁, balance, priced, b₂, inserted, account, -, -, -, -, hcase⟩ := finish_eq_ok hf
  rcases hcase with ⟨hcon, -⟩ | ⟨-, hc⟩
  · rw [hcon] at hstatus
    cases hstatus
  · rw [hc.outcome]
    exact ⟨rfl, hlogs⟩

theorem account_withRecipient {l : Ledger} {r : Recipient} {a : Bytes}
    (h : ∀ account, r = .fresh account → t.recipient ≠ a) :
    (l.withRecipient t r).account c a = l.account c a := by
  cases r with
  | none => rfl
  | held => rfl
  | fresh account =>
    have hins := Ledger.account_insert c l t.recipient a account
    rwa [if_neg (h account rfl)] at hins

/-- The deductions charge every account but a new one. -/
theorem account_of_deduct {counterMatched : Bool} {h : Handled} {s : FeeSettlement}
    {l l' : Ledger} (hd : deduct t counterMatched h s l = (.ok (), l')) {a : Bytes}
    (ha : ∀ account, h.recipient = .fresh account → t.recipient ≠ a) :
    l'.account c a = (l.account c a).map (chargedAccount t counterMatched s a) := by
  obtain ⟨l₁, haccount, -, rfl⟩ := deduct_eq_ok (c := c) hd
  exact (account_withRecipient ha).trans (haccount a)

/-- A transaction that succeeds uses up the counter of its sender. -/
theorem counter_used_of_success (hrun : applyTxEffects t transactionHash node b = (.ok o, b'))
    (hsender : b.ledger.account (b.ctx node) t.sender = some sender)
    (hcounter : t.counter = sender.counter) (hok : o.status = .success) :
    ∃ sender', b'.ledger.account (b.ctx node) t.sender = some sender' ∧
      sender.counter < sender'.counter := by
  obtain ⟨g, l₀, h, l₁, e₀, e₁, hf⟩ := applyTxEffects_eq_ok hrun
  obtain ⟨-, hread, s₀, hs₀, -, -, rfl⟩ := enter_eq_ok e₀
  obtain rfl : s₀ = sender := Option.some.inj (hs₀.symm.trans hsender)
  obtain ⟨h₁, b₁, balance, priced, b₂, inserted, account, -, -, -, -, hcase⟩ := finish_eq_ok hf
  rcases hcase with ⟨-, -, -, -, -, -, hc⟩ | ⟨-, hc⟩
  · -- the handler has not lowered the counter, and the deductions raise it
    have hgrows := (grows_runHandler (grows_applyNested b.pendingBloomKeys node.fuel) false
      b.pendingBloomKeys transactionHash).of_ok e₁
    obtain ⟨s₁, hs₁, hle⟩ := hgrows t.sender s₀ ((hread.account _).trans hsender)
    have hfresh := fresh_runHandler _ _ _ _ l₀ trivial h l₁ e₁
    have hafter := account_of_deduct (c := b.ctx node) hc.deducted
      (fun account hr => (hfresh account hr).1)
    refine ⟨_, hafter.trans (congrArg (Option.map _) hs₁), ?_⟩
    rw [chargedAccount, guards_counterMatched]
    simp only [hcounter, decide_true, and_self, if_true]
    omega
  · rw [hc.outcome] at hok
    cases hok

/-- A transaction whose counter is the one of its sender uses it up. -/
theorem counter_used (hrun : applyTxEffects t transactionHash node b = (.ok o, b'))
    (hsender : b.ledger.account (b.ctx node) t.sender = some sender)
    (hcounter : t.counter = sender.counter) :
    ∃ sender', b'.ledger.account (b.ctx node) t.sender = some sender' ∧
      t.counter < sender'.counter := by
  cases hstatus : o.status with
  | success =>
    rw [hcounter]
    exact counter_used_of_success hrun hsender hcounter hstatus
  | failed =>
    obtain ⟨s, paid, receipt, hs, -, -, -, hfrom⟩ := failedFrom_of_failed hrun hstatus
    obtain rfl : s = sender := Option.some.inj (hs.symm.trans hsender)
    refine ⟨_, (hfrom.account t.sender).trans (by rw [hsender]; rfl), ?_⟩
    simp only [hcounter, decide_true, and_self, if_true]
    omega

end Counter

section Runs

variable {b b' : Block} {trace : List Application}

/-- The application changed nothing but what a transaction that gets no further pays and leaves on
record. -/
def Application.FeesOnly (e : Application) : Prop :=
  e.outcome.status = .failed ∧ ∃ receipt, receipt.status = .failed ∧ receipt.mint = 0 ∧
    FailedFrom (e.before.ctx e.node) e.t e.transactionHash
      (receipt.transactionFee + receipt.dataFee + receipt.storageFee) false receipt [] e.before
      e.after

/-- The counter `n` of the account at `a` is used up. -/
def Block.CounterUsed (b : Block) (a : Bytes) (n : Int) : Prop :=
  ∃ account, b.account a = some account ∧ n < account.counter

theorem counterUsed_of_grows {c : Ctx} {a : Bytes} {n : Int} (hc : c.header = b.header)
    (hheader : b'.header = b.header) (h : b.ledger.Grows c b'.ledger) (hb : b.CounterUsed a n) :
    b'.CounterUsed a n := by
  obtain ⟨account, ha, hn⟩ := hb
  have hview : b.ledger.account c a = some account := by rw [Ledger.account, hc]; exact ha
  obtain ⟨account', ha', hle⟩ := h a account hview
  refine ⟨account', ?_, hn.trans_le hle⟩
  rw [Block.account, hheader, ← hc]
  exact ha'

/-- No transaction makes a counter usable again. -/
theorem counterUsed_applyTxEffects {t : Transaction} {transactionHash : Bytes} {node : Node}
    {r : Py Outcome} {a : Bytes} {n : Int}
    (hrun : applyTxEffects t transactionHash node b = (r, b')) (hb : b.CounterUsed a n) :
    b'.CounterUsed a n := by
  have hgrows := @grown_applyTxEffects t transactionHash node b
  rw [hrun] at hgrows
  exact counterUsed_of_grows rfl ((header_applyTxEffects node).of_ok hrun) hgrows hb

theorem counterUsed_opens {a : Bytes} {n : Int} (h : b.Opens b') (hb : b.CounterUsed a n) :
    b'.CounterUsed a n := by
  obtain ⟨account, ha, hn⟩ := hb
  obtain ⟨account', ha', hcounter⟩ := h a account ha
  exact ⟨account', ha', hcounter ▸ hn⟩

/-- A counter that is not the one of the sender leaves a transaction nothing but fees. -/
theorem feesOnly_of_counter {node : Node} {t : Transaction} {transactionHash : Bytes} {o : Outcome}
    {sender : Account} (hrun : applyTxEffects t transactionHash node b = (.ok o, b'))
    (hsender : b.account t.sender = some sender) (hcounter : t.counter ≠ sender.counter) :
    Application.FeesOnly ⟨node, t, transactionHash, b, o, b'⟩ := by
  obtain ⟨hstatus, hlogs⟩ := failed_of_counter hrun hsender hcounter
  obtain ⟨s, paid, receipt, hs, hr, hmint, hpaid, hfrom⟩ := failedFrom_of_failed hrun hstatus
  obtain rfl : s = sender := Option.some.inj (hs.symm.trans hsender)
  refine ⟨hstatus, receipt, hr, hmint, ?_⟩
  rw [hpaid, hlogs, decide_eq_false hcounter] at hfrom
  exact hfrom

/-- Once a counter is used up, every transaction with it changes only fees. -/
theorem feesOnly_of_counterUsed {a : Bytes} {n : Int} (hrun : Run b trace b')
    (hb : b.CounterUsed a n) :
    ∀ e ∈ trace, e.t.sender = a → e.t.counter = n → e.FeesOnly := by
  induction hrun with
  | stop b => simp
  | applied h rest ih =>
    refine List.forall_mem_cons.mpr ⟨?_, ih (counterUsed_applyTxEffects h hb)⟩
    rintro rfl rfl
    obtain ⟨account, ha, hn⟩ := hb
    exact feesOnly_of_counter h ha hn.ne
  | raised h rest ih => exact ih (counterUsed_applyTxEffects h hb)
  | opened h rest ih => exact ih (counterUsed_opens h hb)

end Runs

end Astreum
