import Astreum.Pricing

namespace Astreum

variable {c : Ctx} {t : Transaction} {transactionHash : Bytes} {b b' : Block}

theorem onLedger_eq_ok {α : Type} {x : Stateful Ledger α} {a : α} :
    onLedger x b = (.ok a, b') ↔ ∃ l, x b.ledger = (.ok a, l) ∧ b' = { b with ledger := l } :=
  Eff.zoom_eq_ok

theorem onLedger_spec {α : Type} {x : Stateful Ledger α} {P : Ledger → Prop}
    {Q : α → Ledger → Prop} {E : PyError → Ledger → Prop} (hx : Eff.Spec P x Q E) :
    Eff.Spec (fun b => P b.ledger) (onLedger x) (fun a b => Q a b.ledger) fun e b => E e b.ledger :=
  Eff.Spec.zoom (fun _ _ => rfl) hx

section Enter

variable {nested : Bool} {g : Guarded} {l l' : Ledger}

/-- The involved set that a transaction starts with. -/
def Ledger.entered (nested : Bool) (l : Ledger) : Ledger :=
  { l with involved := if nested then l.involved else [] }

/-- A transaction that gets past the entry has a sender, and has only read the accounts. -/
theorem enter_eq_ok (h : enter c nested t l = (.ok g, l')) :
    t.chainId = c.header.chainId ∧ (l.entered nested).Read c l' ∧
      ∃ sender, l.account c t.sender = some sender ∧ l'.cache.get? t.sender = some sender ∧
        (nested = false → 1 ≤ sender.balance ∨ t.code ∈ creditFundingCodes) ∧
        g = guards nested t sender := by
  rw [enter] at h
  split at h
  · cases h
  · rename_i hchain
    rw [Eff.update_bind] at h
    obtain ⟨r, l₂, h₂, h⟩ := Eff.bind_eq_ok.mp h
    obtain ⟨hr, hread, hcached⟩ := getAccount_eq_ok h₂
    rcases r with _ | sender
    · cases h
    · obtain ⟨s, l₃, h₃, h⟩ := Eff.bind_eq_ok.mp h
      obtain ⟨-, hread', -⟩ := getAccount_eq_ok h₃
      split at h
      · cases h
      · rename_i hpoor
        obtain ⟨hg, rfl⟩ := Prod.mk.inj h
        refine ⟨not_not.mp hchain, hread.trans hread', sender, hr.symm,
          hread'.cached _ _ hcached, fun hn => ?_, (Except.ok.inj hg).symm⟩
        by_contra hcon
        push Not at hcon
        exact hpoor ⟨by simp [hn], by omega, hcon.2⟩

/-- A nested transaction that succeeds has gone in and through its handler, has taken the amount
from its sender, and has put its recipient back. -/
theorem applyNestedWith_steps {keys : List Bytes} {apply : NestedApply} {o : Outcome}
    (h : applyNestedWith c keys apply t transactionHash l = (.ok o, l'))
    (ho : o.status = .success) :
    ∃ g l₁ handled l₂ l₃ l₄, enter c true t l = (.ok g, l₁) ∧
      runHandler c t true keys apply transactionHash g l₁ = (.ok handled, l₂) ∧
      handled.status = .success ∧ addBalance t.sender (-handled.transferAmount) l₂ = (.ok (), l₃) ∧
      setRecipient t handled.recipient l₃ = (.ok (), l₄) ∧ involve t.sender l₄ = (.ok (), l') := by
  obtain ⟨g, l₁, h₁, hr⟩ := Eff.bind_eq_ok.mp h
  obtain ⟨handled, l₂, h₂, hr₂⟩ := Eff.bind_eq_ok.mp hr
  obtain ⟨logs, -, hr₃⟩ := Eff.ofExcept_bind_eq_ok.mp hr₂
  obtain ⟨fresh, -, hr₄⟩ := Eff.ofExcept_bind_eq_ok.mp hr₃
  obtain ⟨_, l₃, h₃, hr₅⟩ := Eff.bind_eq_ok.mp hr₄
  obtain ⟨_, l₄, h₄, hr₆⟩ := Eff.bind_eq_ok.mp hr₅
  obtain ⟨_, l₅, h₅, hr₇⟩ := Eff.bind_eq_ok.mp hr₆
  obtain ⟨hout, rfl⟩ := Prod.mk.inj hr₇
  have hs : handled.status = .success := by
    obtain rfl := Except.ok.inj hout
    simp only at ho
    split at ho
    · cases ho
    · exact ho
  exact ⟨g, l₁, handled, l₂, l₃, l₄, h₁, h₂, hs, h₃, h₄, h₅⟩

end Enter

section Records

/-- The parts of a block that no bloom insertion touches. -/
def Block.outsideBloom (b : Block) : Header × Ledger × List Transaction × List Receipt × Tree :=
  (b.header, b.ledger, b.transactions, b.receipts, b.receiptsTrie)

/-- The insertion that `elements` make. -/
def Block.insertion (b : Block) (elements : List Bytes) : BloomInsert :=
  ⟨Python.floorMod b.header.height 1024, elements⟩

theorem bloomInsert_eq_ok {elements : List Bytes} :
    bloomInsert elements b = (.ok (), b') ↔ ∃ inserted, b.bloomTree = some inserted ∧
      b' = { b with bloomTree := some (inserted ++ [b.insertion elements]) } := by
  rw [bloomInsert, Eff.read_bind]
  rcases b.bloomTree with _ | inserted
  · simp
  · simp [eq_comm, Block.insertion]

theorem keeps_bloomInsert (elements : List Bytes) :
    Eff.Keeps (fun b b' => b'.outsideBloom = b.outsideBloom) (bloomInsert elements) := by
  intro b
  rw [bloomInsert, Eff.read_bind]
  rcases b.bloomTree with _ | inserted <;> rfl

theorem keeps_insertInvolved (batches : List (Bytes × List Bytes)) :
    Eff.Keeps (fun b b' => b'.outsideBloom = b.outsideBloom) (insertInvolved batches) := by
  induction batches with
  | nil => exact Eff.Keeps.pure ()
  | cons batch batches ih =>
    exact (keeps_bloomInsert _).bind fun _ => Eff.Keeps.bind (fun _ => rfl) fun _ => ih

theorem keeps_finalizePendingBloomInserts (status : Status) (keys inserts : List Bytes) :
    Eff.Keeps (fun b b' => b'.outsideBloom = b.outsideBloom)
      (finalizePendingBloomInserts status keys inserts) := by
  rw [finalizePendingBloomInserts]
  refine Eff.Keeps.ite (Eff.Keeps.pure ()) ?_
  exact (keeps_bloomInsert _).bind fun _ => fun _ => rfl

end Records

section Conclude

variable {h : Handled} {priced : Priced} {counterMatched : Bool} {o : Outcome}

/-- The logs that go on record. -/
def keptLogs (h : Handled) (logsExpr : Expr) : List Expr := if h.logs = [] then [] else [logsExpr]

theorem keepLogs_apply (h : Handled) (logsExpr : Expr) (l : Ledger) :
    keepLogs h logsExpr l =
      (.ok (), { l with pendingExprs := l.pendingExprs ++ keptLogs h logsExpr }) := by
  rw [keepLogs, keptLogs]
  split
  · simp
  · rfl

/-- What the last stage leaves: the deductions, the records, and for a failed transaction no bloom
insertion. -/
structure Concluded (t : Transaction) (transactionHash : Bytes) (counterMatched : Bool)
    (h : Handled) (priced : Priced) (status : Status) (s : FeeSettlement) (receipt : Receipt)
    (b b' : Block) (o : Outcome) : Prop where
  outcome : o = ⟨status, receipt.executionFee, 0, h.logs⟩
  header : b'.header = b.header
  deducted : deduct t counterMatched h s
    { b.ledger with pendingExprs := b.ledger.pendingExprs ++ keptLogs h priced.logsExpr } =
      (.ok (), b'.ledger)
  transactions : b'.transactions = b.transactions ++ [t]
  receipts : b'.receipts = b.receipts ++ [receipt]
  receiptsTrie :
    putInRadixTree b.receiptsTrie transactionHash (.expr receipt.expr) = .ok b'.receiptsTrie
  bloom : status = .failed → b'.bloomTree = b.bloomTree ∧
    b'.pendingBloomKeys = b.pendingBloomKeys ∧ b'.involvedAccounts = b.involvedAccounts

/-- A failed transaction inserts nothing after its search elements. -/
theorem bloom_of_failed {batches : List (Bytes × List Bytes)} {b₁ b₂ : Block}
    {keys inserts : List Bytes} {l : Ledger}
    (h₁ : finalizePendingBloomInserts .failed keys inserts b = (.ok (), b₁))
    (h₂ : insertInvolved (if Status.failed = .success then batches else [])
      { b₁ with ledger := l } = (.ok (), b₂)) : b₂ = { b with ledger := l } := by
  rw [finalizePendingBloomInserts, if_pos (.inl (by simp))] at h₁
  obtain ⟨-, rfl⟩ := Prod.mk.inj h₁
  rw [if_neg (by simp)] at h₂
  exact (Prod.mk.inj h₂).2.symm

theorem conclude_eq_ok (hc : conclude t transactionHash counterMatched h priced b = (.ok o, b')) :
    ∃ sender status s receipt, b.ledger.cache.get? t.sender = some sender ∧
      settle transactionHash sender.balance h priced.receipt = (status, s, receipt) ∧
      Concluded t transactionHash counterMatched h priced status s receipt b b' o := by
  obtain ⟨sender, b₁, h₁, hc⟩ := Eff.bind_eq_ok.mp hc
  obtain ⟨l₁, e₁, rfl⟩ := onLedger_eq_ok.mp h₁
  obtain ⟨hsender, rfl⟩ := held_eq_ok.mp e₁
  rcases hs : settle transactionHash sender.balance h priced.receipt with ⟨status, s, receipt⟩
  simp only [hs] at hc
  refine ⟨sender, status, s, receipt, hsender, hs, ?_⟩
  obtain ⟨_, b₂, h₂, hc⟩ := Eff.bind_eq_ok.mp hc
  obtain ⟨_, b₃, h₃, hc⟩ := Eff.bind_eq_ok.mp hc
  obtain ⟨l₃, e₃, rfl⟩ := onLedger_eq_ok.mp h₃
  rw [keepLogs_apply] at e₃
  obtain ⟨-, rfl⟩ := Prod.mk.inj e₃
  obtain ⟨_, b₄, h₄, hc⟩ := Eff.bind_eq_ok.mp hc
  obtain ⟨_, b₅, h₅, hc⟩ := Eff.bind_eq_ok.mp hc
  obtain ⟨l₅, e₅, rfl⟩ := onLedger_eq_ok.mp h₅
  obtain ⟨_, b₆, h₆, hc⟩ := Eff.bind_eq_ok.mp hc
  obtain ⟨ho, rfl⟩ := Prod.mk.inj hc
  simp only [record, Eff.update_bind, Eff.read_bind] at h₆
  obtain ⟨trie, b₇, h₇, h₆⟩ := Eff.bind_eq_ok.mp h₆
  obtain ⟨htrie, rfl⟩ := Prod.mk.inj h₇
  obtain ⟨-, rfl⟩ := Prod.mk.inj h₆
  -- the bloom insertions leave the rest of the block
  have k₂ := (keeps_finalizePendingBloomInserts _ _ _).of_ok h₂
  have k₄ := (keeps_insertInvolved _).of_ok h₄
  simp only [Block.outsideBloom, Prod.mk.injEq] at k₂ k₄
  obtain ⟨header₂, ledger₂, transactions₂, receipts₂, trie₂⟩ := k₂
  obtain ⟨header₄, ledger₄, transactions₄, receipts₄, trie₄⟩ := k₄
  refine ⟨(Except.ok.inj ho).symm, header₄.trans header₂, ?_, ?_, ?_, ?_, ?_⟩
  · rwa [ledger₄, ledger₂] at e₅
  · simp only [transactions₄, transactions₂]
  · simp only [receipts₄, receipts₂]
  · simpa only [trie₄, trie₂] using htrie
  · rintro rfl
    have hb := bloom_of_failed h₂ h₄
    subst hb
    exact ⟨rfl, rfl, rfl⟩

end Conclude

section Finish

variable {h h' : Handled} {snapshot : Ledger} {counterMatched : Bool} {o : Outcome}

/-- The locals after a rollback. -/
def Handled.rolledBack (h : Handled) : Handled :=
  { h with status := .failed, transferAmount := 0, recipient := .none }

theorem Status.eq_failed_of_ne {s : Status} (h : s ≠ .success) : s = .failed := by
  cases s with
  | success => exact absurd rfl h
  | failed => rfl

theorem rollbackFailed_eq_ok (hr : rollbackFailed snapshot h b = (.ok h', b')) :
    (h.status = .success ∧ h' = h ∧ b' = b) ∨
      (h.status = .failed ∧ h' = h.rolledBack ∧ b' = { b with ledger := snapshot }) := by
  rw [rollbackFailed] at hr
  split at hr
  · obtain ⟨hh, rfl⟩ := Prod.mk.inj hr
    exact .inl ⟨‹_›, (Except.ok.inj hh).symm, rfl⟩
  · obtain ⟨hh, rfl⟩ := Prod.mk.inj hr
    exact .inr ⟨Status.eq_failed_of_ne ‹_›, (Except.ok.inj hh).symm, rfl⟩

theorem rollbackLate_eq_ok {late : Status}
    (hr : rollbackLate snapshot late h b = (.ok h', b')) :
    (late = .success ∧ h' = { h with status := .success } ∧ b' = b) ∨
      (late = .failed ∧ h.status = .failed ∧ h' = { h with status := .failed } ∧ b' = b) ∨
      (late = .failed ∧ h.status = .success ∧ h' = h.rolledBack ∧
        b' = { b with ledger := snapshot }) := by
  rw [rollbackLate] at hr
  split at hr
  · rename_i hlate
    obtain ⟨hh, rfl⟩ := Prod.mk.inj hr
    cases late with
    | success => exact .inl ⟨rfl, (Except.ok.inj hh).symm, rfl⟩
    | failed => exact .inr (.inl ⟨rfl, by simpa using hlate, (Except.ok.inj hh).symm, rfl⟩)
  · rename_i hlate
    obtain ⟨hh, rfl⟩ := Prod.mk.inj hr
    have hs : h.status = .success := by
      by_contra hcon
      exact hlate (.inr (Status.eq_failed_of_ne hcon))
    have hl : late = .failed := Status.eq_failed_of_ne fun hcon => hlate (.inl hcon)
    exact .inr (.inr ⟨hl, hs, (Except.ok.inj hh).symm, rfl⟩)

/-- The elements under which a transaction can be found. -/
def Transaction.searchElements (t : Transaction) (transactionHash : Bytes) : List Bytes :=
  makeSearchVariants (some transactionHash) t.sender t.recipient zero32

/-- The block with the search elements inserted. -/
def Block.searchable (b : Block) (inserted : List BloomInsert) (t : Transaction)
    (transactionHash : Bytes) : Block :=
  { b with bloomTree := some (inserted ++ [b.insertion (t.searchElements transactionHash)]) }

theorem priceOnBlock_eq_ok {balance : Int} {priced : Priced}
    (hp : priceOnBlock t transactionHash h c b = (.ok (balance, priced), b')) :
    ∃ inserted sender, b.bloomTree = some inserted ∧
      b.ledger.cache.get? t.sender = some sender ∧ balance = sender.balance ∧
      priceTransaction c t transactionHash h balance b.ledger.involved b.involvedAccounts =
        .ok priced ∧
      b' = b.searchable inserted t transactionHash := by
  obtain ⟨_, b₁, h₁, hp⟩ := Eff.bind_eq_ok.mp hp
  obtain ⟨inserted, hi, rfl⟩ := bloomInsert_eq_ok.mp h₁
  rw [Eff.read_bind] at hp
  obtain ⟨sender, b₂, h₂, hp⟩ := Eff.bind_eq_ok.mp hp
  obtain ⟨l₂, e₂, rfl⟩ := onLedger_eq_ok.mp h₂
  obtain ⟨hsender, rfl⟩ := held_eq_ok.mp e₂
  obtain ⟨p, b₃, h₃, hp⟩ := Eff.bind_eq_ok.mp hp
  obtain ⟨hpriced, rfl⟩ := Prod.mk.inj h₃
  obtain ⟨hb, rfl⟩ := Prod.mk.inj hp
  obtain ⟨rfl, rfl⟩ := Prod.mk.inj (Except.ok.inj hb)
  exact ⟨inserted, sender, hi, hsender, rfl, hpriced, rfl⟩

/-- A receipt that the pricing made is the one of the settlement, or is made again. -/
theorem settle_eq (balance : Int) (final : Status) {receipt : Receipt} {status : Status}
    (hr : receipt = buildReceipt transactionHash (1 + h.evaluationFee) h.evaluationFee h.minted
      receipt.logsHash status receipt.storageFee) {s : FeeSettlement}
    (hs : s = settleFees balance (1 + h.evaluationFee) 0 receipt.storageFee h.transferAmount)
    (hf : final = if s.affordable then h.status else .failed) :
    settle transactionHash balance h receipt = (final, s, buildReceipt transactionHash
      s.transactionFee (min h.evaluationFee s.transactionFee) h.minted receipt.logsHash final
      s.storageFee) := by
  simp only [settle, ← hs, ← hf]
  split
  · rfl
  · rename_i hsame
    simp only [not_or, not_not] at hsame
    obtain ⟨hstatus, htx, -, hstorage⟩ := hsame
    have hfinal : status = final := by
      rw [hr] at hstatus
      exact hstatus
    rw [htx, hstorage, min_eq_left (by omega), ← hfinal, ← hr]

/-- A transaction that was settled for `sender` and `priced` from the block `b`. -/
def Settled (t : Transaction) (transactionHash : Bytes) (counterMatched : Bool) (h : Handled)
    (priced : Priced) (sender : Account) (status : Status) (b b' : Block) (o : Outcome) : Prop :=
  let s := settleFees sender.balance (1 + h.evaluationFee) 0 priced.receipt.storageFee
    h.transferAmount
  b.ledger.cache.get? t.sender = some sender ∧
    Concluded t transactionHash counterMatched h priced status s
      (buildReceipt transactionHash s.transactionFee (min h.evaluationFee s.transactionFee) h.minted
        priced.receipt.logsHash status s.storageFee) b b' o

/-- After a rollback the transaction is settled as a failed one. -/
theorem conclude_rolledBack {priced : Priced} {involved involvedAccounts : List Bytes}
    {h₁ : Handled} (hp : PricedAs c t transactionHash h₁ involved involvedAccounts priced)
    (hfee : h₁.evaluationFee = h.evaluationFee) (hmint : h₁.minted = h.minted)
    (hc : conclude t transactionHash counterMatched h.rolledBack priced b = (.ok o, b')) :
    ∃ sender, Settled t transactionHash counterMatched h.rolledBack priced sender .failed b b' o := by
  obtain ⟨sender, status, s, receipt, hsender, hs, hc⟩ := conclude_eq_ok hc
  have hreceipt := hp.receipt
  rw [hfee, hmint] at hreceipt
  have hset := settle_eq (h := h.rolledBack) sender.balance .failed
    hreceipt rfl (ite_self _).symm
  rw [hset] at hs
  simp only [Prod.mk.injEq] at hs
  obtain ⟨rfl, rfl, rfl⟩ := hs
  exact ⟨sender, hsender, hc⟩

/-- A transaction that goes through succeeds from the ledger that the handler left, or fails from
the ledger before the handler. -/
theorem finish_eq_ok (hf : finish t transactionHash snapshot counterMatched h c b = (.ok o, b')) :
    ∃ h₁ b₁ balance priced b₂ inserted sender,
      rollbackFailed snapshot h b = (.ok h₁, b₁) ∧
      priceOnBlock t transactionHash h₁ c b₁ = (.ok (balance, priced), b₂) ∧
      PricedAs c t transactionHash h₁ b₁.ledger.involved b₁.involvedAccounts priced ∧
      b.bloomTree = some inserted ∧
      ((h.status = .success ∧ h₁ = h ∧ b₁ = b ∧ priced.status = .success ∧
          1 + h.evaluationFee + h.transferAmount + priced.receipt.storageFee ≤ sender.balance ∧
          Settled t transactionHash counterMatched h priced sender .success
            (b.searchable inserted t transactionHash) b' o) ∨
        Settled t transactionHash counterMatched h.rolledBack priced sender .failed
          { b.searchable inserted t transactionHash with ledger := snapshot } b' o) := by
  obtain ⟨h₁, b₁, e₁, hf₁⟩ := Eff.bind_eq_ok.mp hf
  obtain ⟨⟨balance, priced⟩, b₂, e₂, hf₂⟩ := Eff.bind_eq_ok.mp hf₁
  obtain ⟨h₃, b₃, e₃, hf₃⟩ := Eff.bind_eq_ok.mp hf₂
  obtain ⟨inserted, sender₁, hins, hsender₁, hbalance, hpriced, rfl⟩ := priceOnBlock_eq_ok e₂
  have hp := pricedAs hpriced
  rcases rollbackFailed_eq_ok e₁ with ⟨hh, rfl, rfl⟩ | ⟨hh, rfl, rfl⟩
  · rcases rollbackLate_eq_ok e₃ with ⟨hl, rfl, rfl⟩ | ⟨-, hcon, -⟩ | ⟨hl, -, rfl, rfl⟩
    · -- no check failed
      have hh₁ : ({ h₁ with status := .success } : Handled) = h₁ := by rw [← hh]
      rw [hh₁] at hf₃
      rw [lateStatus] at hl
      split at hl
      · cases hl
      · rename_i hbal
        obtain ⟨sender, status, s, receipt, hsender, hs, hc⟩ := conclude_eq_ok hf₃
        obtain rfl : sender₁ = sender := Option.some.inj (hsender₁.symm.trans hsender)
        have hbal' : 1 + h₁.evaluationFee + h₁.transferAmount + priced.receipt.storageFee ≤
            sender₁.balance := by rw [← hbalance]; exact not_lt.mp hbal
        have hset := settle_eq sender₁.balance .success hp.receipt rfl
          (by rw [settleFees_affordable (by omega), hh]; rfl)
        rw [hset] at hs
        simp only [Prod.mk.injEq] at hs
        obtain ⟨rfl, rfl, rfl⟩ := hs
        exact ⟨h₁, b₁, _, priced, _, inserted, sender₁, e₁, e₂, hp, hins,
          .inl ⟨hh, rfl, rfl, hl, hbal', hsender₁, hc⟩⟩
    · rw [hh] at hcon
      cases hcon
    · -- a late check failed
      obtain ⟨sender, hs⟩ := conclude_rolledBack hp rfl rfl hf₃
      exact ⟨h₁, b₁, _, priced, _, inserted, sender, e₁, e₂, hp, hins, .inr hs⟩
  · have hlate : lateStatus balance h.rolledBack priced = .failed := by
      rw [lateStatus, hp.failed rfl, ite_self]
    rcases rollbackLate_eq_ok e₃ with ⟨hl, -⟩ | ⟨-, -, rfl, rfl⟩ | ⟨-, hcon, -⟩
    · cases hl.symm.trans hlate
    · obtain ⟨sender, hs⟩ := conclude_rolledBack (h := h) hp rfl rfl hf₃
      exact ⟨h.rolledBack, _, _, priced, _, inserted, sender, e₁, e₂, hp, hins, .inr hs⟩
    · cases hcon

end Finish

section Deduct

variable {h : Handled} {s : FeeSettlement} {counterMatched : Bool} {l l' : Ledger}

/-- What the deductions and the counter make of the account at `a`. -/
def chargedAccount (t : Transaction) (counterMatched : Bool) (s : FeeSettlement) (a : Bytes)
    (account : Account) : Account :=
  { account with
    balance := account.balance - (if a = t.sender then s.total else 0) +
      (if a = storageAddress then s.storageFee else 0)
    counter := account.counter + (if a = t.sender ∧ counterMatched then 1 else 0) }

theorem chargedAccount_comp (t : Transaction) (counterMatched : Bool) (s : FeeSettlement)
    (a : Bytes) (account : Account) :
    (if a = t.sender ∧ counterMatched then
        fun account : Account => { account with counter := account.counter + 1 } else id)
      ((if a = storageAddress then
          fun account : Account => { account with balance := account.balance + s.storageFee }
          else id)
        ((if a = t.sender then
          fun account : Account => { account with balance := account.balance + -s.total }
          else id) account)) = chargedAccount t counterMatched s a account := by
  rw [chargedAccount]
  split_ifs <;> simp_all [Int.sub_eq_add_neg]

/-- `setRecipient`, seen on the ledger. -/
def Ledger.withRecipient (l : Ledger) (t : Transaction) : Recipient → Ledger
  | .none => l
  | .held => { l with involved := l.involved.insert t.recipient }
  | .fresh account => { l with
    cache := l.cache.insert t.recipient account
    involved := l.involved.insert t.recipient }

theorem setRecipient_apply (r : Recipient) :
    setRecipient t r l = (.ok (), l.withRecipient t r) := by
  cases r <;> rfl

/-- The sender pays, the storage account takes the storage fee, and the recipient is set. -/
theorem deduct_eq_ok (hd : deduct t counterMatched h s l = (.ok (), l')) :
    ∃ l₁ : Ledger,
      (∀ a, l₁.account c a = (l.account c a).map (chargedAccount t counterMatched s a)) ∧
      l.OnlyCache l₁ ∧
      l' = { l₁.withRecipient t h.recipient with
        involved := ((l₁.withRecipient t h.recipient).involved.insert t.sender).insert
          storageAddress } := by
  obtain ⟨_, l₁, h₁, hd⟩ := Eff.bind_eq_ok.mp hd
  obtain ⟨_, l₂, h₂, hd⟩ := Eff.bind_eq_ok.mp hd
  obtain ⟨_, l₃, h₃, hd⟩ := Eff.bind_eq_ok.mp hd
  obtain ⟨_, l₄, h₄, hd⟩ := Eff.bind_eq_ok.mp hd
  rw [setRecipient_apply] at h₄
  obtain ⟨-, rfl⟩ := Prod.mk.inj h₄
  obtain ⟨-, rfl⟩ := Prod.mk.inj hd
  have hbump : (∀ a, l₃.account c a = (l₂.account c a).map
      (if a = t.sender ∧ counterMatched then
        fun account => { account with counter := account.counter + 1 } else id)) ∧
      l₂.OnlyCache l₃ := by
    rw [bumpCounter] at h₃
    split at h₃
    · rename_i hc
      exact ⟨fun a => by simpa [hc] using account_of_mutate h₃ a, rest_of_mutate h₃⟩
    · rename_i hc
      obtain ⟨-, rfl⟩ := Prod.mk.inj h₃
      exact ⟨fun a => by simp [hc], rfl⟩
  refine ⟨l₃, fun a => ?_, ?_, rfl⟩
  · rw [hbump.1, account_of_mutate h₂, account_of_mutate h₁, Option.map_map, Option.map_map]
    congr 1
    funext account
    exact chargedAccount_comp t counterMatched s a account
  · exact ((rest_of_mutate h₁).trans (rest_of_mutate h₂)).trans hbump.2

end Deduct

end Astreum
