import Astreum.Finish

namespace Astreum

variable {t : Transaction} {transactionHash : Bytes} {node : Node} {b b' : Block} {o : Outcome}

/-- What a block applies its transactions with. -/
def Block.ctx (b : Block) (node : Node) : Ctx := ⟨node, b.header⟩

/-- A nested transaction of a block. -/
def Block.nestedApply (b : Block) (node : Node) : NestedApply :=
  applyNested (b.ctx node) b.pendingBloomKeys node.fuel

/-- The three stages of a transaction. -/
theorem applyTxEffects_eq_ok (h : applyTxEffects t transactionHash node b = (.ok o, b')) :
    ∃ g l₀ handled l₁, enter (b.ctx node) false t b.ledger = (.ok g, l₀) ∧
      runHandler (b.ctx node) t false b.pendingBloomKeys (b.nestedApply node) transactionHash g l₀ =
        (.ok handled, l₁) ∧
      finish t transactionHash l₀ g.counterMatched handled (b.ctx node) { b with ledger := l₁ } =
        (.ok o, b') := by
  rw [applyTxEffects, Eff.read_bind] at h
  obtain ⟨g, b₀, h₀, h⟩ := Eff.bind_eq_ok.mp h
  obtain ⟨l₀, e₀, rfl⟩ := onLedger_eq_ok.mp h₀
  rw [Eff.read_bind] at h
  obtain ⟨handled, b₁, h₁, h⟩ := Eff.bind_eq_ok.mp h
  obtain ⟨l₁, e₁, rfl⟩ := onLedger_eq_ok.mp h₁
  exact ⟨g, l₀, handled, l₁, e₀, e₁, h⟩

/-- The fees that a transaction owes once its parts are priced. -/
def feesOwed (t : Transaction) (transactionHash : Bytes) (node : Node) : Stateful Block Int := do
  let b ← Eff.read
  let g ← onLedger (enter (b.ctx node) false t)
  let snapshot := (← Eff.read).ledger
  let h ← onLedger <| runHandler (b.ctx node) t false b.pendingBloomKeys (b.nestedApply node)
    transactionHash g
  let h ← rollbackFailed snapshot h
  let priced ← priceOnBlock t transactionHash h (b.ctx node)
  return 1 + h.evaluationFee + priced.2.receipt.storageFee

/-- The block `b` with a failed transaction: the sender has paid `paid`, the storage account has the
storage fee of the receipt, a counter that `matched` is used up, and the transaction, its receipt,
its `logs` and its search elements are on record. -/
structure FailedFrom (c : Ctx) (t : Transaction) (transactionHash : Bytes) (paid : Int)
    (matched : Bool) (receipt : Receipt) (logs : List Expr) (b b' : Block) : Prop where
  account : ∀ a, b'.ledger.account c a = (b.ledger.account c a).map fun account =>
    { account with
      balance := account.balance - (if a = t.sender then paid else 0) +
        (if a = storageAddress then receipt.storageFee else 0)
      counter := account.counter + (if a = t.sender ∧ matched then 1 else 0) }
  involved : b'.ledger.involved = ([t.sender] : List Bytes).insert storageAddress
  pendingExprs : b'.ledger.pendingExprs =
    b.ledger.pendingExprs ++ if logs = [] then [] else [exprsToLinkedExpr logs]
  globalLoaned : b'.ledger.globalLoaned = b.ledger.globalLoaned
  globalDefaulted : b'.ledger.globalDefaulted = b.ledger.globalDefaulted
  globalLoanCount : b'.ledger.globalLoanCount = b.ledger.globalLoanCount
  storageVotes : b'.ledger.storageVotes = b.ledger.storageVotes
  storageClaimCount : b'.ledger.storageClaimCount = b.ledger.storageClaimCount
  header : b'.header = b.header
  transactions : b'.transactions = b.transactions ++ [t]
  receipts : b'.receipts = b.receipts ++ [receipt]
  receiptsTrie : b'.receiptsTrie = b.receiptsTrie.insert transactionHash (.expr receipt.expr)
  bloomTree : ∃ inserted, b.bloomTree = some inserted ∧
    b'.bloomTree = some (inserted ++ [b.insertion (t.searchElements transactionHash)])
  pendingBloomKeys : b'.pendingBloomKeys = b.pendingBloomKeys
  involvedAccounts : b'.involvedAccounts = b.involvedAccounts

theorem guards_counterMatched (t : Transaction) (sender : Account) :
    (guards false t sender).counterMatched = decide (t.counter = sender.counter) := by
  simp only [guards, Bool.false_or, apply_ite Guarded.counterMatched, ite_self]

/-- The deductions of a failed transaction take its snapshot to the block it leaves. -/
theorem failedFrom_of_settled {c : Ctx} {snapshot : Ledger} {h : Handled} {priced : Priced}
    {matched : Bool} {inserted : List BloomInsert} {l₁ : Ledger}
    {receipt : Receipt} {s : FeeSettlement}
    (hread : (b.ledger.entered false).Read c snapshot)
    (hins : b.bloomTree = some inserted) (hlogs : priced.logsExpr = exprsToLinkedExpr h.logs)
    (hfee : receipt.storageFee = s.storageFee)
    (hc : Concluded t transactionHash matched h.rolledBack priced .failed s receipt
      { ({ b with ledger := l₁ } : Block).searchable inserted t transactionHash with
        ledger := snapshot } b' o) :
    FailedFrom c t transactionHash s.total matched receipt h.logs b b' := by
  obtain ⟨l, haccount, hrest, hledger⟩ := deduct_eq_ok (c := c) hc.deducted
  obtain ⟨htree, hkeys, hinvolved⟩ := hc.bloom rfl
  have hsnap : snapshot = { b.ledger.entered false with cache := snapshot.cache } := hread.rest
  have hlogs' : keptLogs h.rolledBack priced.logsExpr =
      if h.logs = [] then [] else [exprsToLinkedExpr h.logs] := by
    rw [keptLogs, hlogs]
    rfl
  have hlast : b'.ledger = { b.ledger with
      cache := l.cache
      involved := ([t.sender] : List Bytes).insert storageAddress
      pendingExprs := b.ledger.pendingExprs ++
        if h.logs = [] then [] else [exprsToLinkedExpr h.logs] } := by
    rw [hledger, hrest, hlogs', hsnap]
    rfl
  refine ⟨fun a => ?_, by rw [hlast], by rw [hlast], by rw [hlast], by rw [hlast], by rw [hlast],
    by rw [hlast], by rw [hlast], hc.header, hc.transactions, hc.receipts,
    putInRadixTree_eq_ok hc.receiptsTrie, ⟨inserted, hins, htree⟩, hkeys, hinvolved⟩
  have ha : b'.ledger.account c a = l.account c a := by rw [hlast]; rfl
  rw [ha, haccount, hfee]
  exact congrArg (Option.map (chargedAccount t matched s a)) (hread.account a)

/-- A failed transaction is settled from the ledger before its handler. -/
theorem failed_stages (hrun : applyTxEffects t transactionHash node b = (.ok o, b'))
    (hfail : o.status = .failed) :
    ∃ g l₀ h l₁ h₁ b₁ balance priced b₂ sender,
      enter (b.ctx node) false t b.ledger = (.ok g, l₀) ∧
      runHandler (b.ctx node) t false b.pendingBloomKeys (b.nestedApply node) transactionHash g l₀ =
        (.ok h, l₁) ∧
      rollbackFailed l₀ h { b with ledger := l₁ } = (.ok h₁, b₁) ∧
      priceOnBlock t transactionHash h₁ (b.ctx node) b₁ = (.ok (balance, priced), b₂) ∧
      PricedAs (b.ctx node) t transactionHash h₁ b₁.ledger.involved b₁.involvedAccounts priced ∧
      h₁.evaluationFee = h.evaluationFee ∧
      b.ledger.account (b.ctx node) t.sender = some sender ∧
      let s := settleFees sender.balance (1 + h.evaluationFee) 0 priced.receipt.storageFee 0
      FailedFrom (b.ctx node) t transactionHash s.total (t.counter = sender.counter)
        (buildReceipt transactionHash s.transactionFee (min h.evaluationFee s.transactionFee)
          h.minted priced.receipt.logsHash .failed s.storageFee) o.logs b b' := by
  obtain ⟨g, l₀, h, l₁, e₀, e₁, hf⟩ := applyTxEffects_eq_ok hrun
  obtain ⟨h₁, b₁, balance, priced, b₂, inserted, sender, e₂, e₃, hp, hins, hcase⟩ := finish_eq_ok hf
  obtain ⟨-, hread, sender', hsender', hcached, -, hg⟩ := enter_eq_ok e₀
  rcases hcase with ⟨-, -, -, -, -, -, hc⟩ | ⟨hsender, hc⟩
  · rw [hc.outcome] at hfail
    cases hfail
  · obtain rfl : sender = sender' := Option.some.inj (hsender.symm.trans hcached)
    rw [hg, guards_counterMatched] at hc
    have hsame : h₁.evaluationFee = h.evaluationFee ∧ h₁.logs = h.logs := by
      rcases rollbackFailed_eq_ok e₂ with ⟨-, rfl, -⟩ | ⟨-, rfl, -⟩ <;> exact ⟨rfl, rfl⟩
    have hlogs : o.logs = h.logs := by rw [hc.outcome]; rfl
    exact ⟨g, l₀, h, l₁, h₁, b₁, balance, priced, b₂, sender, e₀, e₁, e₂, e₃, hp, hsame.1, hsender',
      hlogs ▸ failedFrom_of_settled hread hins (hsame.2 ▸ hp.logsExpr) rfl hc⟩

/-- What a failed transaction leaves, with its receipt. -/
theorem failedFrom_of_failed (hrun : applyTxEffects t transactionHash node b = (.ok o, b'))
    (hfail : o.status = .failed) :
    ∃ sender paid receipt, b.ledger.account (b.ctx node) t.sender = some sender ∧
      receipt.status = .failed ∧ receipt.mint = 0 ∧
      paid = receipt.transactionFee + receipt.dataFee + receipt.storageFee ∧
      FailedFrom (b.ctx node) t transactionHash paid (t.counter = sender.counter) receipt o.logs
        b b' := by
  obtain ⟨_, _, h, _, _, _, _, priced, _, sender, -, -, -, -, -, -, hsender, hfrom⟩ :=
    failed_stages hrun hfail
  refine ⟨sender, _, buildReceipt transactionHash _ _ h.minted _ .failed _, hsender, rfl, rfl, ?_,
    hfrom⟩
  simp only [buildReceipt, Int.add_zero]
  exact settleFees_parts _ _ _

/-- A failed transaction keeps only what it pays and its records. -/
theorem failed_keeps_only_fees (hrun : applyTxEffects t transactionHash node b = (.ok o, b'))
    (hfail : o.status = .failed) :
    ∃ sender owed paid receipt, b.ledger.account (b.ctx node) t.sender = some sender ∧
      (feesOwed t transactionHash node b).1 = .ok owed ∧
      receipt.status = .failed ∧ receipt.mint = 0 ∧
      paid = receipt.transactionFee + receipt.dataFee + receipt.storageFee ∧
      ((∀ p, b.header.previousBlock = some p → 0 ≤ p.cumulativeStake) →
        paid = min (max 0 sender.balance) owed) ∧
      FailedFrom (b.ctx node) t transactionHash paid (t.counter = sender.counter) receipt o.logs
        b b' := by
  obtain ⟨g, l₀, h, l₁, h₁, b₁, balance, priced, b₂, sender, e₀, e₁, e₂, e₃, hp, hfee, hsender,
    hfrom⟩ := failed_stages hrun hfail
  have howed : (feesOwed t transactionHash node b).1 =
      .ok (1 + h.evaluationFee + priced.receipt.storageFee) := by
    rw [feesOwed, Eff.read_bind, Eff.bind_of_ok (onLedger_eq_ok.mpr ⟨l₀, e₀, rfl⟩), Eff.read_bind,
      Eff.bind_of_ok (onLedger_eq_ok.mpr ⟨l₁, e₁, rfl⟩), Eff.bind_of_ok e₂, Eff.bind_of_ok e₃,
      Eff.pure_apply, hfee]
  refine ⟨sender, _, _, buildReceipt transactionHash _ _ h.minted _ .failed _, hsender, howed,
    rfl, rfl, ?_, fun hs => settleFees_total sender.balance _ (hp.storageFee hs), hfrom⟩
  simp only [buildReceipt, Int.add_zero]
  exact settleFees_parts _ _ _

section Samples

/-- A node that has stored nothing. No run on it depends on which hash function it has, as long as
different cells get different hashes. -/
def bareNode : Node where
  blake3 := id
  stored _ := none
  openTree _ := .empty
  treeRoot _ := zero32
  treeCells _ := []
  verify _ _ _ := true
  fuel := 100

def firstHeader : Header where
  chainId := 0
  height := 1
  previousBlockHash := zero32
  previousBlock := none
  timestamp := none
  accountsTrie := .empty

/-- A block that starts from the accounts given. -/
def blockOf (accounts : List (Bytes × Account)) : Block where
  header := firstHeader
  ledger := ⟨accounts.foldl (fun d p => d.insert p.1 p.2) .empty, [], [], 0, 0, 0, 0, 0⟩
  bloomTree := some []
  pendingBloomKeys := []
  involvedAccounts := []
  transactions := []
  receipts := []
  receiptsTrie := .empty

def aliceAddress : Bytes := List.replicate 32 1

def bobAddress : Bytes := List.replicate 32 2

def aliceHash : Bytes := List.replicate 32 7

/-- A transaction of Alice without data. -/
def aliceSends (code : TransactionCode) (recipient : Bytes) (amount : Int) : Transaction where
  chainId := 0
  amount := amount
  code := code
  counter := 0
  costLimit := 0
  data := .nil
  recipient := recipient
  sender := aliceAddress
  signature := []
  hash := some aliceHash
  cell := none
  pendingBloomKeys := []
  pendingBloomInserts := []

/-- A block whose accounts are Alice's and the storage account. -/
def aliceBlock (balance : Int) : Block :=
  blockOf [(aliceAddress, createAccount balance zero32), (storageAddress, createAccount 0 zero32)]

end Samples

theorem failed_payment_of_alice :
    ∃ sender owed paid receipt,
      (aliceBlock 9).ledger.account ((aliceBlock 9).ctx bareNode) aliceAddress = some sender ∧
      (feesOwed (aliceSends .storagePayment storageAddress 0) aliceHash bareNode
        (aliceBlock 9)).1 = .ok owed ∧
      receipt.status = .failed ∧ receipt.mint = 0 ∧
      paid = receipt.transactionFee + receipt.dataFee + receipt.storageFee ∧
      ((∀ p, (aliceBlock 9).header.previousBlock = some p → 0 ≤ p.cumulativeStake) →
        paid = min (max 0 sender.balance) owed) ∧
      FailedFrom ((aliceBlock 9).ctx bareNode) (aliceSends .storagePayment storageAddress 0)
        aliceHash paid (0 = sender.counter) receipt []
        (aliceBlock 9) (applyTxEffects (aliceSends .storagePayment storageAddress 0) aliceHash
          bareNode (aliceBlock 9)).2 := by
  have hrun : (applyTxEffects (aliceSends .storagePayment storageAddress 0) aliceHash bareNode
      (aliceBlock 9)).1 = .ok ⟨.failed, 0, 0, []⟩ := by decide +kernel
  exact failed_keeps_only_fees (Eff.eq_of_fst hrun) rfl

/-- A sender that is in debt pays nothing, and not its negative balance. -/
theorem debtor_pays_nothing :
    let t := aliceSends .storagePayment storageAddress 0
    let run := applyTxEffects t aliceHash bareNode (aliceBlock (-5))
    run.1.map Outcome.status = .ok .failed ∧
      (feesOwed t aliceHash bareNode (aliceBlock (-5))).1 = .ok 1 ∧
      (run.2.ledger.cache.get? aliceAddress).map Account.balance = some (-5) ∧
      (-5 : Int) ≠ -5 - min (-5) 1 := by
  decide +kernel

end Astreum
