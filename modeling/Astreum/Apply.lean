import Astreum.Borrow
import Astreum.Channels
import Astreum.Evaluator
import Astreum.StorageContract

namespace Astreum

section Accounts

variable (c : Ctx)

/-- `handle_expression_account_create`. -/
def handleExpressionAccountCreate (t : Transaction) (transactionHash : Bytes) :
    Stateful Ledger Bool := do
  if c.node.tag t.data ≠ "link" then return false
  let some dataHead := t.data.head? | return false
  if c.node.tag dataHead ≠ "link" ∨ dataHead.headChild = .none then return false
  let programHash ← .ofExcept (getReferencedHash c.node dataHead)
  if t.recipient ≠ [] then return false
  if transactionHash.length ≠ 32 ∨ programHash.length ≠ 32 then return false
  if (← getAccount c transactionHash).isSome then return false
  setAccount transactionHash (createAccount t.amount programHash)
  return true

/-- What a run of a contract leaves besides the ledger. -/
structure CallResult where
  status : Status
  eval : Int
  logs : List Expr
  bloomKeys : List Bytes
  bloomInserts : List Bytes

/-- A call that runs nothing. -/
def noRun (t : Transaction) : CallResult :=
  ⟨.failed, 0, [], t.pendingBloomKeys, t.pendingBloomInserts⟩

/-- `machine.run` under `try`: a run that exceeds its meter or raises a `RuntimeError` is taken
back to the snapshot, every other exception goes on with the ledger as the run left it. -/
def runContract (call : Call) (apply : NestedApply) (program : Expr) (snapshot : Ledger) :
    Stateful Ledger CallResult := fun l =>
  let (result, m) := evaluation call apply call.ctx.node.fuel (link call.tx.data program)
    (newMachine l call.tx.costLimit call.tx)
  let left (status : Status) : CallResult :=
    ⟨status, m.core.meter.eval, m.logs, m.bloomKeys, m.bloomInserts⟩
  match result with
  | .ok () => (.ok (left .success), m.ledger)
  | .error .meterExceeded => (.ok (left .failed), snapshot)
  | .error .runtimeError => (.ok (left .failed), snapshot)
  | .error e => (.error e, m.ledger)

/-- The credit and the run, from the snapshot on. -/
def callProgram (call : Call) (apply : NestedApply) (program : Expr) :
    Stateful Ledger CallResult := do
  let snapshot ← .read
  addBalance call.tx.recipient call.tx.amount
  involve call.tx.recipient
  runContract call apply program snapshot

/-- `handle_expression_account_call`. -/
def handleExpressionAccountCall (call : Call) (apply : NestedApply) :
    Stateful Ledger CallResult := do
  let t := call.tx
  let some account ← getAccount call.ctx t.recipient | return noRun t
  if account.codeHash = zero32 then return noRun t
  let some program ← .ofExcept (getExprFull call.ctx.node account.codeHash) | return noRun t
  callProgram call apply program

end Accounts

section Guards

/-- Codes whose handler takes the amount for something else than a transfer. -/
def amountCodes : List TransactionCode :=
  [.channelWithdraw, .treasuryBorrow, .treasuryGuarantee, .treasuryBuy]

/-- `_CREDIT_FUNDING_CODES`. -/
def creditFundingCodes : List TransactionCode := [.storagePayment]

/-- What the guards before the handler decide. -/
structure Guarded where
  status : Status
  transferAmount : Int
  counterMatched : Bool
  deriving DecidableEq

/-- The base fee, which only a top-level transaction pays. -/
def baseFee (nested : Bool) : Int := if nested then 0 else 1

def maxExecutionFee (t : Transaction) : Int :=
  if t.code = .codeAccountCall then max 0 t.costLimit else 0

/-- The guards between the entry and the handler. A guard that fails leaves nothing to transfer. -/
def guards (nested : Bool) (t : Transaction) (sender : Account) : Guarded :=
  let counterMatched := nested || decide (t.counter = sender.counter)
  let amount := if t.code ∈ amountCodes then 0 else t.amount
  let offered : Int := if counterMatched then amount else 0
  let paysStorage : Bool := t.recipient = storageAddress ∧ t.code = .storageCreate ∧ 0 < offered
  let short : Bool :=
    if nested then sender.balance < (if paysStorage then 0 else offered)
    else t.code ∉ creditFundingCodes ∧
      sender.balance < baseFee nested + (if paysStorage then 0 else offered) + maxExecutionFee t
  if !counterMatched || paysStorage || short then ⟨.failed, 0, counterMatched⟩
  else ⟨.success, offered, counterMatched⟩

end Guards

/-- The local `recipient_account`: nothing, the account object that the recipient's address holds,
or a new account that no address holds yet. -/
inductive Recipient where
  | none
  | held
  | fresh (account : Account)
  deriving DecidableEq

/-- The local variables of `_apply_tx_effects` once the handler has run. -/
structure Handled where
  status : Status
  transferAmount : Int
  recipient : Recipient
  minted : Int
  evaluationFee : Int
  logs : List Expr
  bloomKeys : List Bytes
  bloomInserts : List Bytes

section Handlers

variable (c : Ctx) (t : Transaction)

/-- A handler that mints nothing and runs nothing. -/
def handled (status : Status) (transferAmount : Int) (recipient : Recipient) : Handled :=
  ⟨status, transferAmount, recipient, 0, 0, [], t.pendingBloomKeys, t.pendingBloomInserts⟩

def heldIf (account : Option Account) : Recipient := if account.isSome then .held else .none

/-- `_get_or_create_recipient_account`. -/
def getOrCreateRecipient : Stateful Ledger Recipient := do
  if t.recipient = t.sender then return .held
  if t.recipient = storageAddress then return heldIf ((← .read).cache.get? storageAddress)
  match ← getAccount c t.recipient with
  | none => return .fresh (createAccount 0 zero32)
  | some _ => return .held

/-- `recipient_account.balance += amount`. -/
def creditRecipient (recipient : Recipient) (amount : Int) : Stateful Ledger Recipient :=
  match recipient with
  | .none => .raise .attributeError
  | .held => do
    addBalance t.recipient amount
    return .held
  | .fresh account => return .fresh { account with balance := account.balance + amount }

def applyTransfer (g : Guarded) : Stateful Ledger Handled := do
  let recipient ← getOrCreateRecipient c t
  let recipient ← creditRecipient t recipient g.transferAmount
  return handled t g.status g.transferAmount recipient

/-- The counterparty and the new window that a channel update names. `channel_update_success` has
no value where they are not well formed. -/
def channelUpdateData : Py (Bytes × Val) := do
  let nodes := dataNodes c.node t.data
  let (window, counterparty) ← match nodes with
    | [counterparty] => .ok (Val.none, counterparty)
    | [window, counterparty] =>
      .ok (if c.node.tag window = "int" then window.value else .none, counterparty)
    | _ => .error .unboundLocalError
  if c.node.tag counterparty ≠ "bytes" then throw .unboundLocalError
  return (← counterparty.value.toBytes, window)

def applyChannelUpdate (g : Guarded) : Stateful Ledger Handled := do
  if t.recipient ≠ t.sender then return handled t .failed 0 .none
  if g.status ≠ .success then return handled t g.status g.transferAmount .held
  let (counterparty, window) ← .ofExcept (channelUpdateData c t)
  if ← handleChannelUpdate c t.sender counterparty window t.amount then
    return handled t .success g.transferAmount .held
  return handled t .failed 0 .held

def applyChannelWithdraw (g : Guarded) : Stateful Ledger Handled := do
  let recipient ← getAccount c t.recipient
  if g.status ≠ .success then return handled t g.status 0 (heldIf recipient)
  if recipient.isNone then return handled t .failed 0 .none
  if ← handleChannelWithdraw c t then return handled t .success 0 .held
  return handled t .failed 0 .held

def applyChannelClose (g : Guarded) : Stateful Ledger Handled := do
  if t.recipient ≠ t.sender then return handled t .failed 0 .none
  if g.status ≠ .success then return handled t g.status 0 .none
  let [.bytes counterparty] := dataNodes c.node t.data | return handled t .failed 0 .none
  if ← handleChannelClose c t.sender counterparty then return handled t .success 0 .none
  return handled t .failed 0 .none

/-- The stake of the sender, in the tree of the account that takes the deposit. -/
def depositRecord (recipient : Recipient) (amount : Int) : Stateful Ledger Bool :=
  match recipient with
  | .held => do
    let account ← held t.recipient
    let some record ← .ofExcept (loadUserRecord c.node account.data t.sender) | return false
    putUserRecord t.sender { record with balance := record.balance + amount }
    return true
  | _ => return false

def applyTreasuryDeposit (g : Guarded) : Stateful Ledger Handled := do
  let recipient ← getOrCreateRecipient c t
  if t.recipient ≠ treasuryAddress then return handled t g.status 0 recipient
  if g.status ≠ .success then return handled t g.status g.transferAmount recipient
  if ← depositRecord c t recipient g.transferAmount then
    let recipient ← creditRecipient t recipient g.transferAmount
    return handled t .success g.transferAmount recipient
  return handled t .failed 0 recipient

/-- The codes that hand everything to a treasury handler. `amount` is left to transfer when the
handler succeeds. -/
def applyTreasury (g : Guarded) (amount : Int) (handler : Stateful Ledger Status) :
    Stateful Ledger Handled := do
  let treasury ← getAccount c treasuryAddress
  if g.status ≠ .success then return handled t g.status 0 (heldIf treasury)
  match ← handler with
  | .success => return handled t .success amount (heldIf treasury)
  | .failed => return handled t .failed 0 (heldIf treasury)

/-- The list that a storage contract names, where its data is well formed. -/
def storageListNamed : Py Bool := do
  let [list] := dataNodes c.node t.data | return false
  if c.node.tag list ≠ "link" ∨ list.headChild = .none then return false
  let _ ← getReferencedHash c.node list
  return true

/-- The credit that the storage codes make for a positive amount. -/
def creditPositive (recipient : Recipient) (amount : Int) : Stateful Ledger Recipient :=
  if 0 < amount then creditRecipient t recipient amount else return recipient

def applyStorageCreate (g : Guarded) (nested : Bool) : Stateful Ledger Handled := do
  let recipient ← getOrCreateRecipient c t
  if t.recipient ≠ storageAddress then return handled t g.status 0 recipient
  if g.status ≠ .success ∨ 0 < g.transferAmount then return handled t .failed 0 recipient
  if !(← .ofExcept (storageListNamed c t)) then
    return handled t .failed g.transferAmount recipient
  match ← handleStorageInitialContract c t (baseFee nested + g.transferAmount) with
  | none => return handled t .failed g.transferAmount recipient
  | some _ => return handled t .success g.transferAmount recipient

/-- What the claims of a payment mint. -/
def paymentMinted (g : Guarded) : Stateful Ledger Int :=
  if g.status = .success then handleStoragePaymentContract c t else return 0

def applyStoragePayment (g : Guarded) : Stateful Ledger Handled := do
  let recipient ← getOrCreateRecipient c t
  if t.recipient ≠ storageAddress then return handled t g.status 0 recipient
  let minted ← paymentMinted c t g
  let status := if minted = 0 then .failed else g.status
  let recipient ← creditPositive t recipient g.transferAmount
  return { handled t status g.transferAmount recipient with minted := minted }

def applyStorageRemove (g : Guarded) : Stateful Ledger Handled := do
  let recipient ← getOrCreateRecipient c t
  return handled t g.status 0 recipient

def applyCodeAccountCreate (g : Guarded) (transactionHash : Bytes) : Stateful Ledger Handled := do
  if g.status ≠ .success then return handled t g.status 0 .none
  if ← handleExpressionAccountCreate c t transactionHash then
    return handled t .success g.transferAmount .none
  return handled t .failed 0 .none

def applyCodeAccountCall (g : Guarded) (blockBloomKeys : List Bytes) (apply : NestedApply) :
    Stateful Ledger Handled := do
  if g.status ≠ .success then return handled t g.status 0 .none
  let result ← handleExpressionAccountCall ⟨c, t, blockBloomKeys⟩ apply
  let after : Handled := ⟨result.status, 0, .none, 0, result.eval, result.logs, result.bloomKeys,
    result.bloomInserts⟩
  if result.status ≠ .success then return after
  let _ ← getAccount c t.sender
  let _ ← getAccount c storageAddress
  let recipient ← getAccount c t.recipient
  return { after with transferAmount := g.transferAmount, recipient := heldIf recipient }

/-- The `match` on the code. -/
def runHandler (nested : Bool) (blockBloomKeys : List Bytes) (apply : NestedApply)
    (transactionHash : Bytes) (g : Guarded) : Stateful Ledger Handled :=
  match t.code with
  | .transfer => applyTransfer c t g
  | .channelUpdate => applyChannelUpdate c t g
  | .channelWithdraw => applyChannelWithdraw c t g
  | .channelClose => applyChannelClose c t g
  | .treasuryDeposit => applyTreasuryDeposit c t g
  | .treasuryBorrow => applyTreasury c t g 0 (handleTreasuryBorrow c t transactionHash)
  | .treasuryRepay => applyTreasury c t g g.transferAmount (handleTreasuryRepay c t)
  | .treasuryClose => applyTreasury c t g g.transferAmount (handleTreasuryClose c t)
  | .treasuryGuarantee => applyTreasury c t g 0 (handleTreasuryGuarantee c t transactionHash)
  | .treasuryBuy => applyTreasury c t g 0 (handleTreasuryBuy c t)
  | .treasuryClaim => applyTreasury c t g g.transferAmount (handleTreasuryClaim c t)
  | .storageCreate => applyStorageCreate c t g nested
  | .storagePayment => applyStoragePayment c t g
  | .storageRemove => applyStorageRemove c t g
  | .codeAccountCreate => applyCodeAccountCreate c t g transactionHash
  | .codeAccountCall => applyCodeAccountCall c t g blockBloomKeys apply

end Handlers

section Nested

variable (c : Ctx)

/-- The accounts that every transaction starts with, and its guards. -/
def enter (nested : Bool) (t : Transaction) : Stateful Ledger Guarded := do
  if t.chainId ≠ c.header.chainId then .raise .valueError
  else
    -- only writes made by this transaction count as involved
    .update fun l => { l with involved := if nested then l.involved else [] }
    let some sender ← getAccount c t.sender | .raise .valueError
    let _ ← getAccount c storageAddress
    if !nested ∧ sender.balance < 1 ∧ t.code ∉ creditFundingCodes then .raise .valueError
    else return guards nested t sender

/-- `account.to_expr()` of a new account. -/
def newAccountExpr (a : Account) : Expr :=
  link (refTo zero32) <| link (int_ a.counter) <| link (refTo a.codeHash) <|
    link (refTo zero32) <| link (int_ a.balance) .nil

/-- What the logs cost, and whether they can be sized. -/
def logsFee (logs : List Expr) : Py (Option Int) :=
  if logs = [] then .ok (some 0) else storageWalkFee c (exprsToLinkedExpr logs) []

/-- What the cell of a new recipient costs, and whether it can be sized. -/
def recipientFee (recipient : Recipient) : Py (Option Int) :=
  match recipient with
  | .fresh account => storageWalkFee c (newAccountExpr account) []
  | _ => .ok (some 0)

/-- `block.accounts.set_account(transaction.recipient, recipient_account)`. -/
def setRecipient (t : Transaction) (recipient : Recipient) : Stateful Ledger Unit :=
  match recipient with
  | .none => return ()
  | .held => involve t.recipient
  | .fresh account => setAccount t.recipient account

/-- `_apply_tx_effects` with `nested=True`. What a failed one leaves is taken back by `tx.new`. -/
def applyNestedWith (blockBloomKeys : List Bytes) (apply : NestedApply) : NestedApply :=
  fun t transactionHash => do
    let g ← enter c true t
    let h ← runHandler c t true blockBloomKeys apply transactionHash g
    let logs ← .ofExcept (logsFee c h.logs)
    let fresh ← .ofExcept (recipientFee c h.recipient)
    addBalance t.sender (-h.transferAmount)
    setRecipient t h.recipient
    involve t.sender
    let status := if logs.isNone ∨ fresh.isNone then .failed else h.status
    return ⟨status, h.evaluationFee, logs.getD 0 + fresh.getD 0, h.logs⟩

/-- Nested transactions, to a depth. -/
def applyNested (blockBloomKeys : List Bytes) : Nat → NestedApply
  | 0 => fun _ _ => .raise .outOfFuel
  | n + 1 => applyNestedWith c blockBloomKeys (applyNested blockBloomKeys n)

end Nested

section Pricing

variable (c : Ctx) (t : Transaction) (transactionHash : Bytes)

def makeInvolvedVariants (transactionHash account : Bytes) : List Bytes :=
  let z := zero32
  let h := if transactionHash = [] then z else transactionHash
  [z ++ z ++ z ++ z ++ account, h ++ z ++ z ++ z ++ account]

def bytesLe : Bytes → Bytes → Bool
  | [], _ => true
  | _ :: _, [] => false
  | a :: as, b :: bs => if a = b then bytesLe as bs else decide (a < b)

/-- The accounts that a transaction involved besides those it names, each with the elements that
make it found. The element of the block is in the leaf once. -/
def involvedBatches (involved involvedAccounts : List Bytes) : List (Bytes × List Bytes) :=
  let others := involved.filter fun a =>
    a ∉ [t.sender, t.recipient, storageAddress, treasuryAddress]
  (others.mergeSort bytesLe).map fun a =>
    let elements := makeInvolvedVariants transactionHash a
    (a, if a ∈ involvedAccounts then elements.drop 1 else elements)

/-- `calculate_storage_fee` of the elements, batch by batch. -/
def batchesFee : List (Bytes × List Bytes) → Py Int
  | [] => return 0
  | (_, elements) :: batches => do
    let fee ← calculateStorageFee c.header (2 * elements.length)
    return fee + (← batchesFee batches)

def pendingBloomFee (status : Status) (keys : List Bytes) : Py Int :=
  if status ≠ .success ∨ keys = [] then .ok 0
  else calculateStorageFee c.header (8 * keys.length)

/-- A transaction that was priced. -/
structure Priced where
  status : Status
  batches : List (Bytes × List Bytes)
  logsExpr : Expr
  receipt : Receipt
  deriving DecidableEq

/-- The status and the storage fee while the parts are priced one after the other. -/
structure Running where
  status : Status
  storageFee : Int
  deriving DecidableEq

/-- A sender that cannot pay what is owed so far fails. -/
def Running.check (r : Running) (balance owed : Int) : Running :=
  if balance < owed + r.storageFee then { r with status := .failed } else r

/-- The fee of a part, which fails the transaction where it cannot be sized. -/
def Running.add (r : Running) (fee : Option Int) : Running :=
  match fee with
  | none => { r with status := .failed }
  | some fee => { r with storageFee := r.storageFee + fee }

def buildReceipt (txFee evaluationFee minted : Int) (logsHash : Bytes) (status : Status)
    (storageFee : Int) : Receipt where
  transactionHash := transactionHash
  transactionFee := txFee
  storageFee := storageFee
  dataFee := 0
  executionFee := evaluationFee
  status := status
  logsHash := logsHash
  mint := if status = .success then minted else 0

/-- Everything between the handler and the final checks: the parts that the sender pays storage
for, each with an affordability check, and the receipt. -/
def priceTransaction (h : Handled) (balance : Int) (involved involvedAccounts : List Bytes) :
    Py Priced := do
  let owed := 1 + h.evaluationFee + h.transferAmount
  let bloomFee ← calculateStorageFee c.header
    (2 * (makeSearchVariants (some transactionHash) t.sender t.recipient zero32).length)
  let batches := if h.status = .success then
    involvedBatches t transactionHash involved involvedAccounts else []
  let batchFee ← batchesFee c batches
  let r := (Running.mk h.status (bloomFee + batchFee)).check balance owed
  let keysFee ← pendingBloomFee c r.status h.bloomKeys
  let r := (r.add (some keysFee)).check balance owed
  let txFee ← storageWalkFee c t.expr []
  let r := r.add txFee
  let r := if txFee.isSome then r.check balance owed else r
  let logs ← logsFee c h.logs
  let r := r.add logs
  let r := if h.logs ≠ [] ∧ logs.isSome then r.check balance owed else r
  let fresh ← recipientFee c h.recipient
  let r := r.add fresh
  let logsExpr := exprsToLinkedExpr h.logs
  let logsHash ← c.node.hash? logsExpr
  let build := buildReceipt transactionHash (1 + h.evaluationFee) h.evaluationFee h.minted logsHash
  match ← receiptAtFixedPoint c (build r.status) r.storageFee [transactionHash, logsHash] with
  | some receipt => return ⟨r.status, batches, logsExpr, receipt⟩
  | none => return ⟨.failed, batches, logsExpr, build .failed r.storageFee⟩

end Pricing

section TopLevel

variable (t : Transaction) (transactionHash : Bytes)

/-- `block.bloom_tree.insert`. -/
def bloomInsert (elements : List Bytes) : Stateful Block Unit := do
  let b ← Eff.read
  match b.bloomTree with
  | none => .raise .attributeError
  | some inserted =>
    let insert : BloomInsert := ⟨Python.floorMod b.header.height 1024, elements⟩
    .write { b with bloomTree := some (inserted ++ [insert]) }

/-- `_rollback`: the ledger goes back to the snapshot, and nothing is transferred. -/
def rollback (snapshot : Ledger) (h : Handled) : Stateful Block Handled := do
  onLedger (.write snapshot)
  return { h with status := .failed, transferAmount := 0, recipient := .none }

/-- The final checks: what the sender pays, and the receipt that says so. -/
def settle (balance : Int) (h : Handled) (receipt : Receipt) : Status × FeeSettlement × Receipt :=
  let s := settleFees balance (1 + h.evaluationFee) 0 receipt.storageFee h.transferAmount
  let status := if s.affordable then h.status else .failed
  if receipt.status ≠ status ∨ s.transactionFee ≠ 1 + h.evaluationFee ∨ s.dataFee ≠ 0 ∨
      s.storageFee ≠ receipt.storageFee then
    (status, s, buildReceipt transactionHash s.transactionFee (min h.evaluationFee s.transactionFee)
      h.minted receipt.logsHash status s.storageFee)
  else (status, s, receipt)

/-- `finalize_pending_bloom_inserts`. -/
def finalizePendingBloomInserts (status : Status) (keys inserts : List Bytes) :
    Stateful Block Unit :=
  if status ≠ .success ∨ keys = [] then return ()
  else do
    bloomInsert inserts
    .update fun b => { b with
      pendingBloomKeys := b.pendingBloomKeys ++ keys.filter fun k => k ∉ b.pendingBloomKeys }

def insertInvolved : List (Bytes × List Bytes) → Stateful Block Unit
  | [] => return ()
  | (account, elements) :: batches => do
    bloomInsert elements
    .update fun b => { b with involvedAccounts := b.involvedAccounts.insert account }
    insertInvolved batches

/-- `account.counter += 1` for a counter that matched. -/
def bumpCounter (address : Bytes) (counterMatched : Bool) : Stateful Ledger Unit :=
  if counterMatched then
    mutate address fun account => { account with counter := account.counter + 1 }
  else return ()

/-- The deductions and the counter. -/
def deduct (counterMatched : Bool) (h : Handled) (s : FeeSettlement) : Stateful Ledger Unit := do
  addBalance t.sender (-s.total)
  addBalance storageAddress s.storageFee
  bumpCounter t.sender counterMatched
  setRecipient t h.recipient
  involve t.sender
  involve storageAddress

/-- The transaction and its receipt go on record. -/
def record (receipt : Receipt) : Stateful Block Unit := do
  .update fun b => { b with transactions := b.transactions ++ [t] }
  let b ← Eff.read
  let trie ← .ofExcept (putInRadixTree b.receiptsTrie transactionHash (.expr receipt.expr))
  .update fun b => { b with receiptsTrie := trie, receipts := b.receipts ++ [receipt] }

/-- The first point: the handler failed. Its writes do not stay. -/
def rollbackFailed (snapshot : Ledger) (h : Handled) : Stateful Block Handled :=
  if h.status = .success then pure h else rollback snapshot h

/-- The search elements go into the bloom tree, and the parts are priced for the balance that the
sender has here. -/
def priceOnBlock (h : Handled) (c : Ctx) : Stateful Block (Int × Priced) := do
  bloomInsert (makeSearchVariants (some transactionHash) t.sender t.recipient zero32)
  let b ← Eff.read
  let sender ← onLedger (held t.sender)
  let priced ← .ofExcept <| priceTransaction c t transactionHash h sender.balance
    b.ledger.involved b.involvedAccounts
  return (sender.balance, priced)

/-- The status after the final affordability check. -/
def lateStatus (balance : Int) (h : Handled) (priced : Priced) : Status :=
  if balance < 1 + h.evaluationFee + h.transferAmount + priced.receipt.storageFee then .failed
  else priced.status

/-- The second point: a late check failed. The writes of a handler that did not fail do not stay. -/
def rollbackLate (snapshot : Ledger) (late : Status) (h : Handled) : Stateful Block Handled :=
  if late = .success ∨ h.status = .failed then pure { h with status := late }
  else rollback snapshot h

/-- The logs of a failed transaction stay. -/
def keepLogs (h : Handled) (logsExpr : Expr) : Stateful Ledger Unit :=
  if h.logs = [] then return () else extendPendingExprs [logsExpr]

/-- The settlement, the deductions and the records. The rollback that the source makes after the
settlement is left out: a transaction that was not rolled back by then can pay. -/
def conclude (counterMatched : Bool) (h : Handled) (priced : Priced) : Stateful Block Outcome := do
  let sender ← onLedger (held t.sender)
  let (status, settlement, receipt) := settle transactionHash sender.balance h priced.receipt
  finalizePendingBloomInserts status h.bloomKeys h.bloomInserts
  onLedger (keepLogs h priced.logsExpr)
  insertInvolved (if status = .success then priced.batches else [])
  onLedger (deduct t counterMatched h settlement)
  record t transactionHash receipt
  return ⟨status, receipt.executionFee, 0, h.logs⟩

/-- Everything after the handler. `snapshot` is the ledger before it. -/
def finish (snapshot : Ledger) (counterMatched : Bool) (h : Handled) (c : Ctx) :
    Stateful Block Outcome := do
  let h ← rollbackFailed snapshot h
  let (balance, priced) ← priceOnBlock t transactionHash h c
  let h ← rollbackLate snapshot (lateStatus balance h priced) h
  conclude t transactionHash counterMatched h priced

/-- `_apply_tx_effects` of a top-level transaction. -/
def applyTxEffects (node : Node) : Stateful Block Outcome := do
  let b ← Eff.read
  let c : Ctx := ⟨node, b.header⟩
  let g ← onLedger (enter c false t)
  let snapshot := (← Eff.read).ledger
  let h ← onLedger <| runHandler c t false b.pendingBloomKeys
    (applyNested c b.pendingBloomKeys node.fuel) transactionHash g
  finish t transactionHash snapshot g.counterMatched h c

end TopLevel

/-- `apply_transaction_obj`. -/
def applyTransactionObj (node : Node) (t : Transaction) : Stateful Block Outcome :=
  applyTxEffects t (t.hash.getD []) node

/-- `apply_transaction`. -/
def applyTransaction (node : Node) (transactionHash : Bytes) : Stateful Block Outcome := do
  let t ← .ofExcept (getTransactionFromStorage node transactionHash)
  applyTxEffects t transactionHash node

end Astreum
