import Astreum.State

namespace Astreum

inductive TransactionCode where
  | transfer
  | channelUpdate
  | channelWithdraw
  | channelClose
  | treasuryDeposit
  | treasuryBorrow
  | treasuryRepay
  | treasuryClose
  | treasuryGuarantee
  | treasuryBuy
  | treasuryClaim
  | storageCreate
  | storagePayment
  | storageRemove
  | codeAccountCreate
  | codeAccountCall
  deriving DecidableEq, Repr

namespace TransactionCode

def value : TransactionCode → Int
  | transfer => 0
  | channelUpdate => 16
  | channelWithdraw => 17
  | channelClose => 18
  | treasuryDeposit => 32
  | treasuryBorrow => 33
  | treasuryRepay => 34
  | treasuryClose => 35
  | treasuryGuarantee => 36
  | treasuryBuy => 37
  | treasuryClaim => 38
  | storageCreate => 48
  | storagePayment => 49
  | storageRemove => 50
  | codeAccountCreate => 64
  | codeAccountCall => 65

def all : List TransactionCode :=
  [transfer, channelUpdate, channelWithdraw, channelClose, treasuryDeposit, treasuryBorrow,
    treasuryRepay, treasuryClose, treasuryGuarantee, treasuryBuy, treasuryClaim, storageCreate,
    storagePayment, storageRemove, codeAccountCreate, codeAccountCall]

/-- `TransactionCode(n)`. -/
def ofInt (n : Int) : Py TransactionCode :=
  match all.find? fun code => code.value = n with
  | some code => .ok code
  | none => .error .valueError

theorem ofInt_value (code : TransactionCode) : ofInt code.value = .ok code := by
  cases code <;> rfl

end TransactionCode

/-- A transaction. `cell` is the cell it was decoded from, `hash` the hash it is known by; a
transaction made by a contract has neither. -/
structure Transaction where
  chainId : Int
  amount : Int
  code : TransactionCode
  counter : Int
  costLimit : Int
  data : Expr
  recipient : Bytes
  sender : Bytes
  signature : Bytes
  hash : Option Bytes
  cell : Option Expr
  pendingBloomKeys : List Bytes
  pendingBloomInserts : List Bytes
  deriving DecidableEq

namespace Transaction

def body (t : Transaction) : Expr :=
  link (int_ t.amount) <| link (int_ t.chainId) <| link (int_ t.code.value) <|
    link (int_ t.costLimit) <| link (int_ t.counter) <| link t.data <|
      link (.bytes t.recipient) <| link (.bytes t.sender) .nil

def toExpr (t : Transaction) : Expr :=
  let signature := if t.signature = [] then zero32 else t.signature
  link (link t.body (link (.bytes signature) .nil)) (.symbol "transaction")

def expr (t : Transaction) : Expr := t.cell.getD t.toExpr

end Transaction

/-- An integer field, read where the program goes on to use it as one. -/
def Val.toInt : Val → Py Int
  | .int n => .ok n
  | _ => .error .typeError

theorem toInt_eq_ok {v : Val} {n : Int} (h : v.toInt = .ok n) : v = .int n := by
  cases v with
  | int m => rw [Except.ok.inj h]
  | _ => cases h

/-- The bytes a cell tagged `bytes` holds, read where the program goes on to use them as such. -/
def Val.toBytes : Val → Py Bytes
  | .raw b => .ok b
  | _ => .error .typeError

section Storage

variable (node : Node)

/-- The checks on the eight cells of a body, with the way the tag and the value of an integer cell
are read. -/
def bodyOfNodes (tagOf : Expr → Py String) (valueOf : Expr → Py Val) (nodes : List Expr) :
    Py (Int × Int × TransactionCode × Int × Int × Expr × Bytes × Bytes) :=
  match nodes with
  | [amount, chainId, code, costLimit, counter, data, recipient, sender] => do
    for cell in [amount, chainId, code, costLimit, counter] do
      if (← tagOf cell) ≠ "int" then throw .valueError
    if node.tag recipient ≠ "bytes" ∨ node.tag sender ≠ "bytes" then throw .valueError
    let chainId ← (← valueOf chainId).toInt
    let amount ← (← valueOf amount).toInt
    let code ← TransactionCode.ofInt (← (← valueOf code).toInt)
    let counter ← (← valueOf counter).toInt
    let costLimit ← (← valueOf costLimit).toInt
    let recipient ← recipient.value.toBytes
    let sender ← sender.value.toBytes
    return (amount, chainId, code, costLimit, counter, data, recipient, sender)
  | _ => .error .valueError

/-- `get_transaction_from_storage`. The walk over the data cells leaves them resolved. -/
def getTransactionFromStorage (transactionId : Bytes) : Py Transaction := do
  let some header ← getExprList node transactionId | throw .valueError
  if node.tag header ≠ "link" then throw .valueError
  if header.tailChild ≠ .loaded (.symbol "transaction") then throw .valueError
  let .loaded inner := header.headChild | throw .valueError
  if node.tag inner ≠ "link" then throw .valueError
  let (innerNodes, missed) ← resolveListExprs node inner
  if missed ≠ [] then throw .valueError
  let [body, sig] := innerNodes | throw .valueError
  if node.tag sig ≠ "bytes" then throw .valueError
  let signature ← sig.value.toBytes
  if node.tag body ≠ "link" then throw .valueError
  let (bodyNodes, missed) ← resolveListExprs node body
  if missed ≠ [] then throw .valueError
  let (amount, chainId, code, costLimit, counter, data, recipient, sender) ←
    bodyOfNodes node (getExprTag node) (getExprValue node) bodyNodes
  let inner ← resolveInnerFrom node node.fuel data
  let .loaded data := inner.cell | throw .attributeError
  return {
    chainId, amount, code, counter, costLimit, data, recipient, sender, signature
    hash := some transactionId
    cell := some header
    pendingBloomKeys := []
    pendingBloomInserts := [] }

end Storage

structure Receipt where
  transactionHash : Bytes
  transactionFee : Int
  storageFee : Int
  dataFee : Int
  executionFee : Int
  status : Status
  logsHash : Bytes
  mint : Int
  deriving DecidableEq

def Receipt.expr (r : Receipt) : Expr :=
  let body := link (int_ r.dataFee) <| link (int_ r.executionFee) <| link (refTo r.logsHash) <|
    link (int_ r.mint) <| link (int_ r.status.code) <| link (int_ r.storageFee) <|
      link (int_ r.transactionFee) (refTo r.transactionHash)
  link (link body .nil) (.symbol "receipt")

structure BloomInsert where
  offset : Int
  elements : List Bytes
  deriving DecidableEq

/-- A block under construction. The bloom tree is seen as the log of its insertions. -/
structure Block where
  header : Header
  ledger : Ledger
  bloomTree : Option (List BloomInsert)
  pendingBloomKeys : List Bytes
  involvedAccounts : List Bytes
  transactions : List Transaction
  receipts : List Receipt
  receiptsTrie : Tree

/-- Run a computation on the part of the block that a snapshot covers. -/
def onLedger {α : Type} (x : Stateful Ledger α) : Stateful Block α :=
  Eff.zoom Block.ledger (fun l b => { b with ledger := l }) x

end Astreum
