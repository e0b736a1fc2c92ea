import Astreum.Operators
import Astreum.Parser
import Astreum.Rates

namespace Astreum

open Core

/-- What applying a transaction gives to whoever applied it. -/
structure Outcome where
  status : Status
  executionFee : Int
  storageFee : Int
  logs : List Expr
  deriving DecidableEq

/-- `_apply_tx_effects` with `nested=True`, as `tx.new` calls it. -/
abbrev NestedApply := Transaction → Bytes → Stateful Ledger Outcome

/-- `make_search_variants`. An absent or empty part reads as zeros. -/
def makeSearchVariants (txHash : Option Bytes) (sender receiver key : Bytes) : List Bytes :=
  let z := zero32
  let orZero (b : Bytes) : Bytes := if b = [] then z else b
  let t := orZero (txHash.getD [])
  let s := orZero sender
  let r := orZero receiver
  let k := orZero key
  if k = z then
    [t ++ z ++ z ++ z ++ z, z ++ s ++ z ++ z ++ z, z ++ z ++ r ++ z ++ z, t ++ s ++ z ++ z ++ z,
      t ++ z ++ r ++ z ++ z, z ++ s ++ r ++ z ++ z, t ++ s ++ r ++ z ++ z]
  else
    [t ++ z ++ z ++ k ++ z, t ++ s ++ z ++ k ++ z, t ++ z ++ r ++ k ++ z, t ++ s ++ r ++ k ++ z]

section BlockOperators

variable (call : Call)

def contractAccount : Stateful Machine (Option Account) :=
  onMachineLedger (getAccount call.ctx call.tx.recipient)

def popBytesKey : Stateful Core Bytes := do
  let key ← pop
  let tag ← tagOf call.ctx.node key
  .when (tag ≠ "bytes") (.raise .runtimeError)
  .ofExcept key.value.toBytes

def handleStackAccBalance : MachineOp := do
  let some account ← contractAccount call | .raise .runtimeError
  onCore do
    push (int_ account.balance)
    chargeBytes 1

/-- A value of the account's tree is pushed as a bytes cell over the cell that it is. -/
def handleStackAccGet : MachineOp := do
  let key ← onCore (popBytesKey call)
  let some account ← contractAccount call | .raise .runtimeError
  onCore do
    match getFromRadixTree call.ctx.node account.data key with
    | none => push .nil
    | some value => push (.bytesOf value)
    chargeBytes key.length

/-- The effect of `acc.put` on the accounts: the sender pays the storage account for the bytes. -/
def accPut (key value : Bytes) (valueExpr : Expr) : Stateful Ledger Unit := do
  .when ((← getAccount call.ctx call.tx.recipient).isNone) (.raise .runtimeError)
  let some sender ← getAccount call.ctx call.tx.sender | .raise .runtimeError
  let _ ← getAccount call.ctx storageAddress
  let fee ← .ofExcept (calculateStorageFee call.ctx.header (key.length + value.length))
  .when (sender.balance < fee) (.raise .runtimeError)
  addBalance call.tx.sender (-fee)
  addBalance storageAddress fee
  let account ← held call.tx.recipient
  let tree ← .ofExcept (putInRadixTree account.data key (.expr valueExpr))
  setData call.tx.recipient tree
  involve call.tx.recipient
  involve call.tx.sender
  involve storageAddress

def accPutOperands : Stateful Core (Bytes × Bytes × Expr) := do
  let (keyExpr, valueExpr) ← popTwo
  let keyTag ← tagOf call.ctx.node keyExpr
  .when (keyTag ≠ "bytes") (.raise .runtimeError)
  let valueTag ← tagOf call.ctx.node valueExpr
  .when (valueTag ≠ "bytes") (.raise .runtimeError)
  return (← .ofExcept keyExpr.value.toBytes, ← .ofExcept valueExpr.value.toBytes, valueExpr)

def handleStackAccPut : MachineOp := do
  let (key, value, valueExpr) ← onCore (accPutOperands call)
  onMachineLedger (accPut call key value valueExpr)
  onCore (chargeBytes (key.length + value.length))

/-- Push a number of the block or of the transaction and charge its bytes. -/
def pushNumber (n : Int) : CoreOp := do
  push (int_ n)
  chargeBytes (encodeInt n).length

def pushData (data : Bytes) : CoreOp := do
  push (.bytes data)
  chargeBytes data.length

/-- A block under construction has no timestamp yet. -/
def handleStackBlockTimestamp : CoreOp :=
  match call.ctx.header.timestamp with
  | some n => pushNumber n
  | none => do
    push (typed .none "int")
    .raise .attributeError

def handleStackBlockBloomInsert : MachineOp := do
  onCore (require 1)
  let e ← onCore pop
  let key ← .ofExcept (call.ctx.node.hash? e)
  if key ∈ call.blockBloomKeys then return ()
  let variants := makeSearchVariants call.tx.hash call.tx.sender call.tx.recipient key
  let inserts := variants.map call.ctx.node.blake3
  if (← Eff.read).bloomInserts.any fun b => decide (b ∈ inserts) then return ()
  .update fun m => { m with
    bloomKeys := m.bloomKeys.insert key
    bloomInserts := m.bloomInserts ++ inserts.filter fun b => b ∉ m.bloomInserts }
  onCore (charge 8 true)

/-- The check that the sender of a signed transaction can pay for one more log. -/
def checkLogPayment (value : Expr) : MachineOp := do
  if call.tx.signature = [] then return ()
  let sender ← onMachineLedger (getAccount call.ctx call.tx.sender)
  let logs := (← Eff.read).logs
  let some logsFee ← .ofExcept (storageWalkFee call.ctx (exprsToLinkedExpr (logs ++ [value])) [])
    | .raise .runtimeError
  let some sender := sender | .raise .attributeError
  .when (sender.balance < 1 + (← Eff.read).core.meter.eval + logsFee + call.tx.amount) <|
    .raise .runtimeError

def handleStackTxLog : MachineOp := do
  let value ← onCore pop
  checkLogPayment call value
  let some fee ← .ofExcept (storageWalkFee call.ctx value []) | .raise .runtimeError
  onCore (charge fee true)
  .update fun m => { m with logs := m.logs ++ [value] }

/-- The operands of `tx.new`: code, recipient, amount and data. -/
def txNewOperands : Stateful Core (TransactionCode × Bytes × Int × Expr) := do
  require 4
  let data ← popRaw
  let amountRaw ← popRaw
  let recipientRaw ← popRaw
  let codeRaw ← popRaw
  let node := call.ctx.node
  let codeExpr ← real codeRaw
  .when ((← tagOf node codeExpr) ≠ "int") (opError "tx.new: expected Int tx code")
  let recipientExpr ← real recipientRaw
  .when ((← tagOf node recipientExpr) ≠ "bytes") (opError "tx.new: expected Bytes recipient")
  let amountExpr ← real amountRaw
  .when ((← tagOf node amountExpr) ≠ "int") (opError "tx.new: expected Int amount")
  let codeValue ← .ofExcept codeExpr.value.toInt
  let .ok code := TransactionCode.ofInt codeValue | opError "tx.new: unknown tx code"
  let amount ← .ofExcept amountExpr.value.toInt
  let recipient ← .ofExcept recipientExpr.value.toBytes
  return (code, recipient, amount, data.getD .nil)

/-- The contract's counter stamps the new transaction and moves on. -/
def takeCounter : Stateful Ledger Int := do
  let some account ← getAccount call.ctx call.tx.recipient | .raise .attributeError
  mutate call.tx.recipient fun account => { account with counter := account.counter + 1 }
  involve call.tx.recipient
  return account.counter

/-- Apply a transaction of a contract. Unless it succeeds, all that it did is taken back. -/
def applyOrRestore (apply : NestedApply) (t : Transaction) (hash : Bytes) :
    Stateful Ledger (Option Outcome) := do
  let snapshot ← .read
  let outcome ← exceptException (some <$> apply t hash) (pure none)
  match outcome with
  | some outcome =>
    if outcome.status = .success then return some outcome
    .write snapshot
    return none
  | none =>
    .write snapshot
    return none

def handleStackTxNew (apply : NestedApply) : MachineOp := do
  let (code, recipient, amount, data) ← onCore (txNewOperands call)
  let remaining := (← Eff.read).core.meter.remaining
  let counter ← onMachineLedger (takeCounter call)
  let inner : Transaction := {
    chainId := call.ctx.header.chainId
    amount := amount
    code := code
    counter := counter
    costLimit := if code = .codeAccountCall then remaining else 0
    data := data
    recipient := recipient
    sender := call.tx.recipient
    signature := []
    hash := none
    cell := none
    pendingBloomKeys := []
    pendingBloomInserts := [] }
  let hash ← .ofExcept (call.ctx.node.hash? inner.expr)
  onCore (chargeBytes hash.length)
  match ← onMachineLedger (applyOrRestore apply inner hash) with
  | none => onCore (push .nil)
  | some outcome =>
    .update fun m => { m with logs := m.logs ++ outcome.logs }
    .when (0 < outcome.executionFee) (onCore (charge outcome.executionFee false))
    .when (0 < outcome.storageFee) (onCore (charge outcome.storageFee true))
    onCore (push (int_ 1))

end BlockOperators

section Stored

variable (call : Call)

/-- An empty stack costs one byte. -/
def underflow : CoreOp := do
  chargeBytes 1
  opError "stack underflow"

/-- `pop_scoped_args`. -/
def popScopedArgs (name : String) : Stateful Core (Bytes × Bytes) := do
  .when ((← Eff.read).stack.length < 2) underflow
  let exprIdRaw ← popRaw
  let blockRaw ← popRaw
  let id32 (kind : String) (e : Expr) : Stateful Core Bytes := do
    let tag ← tagOf call.ctx.node e
    .when (tag ≠ "bytes") (opError (name ++ " requires 32-byte " ++ kind ++ ", got " ++ lower tag))
    let data ← .ofExcept e.value.toBytes
    .when (data.length ≠ 32) <|
      opError (name ++ " requires 32-byte " ++ kind ++ ", got " ++ toString data.length ++ " bytes")
    return data
  let exprId ← id32 "hash" (← real exprIdRaw)
  let blockId ← id32 "block id" (← real blockRaw)
  return (blockId, exprId)

/-- `check_block`: only blocks that the storage account knows can be read. -/
def checkBlock (name : String) (blockId : Bytes) : MachineOp := do
  onCore (chargeBytes 32)
  let storage ← onMachineLedger (getAccount call.ctx storageAddress)
  let known := match storage with
    | none => false
    | some account => (getFromRadixTree call.ctx.node account.data blockId).isSome
  .when (!known) (onCore (opError (name ++ ": unknown block")))

def fetchCell (name : String) (exprId : Bytes) : Stateful Core Expr :=
  match getExpr call.ctx.node exprId with
  | some e => return e
  | none => opError (name ++ ": expression not found")

/-- `_part`: a child, loaded or fetched at a charge. -/
def partCharged (ch : Child) : Stateful Core (Option Expr) :=
  match ch with
  | .loaded e => return some e
  | .none => return none
  | .byHash h => do
    if h = zero32 then return none
    chargeBytes 70
    return getExpr call.ctx.node h

def isNilTailLocal (ch : Child) : Bool :=
  match ch with
  | .none => true
  | .byHash h => h == zero32
  | .loaded e =>
    e == .nil || (call.ctx.node.tag e == "link" && e.headChild == .none && e.tailChild == .none)

/-- `stored_ref_target` of the machine. -/
def storedRefTargetCharged (cell : Expr) : Stateful Core (Option (Bytes × Bytes)) := do
  let node := call.ctx.node
  if node.tag cell ≠ "link" then return none
  let some block := bytes32 (← partCharged call cell.headChild) | return none
  let some second ← partCharged call cell.tailChild | return none
  if node.tag second ≠ "link" then return none
  let some id := bytes32 (← partCharged call second.headChild) | return none
  let some third ← partCharged call second.tailChild | return none
  if node.tag third ≠ "link" then return none
  if (← partCharged call third.headChild) ≠ some (.symbol "ref") then return none
  if !isNilTailLocal call third.tailChild then return none
  return some (block, id)
where
  bytes32 : Option Expr → Option Bytes
    | some (.bytes b) => if b.length = 32 then some b else none
    | _ => none

/-- `follow_stored_ref`. -/
def followStoredRef (name : String) (blockId : Bytes) (cell : Expr) :
    Stateful Machine (Bytes × Expr) := do
  match ← onCore (storedRefTargetCharged call cell) with
  | none => return (blockId, cell)
  | some (nextBlock, nextId) =>
    checkBlock call name nextBlock
    if nextId = zero32 then return (nextBlock, .nil)
    return (nextBlock, ← onCore (fetchCell call name nextId))

def followIfLink (name : String) (blockId : Bytes) (cell : Expr) : Stateful Machine (Bytes × Expr) :=
  if call.ctx.node.tag cell = "link" then followStoredRef call name blockId cell
  else return (blockId, cell)

def isBare (e : Expr) : Bool := e.headChild == .none && e.tailChild == .none

def refThunk (blockId h : Bytes) : Expr :=
  link (.bytes blockId) (link (.bytes h) (.symbol "ref"))

/-- The hash of a side of a fetched link, zeros where it has none. -/
def sideHash (ch : Child) : Py Bytes :=
  match ch with
  | .byHash h => .ok h
  | .loaded e => call.ctx.node.hash? e
  | .none => .ok zero32

def handleStackRef : MachineOp := do
  let node := call.ctx.node
  let (blockId, exprId) ← onCore (popScopedArgs call "ref")
  if exprId = zero32 then
    onCore (chargeBytes 1)
    onCore (push .nil)
    return ()
  checkBlock call "ref" blockId
  let fetched ← onCore (fetchCell call "ref" exprId)
  .when (node.tag fetched = "link" ∧ isBare fetched) (onCore (opError "ref: expression not found"))
  let (blockId, resolved) ← followIfLink call "ref" blockId fetched
  if node.tag resolved = "link" then
    if isBare resolved then
      onCore (push .nil)
      return ()
    let head ← .ofExcept (sideHash call resolved.headChild)
    let tail ← .ofExcept (sideHash call resolved.tailChild)
    onCore (chargeBytes 70)
    onCore (push (link (refThunk blockId head) (refThunk blockId tail)))
  else onCore (pushSized resolved)

/-- `_resolve` of `load`: the cell with everything under it, block references followed once. -/
def resolveCell : Nat → Bytes → Bool → Expr → Stateful Machine Expr
  | 0, _, _, _ => .raise .outOfFuel
  | n + 1, blockId, follow, cell => do
    let node := call.ctx.node
    if node.tag cell ≠ "link" then return cell
    let child (ch : Child) : Stateful Machine Child := match ch with
      | .none => return .none
      | .loaded e => Child.loaded <$> resolveCell n blockId true e
      | .byHash h => do
        if h = zero32 then return .none
        let e ← onCore (fetchCell call "load" h)
        Child.loaded <$> resolveCell n blockId true e
    let head ← child cell.headChild
    let tail ← child cell.tailChild
    let rebuilt := if head = .none ∧ tail = .none then cell else .link .none head tail
    if !follow then return rebuilt
    if (← onCore (storedRefTargetCharged call rebuilt)).isNone then return rebuilt
    let (nextBlock, target) ← followStoredRef call "load" blockId rebuilt
    if node.tag target = "link" then resolveCell n nextBlock false target else return target

def handleStackLoad : MachineOp := do
  let (blockId, exprId) ← onCore (popScopedArgs call "load")
  if exprId = zero32 then
    onCore (chargeBytes 1)
    onCore (push .nil)
    return ()
  checkBlock call "load" blockId
  let root ← onCore (fetchCell call "load" exprId)
  let resolved ← resolveCell call call.ctx.node.fuel blockId true root
  let n ← .ofExcept resolved.size
  onCore (chargeBytes (n * 2))
  onCore (push resolved)

end Stored

section Control

variable (node : Node) (ev : Expr → MachineOp)

/-- `is_truthy`. -/
def isTruthy (e : Expr) : Stateful Core Bool := do
  let tag ← tagOf node e
  if tag = "bytes" then
    let data ← .ofExcept e.value.toBytes
    return data.any (· ≠ 0)
  else if tag = "int" then return e.value ≠ .int 0
  else if tag ∈ floatTags then
    if tag = "fp64" ∧ e.value = .none then return true
    return !(← toFp64 node e).eq (.zero false)
  else if tag = "link" then return e.head?.isSome
  else return tag ≠ "err" ∧ tag ≠ "none"

/-- Run on another stack, and give that stack back. The machine goes on with its own. -/
def onStack (stack : List (Option Expr)) (x : MachineOp) :
    Stateful Machine (List (Option Expr)) := fun m =>
  let setStack (stack : List (Option Expr)) (m : Machine) : Machine :=
    { m with core := { m.core with stack } }
  match x (setStack stack m) with
  | (.ok (), m') => (.ok m'.core.stack, setStack m.core.stack m')
  | (.error e, m') => (.error e, setStack m.core.stack m')

/-- Run in another environment. -/
def inEnv (env : Env) (x : MachineOp) : MachineOp := fun m =>
  let setEnv (env : Env) (m : Machine) : Machine := { m with core := { m.core with env } }
  ((x (setEnv env m)).1, setEnv m.core.env (x (setEnv env m)).2)

def handleStackEval : MachineOp := do
  .when ((← Eff.read).core.stack = []) (onCore underflow)
  let val ← onCore pop
  onCore (chargeSize val)
  ev val

def handleStackDip : MachineOp := do
  onCore (require 2)
  let exprRaw ← onCore popRaw
  let value ← onCore popRaw
  let e ← onCore (real exprRaw)
  onCore (chargeSize e)
  ev e
  onCore (pushRaw value)

def handleStackIf : MachineOp := do
  onCore (require 3)
  let elseBranch ← onCore popRaw
  let thenBranch ← onCore popRaw
  let cond ← onCore pop
  ev cond
  onCore (require 1)
  let condition ← onCore pop
  onCore (chargeSize condition)
  let branch ← onCore (real (if ← onCore (isTruthy node condition) then thenBranch else elseBranch))
  ev branch

/-- The loop of `rec` up to the branch that ends it: how many times the step ran. -/
def recDown (pred thenBranch rec1 : Expr) : Nat → Nat → Stateful Machine Nat
  | 0, _ => .raise .outOfFuel
  | n + 1, count => do
    onCore (chargeSize pred)
    ev pred
    let condition ← onCore pop
    onCore (chargeSize condition)
    if ← onCore (isTruthy node condition) then
      onCore (chargeSize thenBranch)
      ev thenBranch
      return count
    onCore (chargeSize rec1)
    ev rec1
    recDown pred thenBranch rec1 n (count + 1)

def recUp (rec2 : Expr) : Nat → MachineOp
  | 0 => return ()
  | n + 1 => do
    onCore (chargeSize rec2)
    ev rec2
    recUp rec2 n

def handleStackRec (fuel : Nat) : MachineOp := do
  onCore (require 4)
  let rec2 ← onCore popRaw
  let rec1 ← onCore popRaw
  let thenBranch ← onCore popRaw
  let pred ← onCore pop
  let thenBranch ← onCore (real thenBranch)
  let rec1 ← onCore (real rec1)
  let count ← recDown node ev pred thenBranch rec1 fuel 0
  let rec2 ← onCore (real rec2)
  recUp ev rec2 count

def handleStackMatch : MachineOp := do
  onCore (require 4)
  let failClosure ← onCore popRaw
  let succClosure ← onCore popRaw
  let succTag ← onCore popRaw
  let val ← onCore pop
  let tag ← onCore (tagOf node val)
  let succTag ← onCore (real succTag)
  if succTag.value = .str tag then
    onCore (pushRaw val.head?)
    ev (← onCore (real succClosure))
  else
    onCore (push val)
    ev (← onCore (real failClosure))

/-- Whether a cell carries a tag of its own. -/
def isTagged (e : Expr) : Stateful Core Bool := do
  let tag ← tagOf node e
  return node.tag e = "link" ∧ tag ≠ "link"

def handleStackResult : MachineOp := do
  let errorOf (message : String) : Expr := link (str_ message) (.symbol "err")
  if (← Eff.read).core.stack = [] then
    onCore (push (errorOf "stack underflow"))
    return ()
  let top ← onCore pop
  if ← onCore (isTagged node top) then
    if (← onCore (tagOf node top)) = "err" then onCore (push top)
    else onCore (pushRaw top.head?)
    return ()
  if (← Eff.read).core.stack = [] then
    onCore (push top)
    onCore (push (errorOf "no tagged value on stack"))
    return ()
  let tagged ← onCore pop
  if !(← onCore (isTagged node tagged)) then
    onCore (push tagged)
    onCore (push top)
    onCore (push (errorOf "expected tagged value, got raw"))
    return ()
  if (← onCore (tagOf node tagged)) = "err" then onCore (push tagged)
  else
    onCore (pushRaw tagged.head?)
    ev top

/-- The names that a chain of parameters binds. -/
def paramNames : Child → Stateful Core (List String)
  | .loaded (.link v (.loaded h) t) => do
    if node.tag (.link v (.loaded h) t) ≠ "link" then return []
    let tag ← tagOf node h
    let .symbol name := h | opError ("apply of non-symbol param " ++ tag)
    return name :: (← paramNames t)
  | _ => return []

/-- A function value taken apart: its body, its parameters, and the frames under its own. -/
def functionParts (fn : Expr) : Stateful Core (Option Expr × Child × Env) := do
  let tag ← tagOf node fn
  .when (tag ∉ ["dyn", "pure", "lex"]) (opError ("apply of " ++ tag))
  let inner ← real fn.head?
  let body := inner.head?
  if tag = "lex" then
    let closed ← real body
    let envRef ← real closed.head?
    .when ((← tagOf node envRef) ≠ "env") (opError "closure of non-env capture")
    let some parent := (envRef.headHash?).bind (← Eff.read).library.get? | .raise .keyError
    return (closed.tail?, inner.tailChild, parent)
  else if tag = "dyn" then return (body, inner.tailChild, (← Eff.read).env)
  else return (body, inner.tailChild, [])

/-- The arguments of `names`, the last name's on top, bound in a new frame. -/
def bindArguments : List String → Frame → Stateful Core Frame
  | [], frame => return frame
  | name :: names, frame => do
    require 1
    let arg ← pop
    bindArguments names (frame.insert name arg)

def argumentSizes (n : Nat) : Stateful Core Nat := do
  let args := (← Eff.read).stack.take n
  let rec total : List (Option Expr) → Stateful Core Nat
    | [] => return 0
    | a :: as => do
      let e ← real a
      let k ← .ofExcept e.size
      return k + (← total as)
  let k ← total args
  .when (args.length < n) (.raise .indexError)
  return k

def handleStackApply : MachineOp := do
  onCore (require 1)
  let fn ← onCore pop
  let (body, params, parent) ← onCore (functionParts node fn)
  let names ← onCore (paramNames node params)
  let cost ← onCore (argumentSizes names.length)
  onCore (chargeBytes cost)
  let frame ← onCore (bindArguments names.reverse .empty)
  let body ← onCore (real body)
  let result ← onStack [] (inEnv (frame :: parent) (ev body))
  match result with
  | [] => return ()
  | top :: _ => onCore (pushRaw top)

/-- `_step`: run `fn` on a stack of its own, and give what it leaves on top. -/
def step (fn : Expr) (args : List Expr) : Stateful Machine Expr := do
  let cost ← .ofExcept (sizes args)
  onCore (chargeBytes (cost + 1))
  let result ← onStack (args.reverse.map some) (ev fn)
  match result with
  | [] => return .nil
  | top :: _ => onCore (real top)

/-- `_step_for`: only a plain link is a program. -/
def stepFor (fn : Expr) : CoreOp := do
  let tag ← tagOf node fn
  .when (tag ≠ "link") (opError ("fn of " ++ tag))

/-- What a loop over a sequence charges for an item. -/
def itemCost (tag : String) (item : Expr) : Py Nat := if tag = "bytes" then .ok 1 else item.size

/-- What a loop over a sequence of bytes or of characters charges for all items at once. -/
def chargeItems (tag : String) (items : List Expr) : CoreOp :=
  .when (tag ≠ "link") do
    let n ← .ofExcept (sizes items)
    chargeBytes n

def eachItem (tag : String) (fn : Expr) : List Expr → MachineOp
  | [] => return ()
  | item :: items => do
    let cost ← .ofExcept (itemCost tag item)
    onCore (chargeBytes cost)
    let _ ← step ev fn [item]
    eachItem tag fn items

/-- The operands of a loop: the program, the sequence and its tag. -/
def loopOperands : Stateful Core (Expr × Expr × String) := do
  let fnRaw ← popRaw
  let valueRaw ← popRaw
  let value ← real valueRaw
  let tag ← tagOf node value
  let fn ← real fnRaw
  stepFor node fn
  return (fn, value, tag)

def isSequenceTag (tag : String) : Bool := tag = "bytes" ∨ tag = "str" ∨ tag = "link"

def handleStackEach : MachineOp := do
  let (fn, value, tag) ← onCore (loopOperands node)
  .when (!isSequenceTag tag) (onCore (opError ("each of " ++ tag)))
  let items ← onCore (seqItems node tag value)
  onCore (chargeItems tag items)
  eachItem ev tag fn items
  onCore (push value)

/-- What `map` makes of a byte or a character is one again. -/
def checkProduced (tag : String) (result : Expr) : CoreOp :=
  .when (tag ≠ "link") do
    let produced ← tagOf node result
    .when (produced ≠ tag) <|
      opError ("map fn produced " ++ produced ++ ", expected " ++ tag)
    if tag = "bytes" then discard (.ofExcept result.value.toBytes)
    else discard result.value.toStr

/-- The results of `map` on the items, each of which has the sequence's tag unless that is a chain
of links. -/
def mapItems (tag : String) (fn : Expr) : List Expr → Stateful Machine (List Expr)
  | [] => return []
  | item :: items => do
    let cost ← .ofExcept (itemCost tag item)
    onCore (chargeBytes cost)
    let result ← step ev fn [item]
    onCore (checkProduced node tag result)
    return result :: (← mapItems tag fn items)

/-- A sequence of a tag, made of items of that tag, with what it is charged for. -/
def joinItems (tag : String) (items : List Expr) : Stateful Core (Expr × Nat) := do
  if tag = "bytes" then
    let data := items.flatMap fun e => match e.value with
      | .raw b => b
      | _ => []
    return (.bytes data, data.length)
  else if tag = "str" then
    let text := items.foldl (fun s e => match e.value with
      | .str t => s ++ t
      | _ => s) ""
    return (str_ text, utf8Length text)
  else
    let n ← .ofExcept (sizes items)
    return (exprsToLinkedExpr items, n + items.length)

def handleStackMap : MachineOp := do
  let (fn, value, tag) ← onCore (loopOperands node)
  .when (!isSequenceTag tag) (onCore (opError ("map of " ++ tag)))
  let items ← onCore (seqItems node tag value)
  let results ← mapItems node ev tag fn items
  let (result, cost) ← onCore (joinItems tag results)
  onCore (chargeBytes cost)
  onCore (push result)

def filterItems (tag : String) (fn : Expr) : List Expr → Stateful Machine (List Expr)
  | [] => return []
  | item :: items => do
    let cost ← .ofExcept (itemCost tag item)
    onCore (chargeBytes cost)
    let ok ← step ev fn [item]
    if ← onCore (isTruthy node ok) then return item :: (← filterItems tag fn items)
    filterItems tag fn items

def handleStackFilter : MachineOp := do
  let (fn, value, tag) ← onCore (loopOperands node)
  .when (!isSequenceTag tag) (onCore (opError ("filter of " ++ tag)))
  let items ← onCore (seqItems node tag value)
  let kept ← filterItems node ev tag fn items
  let (result, cost) ← onCore (joinItems tag kept)
  onCore (chargeBytes cost)
  onCore (push result)

def foldItems (tag : String) (fn : Expr) : List Expr → Expr → Stateful Machine Expr
  | [], acc => return acc
  | item :: items, acc => do
    let cost ← .ofExcept (itemCost tag item)
    onCore (chargeBytes cost)
    let acc ← step ev fn [acc, item]
    foldItems tag fn items acc

def handleStackFold : MachineOp := do
  let fnRaw ← onCore popRaw
  let accRaw ← onCore popRaw
  let valueRaw ← onCore popRaw
  let value ← onCore (real valueRaw)
  let tag ← onCore (tagOf node value)
  let acc ← onCore (real accRaw)
  onCore (chargeSize acc)
  let fn ← onCore (real fnRaw)
  onCore (stepFor node fn)
  .when (!isSequenceTag tag) (onCore (opError ("fold of " ++ tag)))
  let items ← onCore (seqItems node tag value)
  onCore (chargeItems tag items)
  let acc ← foldItems ev tag fn items acc
  onCore (push acc)

def findItem (tag : String) (fn : Expr) : List Expr → Stateful Machine (Option Expr)
  | [] => return none
  | item :: items => do
    let cost ← .ofExcept (itemCost tag item)
    onCore (chargeBytes cost)
    let ok ← step ev fn [item]
    if ← onCore (isTruthy node ok) then
      onCore (chargeSize item)
      return some item
    findItem tag fn items

def handleStackFind : MachineOp := do
  let fnRaw ← onCore popRaw
  let valueRaw ← onCore popRaw
  let value ← onCore (real valueRaw)
  let tag ← onCore (tagOf node value)
  let notFound : Expr := link (str_ "not found") (.symbol "none")
  if value = .nil then
    onCore (push notFound)
    return ()
  let fn ← onCore (real fnRaw)
  onCore (stepFor node fn)
  .when (!isSequenceTag tag) (onCore (opError ("find of " ++ tag)))
  let items ← onCore (seqItems node tag value)
  match ← findItem node ev tag fn items with
  | some item => onCore (push (link item (.symbol "some")))
  | none => onCore (push notFound)

def handleStackParse : CoreOp := do
  require 1
  let val ← pop
  let tag ← tagOf node val
  .when (tag ≠ "str") (opError "parse requires a string")
  let s ← val.value.toStr
  chargeBytes s.length
  push (← .ofExcept (parseText s))

end Control

section Dispatch

/-- The variant of a machine operator that wraps what it leaves on top. -/
def withResultM (op : MachineOp) : MachineOp :=
  catchErrors (fun e => onCore (push e)) do
    op
    onCore do
      let result ← popRaw
      push (.link .none (childOf result) (.loaded (.symbol "ok")))

def withNilM (op : MachineOp) : MachineOp :=
  catchErrors (fun e => onCore (push e)) do
    op
    onCore (push (link .nil (.symbol "ok")))

/-- An operator with its variant that ends in a question mark. -/
def both (name : String) (op : CoreOp) : List (String × CoreOp) :=
  [(name, op), (name ++ "?", withResult op)]

def bothNil (name : String) (op : CoreOp) : List (String × CoreOp) :=
  [(name, op), (name ++ "?", withNil op)]

def bothM (name : String) (op : MachineOp) : List (String × MachineOp) :=
  [(name, op), (name ++ "?", withResultM op)]

variable (call : Call)

/-- The operators that work on the stack alone. -/
def coreOperators (node : Node) : List (String × CoreOp) :=
  both "+" (handleStackAdd node) ++ both "-" (handleStackSub node) ++
  both "*" (handleStackMul node) ++ both "/" (handleStackDiv node) ++
  both "%" (handleStackMod node) ++ both "sqrt" (handleStackSqrt node) ++
  both "abs" (handleStackAbs node) ++ both "&" (handleStackAnd node) ++
  both "|" (handleStackOr node) ++ both "^" (handleStackXor node) ++
  both "~" (handleStackNot node) ++ both "<<" (handleStackShift node) ++
  both "<<<" (handleStackRotate node) ++ both "<" (handleStackLessThan node) ++
  both ">" (handleStackGreaterThan node) ++ both "<=" (handleStackLessThanOrEqual node) ++
  both ">=" (handleStackGreaterThanOrEqual node) ++ bothNil "drop" handleStackDrop ++
  both "dup" handleStackDup ++ both "swap" handleStackSwap ++ both "rot" handleStackRot ++
  both "concat" (handleStackConcat node) ++ both "split" (handleStackSplit node) ++
  both "index" (handleStackIndex node) ++ both "count" (handleStackCount node) ++
  both "reverse" (handleStackReverse node) ++ both "zip" (handleStackZip node) ++
  both "str" (handleStackStr node) ++ both "int" (handleStackInt node) ++
  both "bytes" (handleStackBytes node) ++ both "e4m3" (handleStackE4m3 node) ++
  both "e5m2" (handleStackE5m2 node) ++ both "fp16" (handleStackFp16 node) ++
  both "bf16" (handleStackBf16 node) ++ both "fp32" (handleStackFp32 node) ++
  both "fp64" (handleStackFp64 node) ++ bothNil "def" (handleStackDef node) ++
  both "closure" (handleStackClosure node) ++ both "link" handleStackLink ++
  both "head" (handleStackHead node) ++ both "tail" (handleStackTail node) ++
  both "is_eq" (handleStackIsEq node) ++ both "symbol" (handleStackSymbol node) ++
  both "quote" handleStackQuote ++ both "type" (handleStackType node) ++
  both "parse" (handleStackParse node) ++ both "init" (handleStackInit node) ++
  both "id" (handleStackId node) ++
  [("is", handleStackIs node), ("ok", handleStackOk), ("err", handleStackErr)]

/-- The operators that read the block or the transaction. -/
def blockOperators (apply : NestedApply) : List (String × MachineOp) :=
  [("block.chain_id", onCore (pushNumber call.ctx.header.chainId)),
    ("block.height", onCore (pushNumber call.ctx.header.height)),
    ("block.previous_block_hash", onCore (pushData call.ctx.header.previousBlockHash)),
    ("block.timestamp", onCore (handleStackBlockTimestamp call)),
    ("block.bloom.insert", handleStackBlockBloomInsert call),
    ("block.bloom.insert?", withNilM (handleStackBlockBloomInsert call)),
    ("acc.balance", handleStackAccBalance call), ("acc.get", handleStackAccGet call),
    ("acc.put", handleStackAccPut call), ("tx.amount", onCore (pushNumber call.tx.amount)),
    ("tx.recipient", onCore (pushData call.tx.recipient)),
    ("tx.sender", onCore (pushData call.tx.sender)),
    ("tx.new", handleStackTxNew call apply), ("tx.log", handleStackTxLog call)] ++
  bothM "ref" (handleStackRef call) ++ bothM "load" (handleStackLoad call)

/-- The operators that run programs, with the evaluator they run them by. -/
def controlOperators (node : Node) (ev : Expr → MachineOp) (fuel : Nat) :
    List (String × MachineOp) :=
  bothM "eval" (handleStackEval ev) ++ bothM "dip" (handleStackDip ev) ++
  bothM "if" (handleStackIf node ev) ++ bothM "rec" (handleStackRec node ev fuel) ++
  bothM "apply" (handleStackApply node ev) ++ bothM "map" (handleStackMap node ev) ++
  bothM "filter" (handleStackFilter node ev) ++ bothM "each" (handleStackEach node ev) ++
  bothM "fold" (handleStackFold node ev) ++ bothM "find" (handleStackFind node ev) ++
  [("match", handleStackMatch node ev), ("result", handleStackResult node ev)]

/-- `DETERMINISTIC_BLOCKED_OPERATORS`. -/
def blockedOperators : List String :=
  ["spawn", "spawn?", "send", "send?", "receive", "receive?", "print", "println", "time", "clock"]

/-- `apply_operator` in deterministic mode, where `name` is an operator. -/
def applyOperator (apply : NestedApply) (ev : Expr → MachineOp) (fuel : Nat) (name : String) :
    Option MachineOp :=
  if name ∈ blockedOperators then some <| onCore do
    chargeBytes 1
    push .nil
  else match lookupPair name (coreOperators call.ctx.node) with
    | some op => some (onCore op)
    | none => match lookupPair name (blockOperators call apply) with
      | some op => some op
      | none => lookupPair name (controlOperators call.ctx.node ev fuel)

/-- An error of an operator costs one byte and leaves nil. -/
def orNil (op : MachineOp) : MachineOp :=
  Eff.handle op fun e => match errorValue e with
    | some _ => onCore do
      chargeBytes 1
      push .nil
    | none => .raise e

/-- A symbol that is no operator stands for what it is bound to, or for an empty link. -/
def lookupSymbol (s : String) : CoreOp := do
  match (← Eff.read).env.get s with
  | none =>
    chargeBytes ((utf8 s).length + 1)
    push (.link .none .none .none)
  | some bound =>
    let n ← .ofExcept bound.size
    chargeBytes ((utf8 s).length + n)
    push bound

/-- A quoted cell is pushed as it stands. -/
def pushQuoted (tail : Child) : CoreOp :=
  match tail with
  | .loaded .nil => do
    chargeBytes 1
    push .nil
  | .loaded t => do pushSized (← real t.head?)
  | _ => do
    chargeBytes 1
    push .nil

/-- Evaluate a side of a link that is loaded. -/
def evalChild (ev : Expr → MachineOp) : Child → MachineOp
  | .loaded e => ev e
  | _ => pure ()

/-- `evaluation` in deterministic mode. -/
def evaluation (apply : NestedApply) : Nat → Expr → MachineOp
  | 0, _ => .raise .outOfFuel
  | n + 1, e =>
    match e with
    | .symbol s => match applyOperator call apply (evaluation apply n) n s with
      | some op => orNil op
      | none => onCore (lookupSymbol s)
    | .link _ h t =>
      if e.isBuiltinComposite then onCore (pushSized e)
      else if h = .loaded (.symbol "'") then onCore (pushQuoted t)
      else do
        evalChild (evaluation apply n) h
        evalChild (evaluation apply n) t
    | .nil => pure ()
    | e => onCore (pushSized e)

end Dispatch

end Astreum
