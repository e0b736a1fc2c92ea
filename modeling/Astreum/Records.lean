import Astreum.Transaction

namespace Astreum

/-- The hash of a tree's root or of a program, with the block whose record holds it. -/
structure Pointer where
  id : Bytes
  block : Option Bytes
  deriving DecidableEq

namespace Pointer

def nil : Pointer := ⟨zero32, none⟩

/-- `_root_item`. -/
def rootItem (p : Pointer) : Expr :=
  match p.block with
  | some b => if p.id = zero32 then refTo zero32
    else link (.bytes b) (link (.bytes p.id) (link (.symbol "ref") .nil))
  | none => refTo p.id

end Pointer

/-- `pointer` of a tree written in this block, which no block's record holds yet. -/
def pointerTo (node : Node) (tree : Tree) : Pointer := ⟨node.treeRoot tree, none⟩

section Fields

variable (node : Node)

/-- A child, loaded or fetched. -/
def childPart : Child → Option Expr
  | .loaded e => some e
  | .byHash h => if h = zero32 then none else getExpr node h
  | .none => none

/-- `_is_nil` of a tail. -/
def isNilTail : Child → Bool
  | .none => true
  | .byHash h => h == zero32
  | .loaded e => e == .nil || (node.tag e == "link" && e.headChild == .none && e.tailChild == .none)

def bytes32? : Option Expr → Option Bytes
  | some (.bytes b) => if b.length = 32 then some b else none
  | _ => none

/-- `stored_ref_target`: the block and the cell that a `ref` cell names. -/
def storedRefTarget (cell : Expr) : Option Pointer := do
  guard (node.tag cell = "link" ∧ isNilTail node cell.tailChild = false)
  let block ← bytes32? (childPart node cell.headChild)
  let second ← childPart node cell.tailChild
  guard (node.tag second = "link")
  let id ← bytes32? (childPart node second.headChild)
  let third ← childPart node second.tailChild
  guard (node.tag third = "link")
  guard (childPart node third.headChild = some (.symbol "ref") ∧
    isNilTail node third.tailChild = true)
  return ⟨id, some block⟩

def getReferencedHash (e : Expr) : Py Bytes :=
  match e.headChild with
  | .byHash h => .ok h
  | .loaded h => node.hash? h
  | .none => .ok zero32

/-- `read_field`. -/
def readField (cell : Expr) : Py (Option Pointer) :=
  match storedRefTarget node cell with
  | some p => .ok (some p)
  | none =>
    if node.tag cell ≠ "link" then .ok none
    else do
      let h ← getReferencedHash node cell
      return some ⟨h, none⟩

/-- The value of a cell whose tag is `int`. A cell so tagged that holds no bytes has no integer. -/
def intField (cell : Expr) : Py (Option Int) := do
  if (← getExprTag node cell) ≠ "int" then return none
  let v ← getExprValue node cell
  return some (← v.toInt)

/-- The resolved items of a record whose head a tree holds. -/
def recordNodes (head : Option Expr) : Py (Option (List Expr)) := do
  let some head := head | return none
  let some header ← getExprListFrom node node.fuel head | return none
  if node.tag header ≠ "link" then return none
  let (nodes, missed) ← resolveListExprs node header
  if missed ≠ [] then return none
  return some nodes

end Fields

/-- A channel record, with its fields as its cells hold them. -/
structure Channel where
  balance : Val
  counter : Val
  withdrawalWindow : Val
  deriving DecidableEq

namespace Channel

def expr (ch : Channel) : Expr :=
  link (typed ch.balance "int") <| link (typed ch.counter "int") <|
    link (typed ch.withdrawalWindow "int") .nil

/-- The values are taken as the cells hold them: a cell fetched by its hashes holds none. -/
def fromStorage (node : Node) (head : Option Expr) : Py (Option Channel) := do
  let some nodes ← recordNodes node head | return none
  let [balance, counter, window] := nodes | return none
  if node.tag balance ≠ "int" ∨ node.tag counter ≠ "int" ∨ node.tag window ≠ "int" then
    return none
  return some ⟨balance.value, counter.value, window.value⟩

end Channel

structure TreasuryUserRecord where
  balance : Int
  loansRoot : Pointer
  totalInterestPaid : Int
  guaranteesRoot : Pointer
  loaned : Int
  defaulted : Int
  guaranteed : Int
  deriving DecidableEq

namespace TreasuryUserRecord

/-- `TreasuryUserRecord()`. -/
def empty : TreasuryUserRecord := ⟨0, .nil, 0, .nil, 0, 0, 0⟩

def expr (r : TreasuryUserRecord) : Expr :=
  link (int_ r.balance) <| link r.loansRoot.rootItem <| link (int_ r.totalInterestPaid) <|
    link r.guaranteesRoot.rootItem <| link (int_ r.loaned) <| link (int_ r.defaulted) <|
      link (int_ r.guaranteed) .nil

variable (node : Node)

/-- A record of the four fields it has always had, or of all seven. -/
def ofNodes (balance loans interest guarantees : Expr) (credit : List Expr) :
    Py (Option TreasuryUserRecord) := do
  let some balance ← intField node balance | return none
  let some loansRoot ← readField node loans | return none
  let some totalInterestPaid ← intField node interest | return none
  let some guaranteesRoot ← readField node guarantees | return none
  match credit with
  | [] => return some ⟨balance, loansRoot, totalInterestPaid, guaranteesRoot, 0, 0, 0⟩
  | [loaned, defaulted, guaranteed] =>
    let some loaned ← intField node loaned | return none
    let some defaulted ← intField node defaulted | return none
    let some guaranteed ← intField node guaranteed | return none
    return some
      ⟨balance, loansRoot, totalInterestPaid, guaranteesRoot, loaned, defaulted, guaranteed⟩
  | _ => return none

def fromStorage (head : Option Expr) : Py (Option TreasuryUserRecord) := do
  let some nodes ← recordNodes node head | return none
  match nodes with
  | balance :: loans :: interest :: guarantees :: credit =>
    if credit.length ≠ 0 ∧ credit.length ≠ 3 then return none
    ofNodes node balance loans interest guarantees credit
  | _ => return none

end TreasuryUserRecord

inductive LoanType where
  | secured
  | unsecured
  deriving DecidableEq, Repr

def LoanType.value : LoanType → Int
  | .secured => 0
  | .unsecured => 1

/-- `LoanType(v)`, which raises on anything but its two values. -/
def LoanType.ofVal : Val → Py LoanType
  | .int 0 => .ok .secured
  | .int 1 => .ok .unsecured
  | _ => .error .valueError

structure TreasuryLoanRecord where
  creationBlockNumber : Int
  loanType : LoanType
  discountedAmount : Int
  paymentAmount : Int
  paymentIntervalBlocks : Int
  nextPaymentBlockNumber : Int
  paymentCount : Int
  claimedGuarantees : List (Bytes × Bytes × Int)
  insuranceFee : Int
  missedCount : Int
  owner : Bytes
  deriving DecidableEq

namespace TreasuryLoanRecord

def claimedGuaranteesExpr (claimed : List (Bytes × Bytes × Int)) : Expr :=
  exprsToLinkedExpr <| claimed.map fun (guarantor, transactionId, amount) =>
    link (.bytes guarantor) (link (.bytes transactionId) (link (int_ amount) .nil))

def expr (r : TreasuryLoanRecord) : Expr :=
  link (int_ r.creationBlockNumber) <| link (int_ r.discountedAmount) <|
    link (int_ r.paymentCount) <| link (int_ r.loanType.value) <|
      link (int_ r.nextPaymentBlockNumber) <| link (int_ r.paymentAmount) <|
        link (int_ r.paymentIntervalBlocks) <| link (claimedGuaranteesExpr r.claimedGuarantees) <|
          link (int_ r.insuranceFee) <| link (int_ r.missedCount) <| link (.bytes r.owner) .nil

def finalPaymentBlockNumber (r : TreasuryLoanRecord) : Int :=
  r.creationBlockNumber + r.paymentIntervalBlocks * r.paymentCount

variable (node : Node)

def claimedGuarantee (entry : Expr) : Py (Option (Bytes × Bytes × Int)) := do
  let (nodes, missed) ← resolveListExprs node entry
  if missed ≠ [] then return none
  let [guarantor, guarantee, amount] := nodes | return none
  if node.tag guarantor ≠ "bytes" ∨ node.tag guarantee ≠ "bytes" then return none
  let some amount ← intField node amount | return none
  return some (← guarantor.value.toBytes, ← guarantee.value.toBytes, amount)

def claimedGuaranteesFromExpr (cell : Expr) : Py (Option (List (Bytes × Bytes × Int))) := do
  if cell = .nil then return some []
  let (entries, missed) ← resolveListExprs node cell
  if missed ≠ [] then return none
  collect (claimedGuarantee node) entries

def fromStorage (head : Option Expr) : Py (Option TreasuryLoanRecord) := do
  let some nodes ← recordNodes node head | return none
  let [creation, discounted, count, loanType, next, amount, interval, claimed, fee, missed, owner] :=
    nodes | return none
  let some creation ← intField node creation | return none
  let some discounted ← intField node discounted | return none
  let some count ← intField node count | return none
  let some loanType ← intField node loanType | return none
  let some next ← intField node next | return none
  let some amount ← intField node amount | return none
  let some interval ← intField node interval | return none
  let some claimed ← claimedGuaranteesFromExpr node claimed | return none
  let some fee ← intField node fee | return none
  let some missed ← intField node missed | return none
  if node.tag owner ≠ "bytes" then return none
  let owner ← owner.value.toBytes
  let .ok loanType := LoanType.ofVal (.int loanType) | return none
  return some
    ⟨creation, loanType, discounted, amount, interval, next, count, claimed, fee, missed, owner⟩

end TreasuryLoanRecord

/-- A guarantee, with its fields as its cells hold them. -/
structure TreasuryGuarantee where
  amount : Val
  duration : Val
  price : Val
  expiry : Val
  claimedBy : Val
  deriving DecidableEq

namespace TreasuryGuarantee

def expr (g : TreasuryGuarantee) : Expr :=
  link (typed g.amount "int") <| link (typed g.duration "int") <| link (typed g.price "int") <|
    link (typed g.expiry "int") <| link (match g.claimedBy with
      | .raw b => .bytes b
      | .cell e => .bytesOf e
      | _ => .bytes []) .nil

variable (node : Node)

def field (cell : Expr) : Py (Option Val) := do
  let tag ← getExprTag node cell
  if tag = "int" then return some (← getExprValue node cell)
  if tag = "bytes" then return some cell.value
  return none

def fromStorage (head : Option Expr) : Py (Option TreasuryGuarantee) := do
  let some nodes ← recordNodes node head | return none
  let [amount, duration, price, expiry, claimedBy] := nodes | return none
  let some amount ← field node amount | return none
  let some duration ← field node duration | return none
  let some price ← field node price | return none
  let some expiry ← field node expiry | return none
  let some claimedBy ← field node claimedBy | return none
  return some ⟨amount, duration, price, expiry, claimedBy⟩

end TreasuryGuarantee

/-- `load_user_record`. -/
def loadUserRecord (node : Node) (tree : Tree) (key : Bytes) : Py (Option TreasuryUserRecord) :=
  TreasuryUserRecord.fromStorage node (getFromRadixTree node tree key)

/-- `load_loan_record`. -/
def loadLoanRecord (node : Node) (tree : Tree) (key : Bytes) : Py (Option TreasuryLoanRecord) :=
  TreasuryLoanRecord.fromStorage node (getFromRadixTree node tree key)

structure StorageLane where
  blockHash : Bytes
  height : Int
  winner : Bytes
  deriving DecidableEq

structure StorageRecord where
  creationBlockHash : Bytes
  lanes : List StorageLane
  newSize : Int
  newCount : Int
  slotsRoot : Bytes
  deriving DecidableEq

def StorageLane.expr (lane : StorageLane) : Expr :=
  link (refTo lane.blockHash) (link (int_ lane.height) (link (.bytes lane.winner) .nil))

namespace StorageRecord

def expr (r : StorageRecord) : Expr :=
  link (exprsToLinkedExpr (r.lanes.map StorageLane.expr)) <| link (refTo r.creationBlockHash) <|
    link (.bytes r.slotsRoot) <| link (int_ r.newCount) <| link (int_ r.newSize) .nil

variable (node : Node)

mutual

/-- `storage_record_cells`: every loaded cell once, head before tail, after `seen` and `out`. -/
def cellsFrom : Expr → List Bytes × List Expr → List Bytes × List Expr
  | .link v h t, (seen, out) =>
    let x := node.hash (.link v h t)
    if x ∈ seen ∨ x = zero32 then (seen, out)
    else
      let acc := (x :: seen, out ++ [.link v h t])
      if node.tag (.link v h t) ≠ "link" then acc
      else childCellsFrom t (childCellsFrom h acc)
  | e, (seen, out) =>
    let x := node.hash e
    if x ∈ seen ∨ x = zero32 then (seen, out) else (x :: seen, out ++ [e])

def childCellsFrom : Child → List Bytes × List Expr → List Bytes × List Expr
  | .loaded e, acc => cellsFrom e acc
  | _, acc => acc

end

def cells (r : StorageRecord) : List Expr := (cellsFrom node r.expr ([], [])).2

def laneFromExpr (lane : Expr) : Py (Option StorageLane) := do
  if node.tag lane ≠ "link" then return none
  let (items, missed) ← resolveListExprs node lane
  if missed ≠ [] then return none
  let [hash, height, winner] := items | return none
  if (← getExprTag node hash) ≠ "link" then return none
  let some height ← intField node height | return none
  if (← getExprTag node winner) ≠ "bytes" then return none
  return some ⟨← getReferencedHash node hash, height, ← winner.value.toBytes⟩

/-- `storage_record_from_expr`. -/
def fromExpr (header : Option Expr) : Py (Option StorageRecord) := do
  let some header := header | return none
  if node.tag header ≠ "link" then return none
  let (nodes, missed) ← resolveListExprs node header
  if missed ≠ [] then return none
  let [lanes, creation, root, count, size] := nodes | return none
  if (← getExprTag node lanes) ≠ "link" then return none
  if (← getExprTag node creation) ≠ "link" then return none
  if (← getExprTag node root) ≠ "bytes" then return none
  let some count ← intField node count | return none
  let some size ← intField node size | return none
  let (laneNodes, missed) ← resolveListExprs node lanes
  if missed ≠ [] ∨ laneNodes.length ≠ providersPerRecord then return none
  let some lanes ← collect (laneFromExpr node) laneNodes | return none
  return some ⟨← getReferencedHash node creation, lanes, size, count, ← root.value.toBytes⟩

end StorageRecord

end Astreum
