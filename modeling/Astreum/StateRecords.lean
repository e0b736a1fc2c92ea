import Astreum.Cells

namespace Astreum

/-- The fields of an account that its cells hold, the trees by their roots. -/
structure AccountRecord where
  balance : Int
  codeHash : Pointer
  counter : Int
  dataHash : Pointer
  channelsHash : Pointer
  deriving DecidableEq

namespace AccountRecord

def expr (r : AccountRecord) : Expr :=
  link r.dataHash.rootItem <| link (int_ r.counter) <| link r.codeHash.rootItem <|
    link r.channelsHash.rootItem <| link (int_ r.balance) .nil

/-- `Accounts.get_account`, from the cell that the accounts tree holds. -/
def fromStorage (node : Node) (head : Option Expr) : Py (Option AccountRecord) := do
  let some head := head | return none
  let (nodes, missed) ← resolveListExprs node head
  if missed ≠ [] then return none
  let [data, counter, code, channels, balance] := nodes | return none
  let some data ← readField node data | return none
  let some code ← readField node code | return none
  let some channels ← readField node channels | return none
  if (← getExprTag node counter) ≠ "int" then return none
  if (← getExprTag node balance) ≠ "int" then return none
  let balance ← (← getExprValue node balance).toInt
  let counter ← (← getExprValue node counter).toInt
  return some ⟨balance, code, counter, data, channels⟩

end AccountRecord

/-- The inner header of a cell under its type, as receipts and blocks are written. -/
def innerOf (node : Node) (type : String) (header : Expr) : Py Expr :=
  match header.tailChild with
  | .loaded (.symbol s) =>
    let inner := match header.headChild with
      | .loaded e => some e
      | .byHash h => getExpr node h
      | .none => none
    match inner with
    | some inner => if s = type ∧ node.tag inner = "link" then .ok inner else .error .valueError
    | none => .error .valueError
  | _ => .error .valueError

def Status.ofVal : Val → Py Status
  | .int 0 => .ok .success
  | .int 1 => .ok .failed
  | _ => .error .valueError

namespace Receipt

variable (node : Node)

/-- The items of a body, the hash that its last cell names, and the hashes that could not be
fetched. -/
structure Body where
  items : List (Option Expr)
  transactionHash : Option Bytes
  missed : List Bytes

/-- The item of a cell of the body, or the hash that could not be fetched. -/
def bodyItem (cell : Expr) : Option Expr ⊕ Bytes :=
  match cell.headChild with
  | .loaded e => .inl (some e)
  | .byHash h => match getExpr node h with
    | some e => .inl (some e)
    | none => .inr h
  | .none => .inl none

/-- `_read_body`. -/
def readBody : Nat → Expr → Py Body
  | 0, _ => .error .outOfFuel
  | n + 1, cell =>
    if cell.base ≠ .link then .ok ⟨[], none, []⟩
    else if cell.tailChild = .none ∨ cell.tailChild = .byHash zero32 then
      match cell.headChild with
      | .byHash h => .ok ⟨[], some h, []⟩
      | .loaded e => do return ⟨[], some (← node.hash? e), []⟩
      | .none => .ok ⟨[], none, []⟩
    else match bodyItem node cell with
      | .inr h => .ok ⟨[], none, [h]⟩
      | .inl item => do
        let rest ← match cell.tailChild with
          | .loaded t => readBody n t
          | .byHash h => match getExpr node h with
            | some t => readBody n t
            | none => .ok ⟨[], none, [h]⟩
          | .none => .ok ⟨[], none, []⟩
        return { rest with items := item :: rest.items }

/-- `get_expr_tag` of an item, which may be absent. -/
def itemTag : Option Expr → Py String
  | some e => getExprTag node e
  | none => .error .attributeError

def intItem (item : Option Expr) : Py Unit := do
  expect ((← itemTag node item) = "int")

def itemValue : Option Expr → Py Val
  | some e => getExprValue node e
  | none => .error .attributeError

/-- The hash of the logs. -/
def logsHashOf : Option Expr → Py Bytes
  | none => .error .attributeError
  | some logs =>
    if node.tag logs ≠ "link" then .error .valueError
    else match logs.headChild with
      | .byHash h => .ok h
      | .loaded e => if e = .nil then .ok zero32 else node.hash? e
      | .none => .ok zero32

def ofBody (body : Body) : Py Receipt := do
  expect (body.missed = [])
  let some transactionHash := body.transactionHash | .error .valueError
  let [dataFee, executionFee, logs, mint, status, storageFee, transactionFee] := body.items
    | .error .valueError
  intItem node dataFee
  intItem node executionFee
  let logsHash ← logsHashOf node logs
  intItem node mint
  let mint ← (← itemValue node mint).toInt
  expect (0 ≤ mint)
  intItem node status
  intItem node storageFee
  intItem node transactionFee
  let status ← Status.ofVal (← itemValue node status)
  let transactionFee ← (← itemValue node transactionFee).toInt
  let storageFee ← (← itemValue node storageFee).toInt
  let dataFee ← (← itemValue node dataFee).toInt
  let executionFee ← (← itemValue node executionFee).toInt
  return ⟨transactionHash, transactionFee, storageFee, dataFee, executionFee, status, logsHash,
    mint⟩

/-- `Receipt.from_storage`. -/
def fromStorage (receiptId : Bytes) : Py Receipt := do
  let some header ← getExprList node receiptId | .error .valueError
  expect (node.tag header = "link")
  let inner ← innerOf node "receipt" header
  let (nodes, missed) ← resolveListExprs node inner
  expect (missed = [])
  let [body] := nodes | .error .valueError
  expect (node.tag body = "link")
  ofBody node (← readBody node node.fuel body)

end Receipt

section Codecs

variable {node : Node}

theorem account_stored {r : AccountRecord} (h : node.Holds r.expr) (hfuel : 5 < node.fuel)
    (hdata : r.dataHash.Sized) (hcode : r.codeHash.Sized) (hchannels : r.channelsHash.Sized) :
    AccountRecord.fromStorage node (some (r.expr.stored node.blake3)) = .ok (some
      { r with
        dataHash := r.dataHash.asRead
        codeHash := r.codeHash.asRead
        channelsHash := r.channelsHash.asRead }) := by
  let fields := [r.dataHash.rootItem, int_ r.counter, r.codeHash.rootItem,
    r.channelsHash.rootItem, int_ r.balance]
  have hlist : node.Holds (exprsToLinkedExpr fields) := h
  have hnil : node.Holds .nil := hlist.nil_of_list
  have hresolve := resolveListExprs_list hlist hfuel
  have hdataItem : node.Holds r.dataHash.rootItem := hlist.head
  have hcounter : node.Holds (int_ r.counter) := hlist.tail.head
  have hcodeItem : node.Holds r.codeHash.rootItem := hlist.tail.tail.head
  have hchannelsItem : node.Holds r.channelsHash.rootItem := hlist.tail.tail.tail.head
  have hbalance : node.Holds (int_ r.balance) := hlist.tail.tail.tail.tail.head
  change AccountRecord.fromStorage node
    (some ((exprsToLinkedExpr fields).stored node.blake3)) = _
  rw [AccountRecord.fromStorage, hresolve]
  simp only [fields, List.map_cons, List.map_nil, py_ok_bind, ne_eq, not_true_eq_false, if_false,
    readField_rootItem hnil hdataItem hdata, readField_rootItem hnil hcodeItem hcode,
    readField_rootItem hnil hchannelsItem hchannels]
  rw [getExprTag_int hcounter, getExprTag_int hbalance, getExprValue_int hcounter,
    getExprValue_int hbalance]
  rfl

theorem user_stored {r : TreasuryUserRecord} (h : node.Holds r.expr) (hfuel : 7 < node.fuel)
    (hloans : r.loansRoot.Sized) (hguarantees : r.guaranteesRoot.Sized) :
    TreasuryUserRecord.fromStorage node (some (r.expr.stored node.blake3)) = .ok (some
      { r with
        loansRoot := r.loansRoot.asRead
        guaranteesRoot := r.guaranteesRoot.asRead }) := by
  let fields := [r.loansRoot.rootItem, int_ r.totalInterestPaid, r.guaranteesRoot.rootItem,
    int_ r.loaned, int_ r.defaulted, int_ r.guaranteed]
  have hlist : node.Holds (exprsToLinkedExpr (int_ r.balance :: fields)) := h
  have hnil : node.Holds .nil := hlist.nil_of_list
  have hint : ∀ n, int_ n ∈ int_ r.balance :: fields →
      intField node ((int_ n).stored node.blake3) = .ok (some n) :=
    fun n hn => intField_int (hlist.item hn)
  have hresolve := recordNodes_list hlist (by simp [fields]; omega)
  change TreasuryUserRecord.fromStorage node
    (some ((exprsToLinkedExpr (int_ r.balance :: fields)).stored node.blake3)) = _
  rw [TreasuryUserRecord.fromStorage, hresolve]
  simp only [fields, List.map_cons, List.map_nil, py_ok_bind, List.length_cons, List.length_nil,
    TreasuryUserRecord.ofNodes,
    readField_rootItem hnil (hlist.item (by simp [fields])) hloans,
    readField_rootItem hnil (hlist.item (by simp [fields])) hguarantees,
    hint r.balance (by simp), hint r.totalInterestPaid (by simp [fields]),
    hint r.loaned (by simp [fields]), hint r.defaulted (by simp [fields]),
    hint r.guaranteed (by simp [fields])]
  rfl

theorem channel_stored {balance counter window : Int}
    (h : node.Holds (Channel.expr ⟨.int balance, .int counter, .int window⟩))
    (hfuel : 3 < node.fuel) :
    Channel.fromStorage node
      (some ((Channel.expr ⟨.int balance, .int counter, .int window⟩).stored node.blake3)) =
      .ok (some ⟨.none, .none, .none⟩) := by
  have hlist : node.Holds (exprsToLinkedExpr [int_ balance, int_ counter, int_ window]) := h
  have hresolve := recordNodes_list hlist (by simp; omega)
  change Channel.fromStorage node
    (some ((exprsToLinkedExpr [int_ balance, int_ counter, int_ window]).stored node.blake3)) = _
  rw [Channel.fromStorage, hresolve]
  simp only [List.map_cons, List.map_nil, py_ok_bind, tag_int, ne_eq, not_true_eq_false, or_self,
    if_false]
  rfl

/-- The cells of a guarantee with these fields. -/
def guaranteeOf (amount duration price expiry : Int) (claimedBy : Bytes) : TreasuryGuarantee :=
  ⟨.int amount, .int duration, .int price, .int expiry, .raw claimedBy⟩

theorem field_int {n : Int} (h : node.Holds (int_ n)) :
    TreasuryGuarantee.field node ((int_ n).stored node.blake3) = .ok (some (.int n)) := by
  rw [TreasuryGuarantee.field, getExprTag_int h, getExprValue_int h]
  rfl

theorem guarantee_stored {amount duration price expiry : Int} {claimedBy : Bytes}
    (h : node.Holds (guaranteeOf amount duration price expiry claimedBy).expr)
    (hfuel : 5 < node.fuel) :
    TreasuryGuarantee.fromStorage node
      (some ((guaranteeOf amount duration price expiry claimedBy).expr.stored node.blake3)) =
      .ok (some (guaranteeOf amount duration price expiry claimedBy)) := by
  let fields := [int_ duration, int_ price, int_ expiry, .bytes claimedBy]
  have hlist : node.Holds (exprsToLinkedExpr (int_ amount :: fields)) := h
  have hint : ∀ n, int_ n ∈ int_ amount :: fields →
      TreasuryGuarantee.field node ((int_ n).stored node.blake3) = .ok (some (.int n)) :=
    fun n hn => field_int (hlist.item hn)
  have hresolve := recordNodes_list hlist (by simp [fields]; omega)
  change TreasuryGuarantee.fromStorage node
    (some ((exprsToLinkedExpr (int_ amount :: fields)).stored node.blake3)) = _
  rw [TreasuryGuarantee.fromStorage, hresolve]
  simp only [fields, List.map_cons, List.map_nil, py_ok_bind, hint amount (by simp),
    hint duration (by simp [fields]), hint price (by simp [fields]), hint expiry (by simp [fields])]
  rfl

theorem claimedGuarantee_stored {entry : Bytes × Bytes × Int}
    (h : node.Holds (link (.bytes entry.1) (link (.bytes entry.2.1) (link (int_ entry.2.2) .nil))))
    (hfuel : 3 < node.fuel) :
    TreasuryLoanRecord.claimedGuarantee node
      ((link (.bytes entry.1) (link (.bytes entry.2.1)
        (link (int_ entry.2.2) .nil))).stored node.blake3) = .ok (some entry) := by
  have hlist : node.Holds
      (exprsToLinkedExpr [.bytes entry.1, .bytes entry.2.1, int_ entry.2.2]) := h
  have hamount : node.Holds (int_ entry.2.2) := hlist.item (by simp)
  have hresolve := resolveListExprs_list hlist hfuel
  change TreasuryLoanRecord.claimedGuarantee node
    ((exprsToLinkedExpr [.bytes entry.1, .bytes entry.2.1, int_ entry.2.2]).stored node.blake3) = _
  rw [TreasuryLoanRecord.claimedGuarantee, hresolve]
  simp only [List.map_cons, List.map_nil, py_ok_bind, ne_eq, not_true_eq_false, if_false,
    intField_int hamount]
  rfl

/-- What is written for the items of a list is read back item by item. -/
theorem collect_map {α : Type} {f : Expr → Py (Option α)} {g : α → Expr} {items : List α}
    (h : ∀ a ∈ items, f (g a) = .ok (some a)) : collect f (items.map g) = .ok (some items) := by
  induction items with
  | nil => rfl
  | cons a items ih =>
    rw [List.map_cons, collect, h a List.mem_cons_self,
      ih fun a' ha' => h a' (List.mem_cons_of_mem _ ha')]
    rfl

theorem claimedGuarantees_stored {claimed : List (Bytes × Bytes × Int)}
    (h : node.Holds (TreasuryLoanRecord.claimedGuaranteesExpr claimed))
    (hlength : claimed.length < node.fuel) (hfuel : 3 < node.fuel) :
    TreasuryLoanRecord.claimedGuaranteesFromExpr node
      ((TreasuryLoanRecord.claimedGuaranteesExpr claimed).stored node.blake3) =
      .ok (some claimed) := by
  have hresolve := resolveListExprs_list h (by simpa using hlength)
  rw [TreasuryLoanRecord.claimedGuaranteesFromExpr]
  split
  · rename_i hnil
    cases claimed with
    | nil => rfl
    | cons entry claimed => cases hnil
  · rw [TreasuryLoanRecord.claimedGuaranteesExpr, hresolve, List.map_map]
    simp only [py_ok_bind, ne_eq, not_true_eq_false, if_false]
    exact collect_map fun entry hentry =>
      claimedGuarantee_stored (h.item (List.mem_map_of_mem hentry)) hfuel

theorem loan_stored {r : TreasuryLoanRecord} (h : node.Holds r.expr) (hfuel : 11 < node.fuel)
    (hclaimed : r.claimedGuarantees.length < node.fuel) :
    TreasuryLoanRecord.fromStorage node (some (r.expr.stored node.blake3)) = .ok (some r) := by
  let fields := [int_ r.discountedAmount, int_ r.paymentCount, int_ r.loanType.value,
    int_ r.nextPaymentBlockNumber, int_ r.paymentAmount, int_ r.paymentIntervalBlocks,
    TreasuryLoanRecord.claimedGuaranteesExpr r.claimedGuarantees, int_ r.insuranceFee,
    int_ r.missedCount, .bytes r.owner]
  have hlist : node.Holds (exprsToLinkedExpr (int_ r.creationBlockNumber :: fields)) := h
  have hint : ∀ n, int_ n ∈ int_ r.creationBlockNumber :: fields →
      intField node ((int_ n).stored node.blake3) = .ok (some n) :=
    fun n hn => intField_int (hlist.item hn)
  have hresolve := recordNodes_list hlist (by simp [fields]; omega)
  have htype : LoanType.ofVal (.int r.loanType.value) = .ok r.loanType := by
    cases r.loanType <;> rfl
  change TreasuryLoanRecord.fromStorage node
    (some ((exprsToLinkedExpr (int_ r.creationBlockNumber :: fields)).stored node.blake3)) = _
  rw [TreasuryLoanRecord.fromStorage, hresolve]
  simp only [fields, List.map_cons, List.map_nil, py_ok_bind,
    claimedGuarantees_stored (hlist.item (by simp [fields])) hclaimed (by omega),
    hint r.creationBlockNumber (by simp), hint r.discountedAmount (by simp [fields]),
    hint r.paymentCount (by simp [fields]), hint r.loanType.value (by simp [fields]),
    hint r.nextPaymentBlockNumber (by simp [fields]), hint r.paymentAmount (by simp [fields]),
    hint r.paymentIntervalBlocks (by simp [fields]), hint r.insuranceFee (by simp [fields]),
    hint r.missedCount (by simp [fields]), htype]
  rfl

theorem lane_stored {lane : StorageLane} (h : node.Holds lane.expr) (hfuel : 3 < node.fuel) :
    StorageRecord.laneFromExpr node (lane.expr.stored node.blake3) = .ok (some lane) := by
  let fields := [refTo lane.blockHash, int_ lane.height, .bytes lane.winner]
  have hlist : node.Holds (exprsToLinkedExpr fields) := h
  have hheight : node.Holds (int_ lane.height) := hlist.item (by simp [fields])
  have htag : node.tag (lane.expr.stored node.blake3) = "link" :=
    tag_stored_pair h.tail fun tag _ hab => by cases hab
  have hresolve := resolveListExprs_list hlist hfuel
  change resolveListExprs node (lane.expr.stored node.blake3) = _ at hresolve
  rw [StorageRecord.laneFromExpr, htag, hresolve]
  simp only [fields, List.map_cons, List.map_nil, py_ok_bind, ne_eq, not_true_eq_false, if_false,
    getExprTag_refTo, intField_int hheight]
  rfl

/-- A storage record is read if it has the lanes of every record, and else is none. -/
theorem storage_stored {r : StorageRecord} (h : node.Holds r.expr) (hfuel : 5 < node.fuel)
    (hlanes : r.lanes.length < node.fuel) :
    StorageRecord.fromExpr node (some (r.expr.stored node.blake3)) =
      .ok (if r.lanes.length = providersPerRecord then some r else none) := by
  let fields := [exprsToLinkedExpr (r.lanes.map StorageLane.expr), refTo r.creationBlockHash,
    .bytes r.slotsRoot, int_ r.newCount, int_ r.newSize]
  have hlist : node.Holds (exprsToLinkedExpr fields) := h
  have hcells : node.Holds (exprsToLinkedExpr (r.lanes.map StorageLane.expr)) := h.head
  have hcount : node.Holds (int_ r.newCount) := hlist.item (by simp [fields])
  have hsize : node.Holds (int_ r.newSize) := hlist.item (by simp [fields])
  have htag : node.tag (r.expr.stored node.blake3) = "link" :=
    tag_stored_pair h.tail fun tag _ hab => by cases hab
  have hresolve := resolveListExprs_list hlist hfuel
  change resolveListExprs node (r.expr.stored node.blake3) = _ at hresolve
  have hnodes := resolveListExprs_list hcells (by simpa using hlanes)
  rw [StorageRecord.fromExpr]
  simp only [htag, hresolve, fields, List.map_cons, List.map_nil, py_ok_bind, ne_eq,
    not_true_eq_false, if_false, getExprTag_refTo, getExprTag_list _ hcells, intField_int hcount,
    intField_int hsize, hnodes, false_or, List.length_map]
  have hcollect : collect (StorageRecord.laneFromExpr node)
      (r.lanes.map (Expr.stored node.blake3 ∘ StorageLane.expr)) = .ok (some r.lanes) :=
    collect_map fun lane hlane =>
      lane_stored (hcells.item (List.mem_map_of_mem hlane)) (by omega)
  by_cases hlength : r.lanes.length = providersPerRecord
  · rw [if_neg (not_not.mpr hlength), if_pos hlength, List.map_map, hcollect]
    rfl
  · rw [if_pos hlength, if_neg hlength]
    rfl

/-- The body of a receipt, of which the last cell is not fetched. -/
theorem readBody_stored (items : List Expr) {x : Bytes} {fuel : Nat}
    (h : node.Holds (items.foldr link (refTo x))) (hfuel : items.length < fuel) :
    Receipt.readBody node fuel ((items.foldr link (refTo x)).stored node.blake3) =
      .ok ⟨items.map fun e => some (e.stored node.blake3), some x, []⟩ := by
  induction items generalizing fuel with
  | nil =>
    obtain ⟨n, rfl⟩ := Nat.exists_eq_add_of_lt hfuel
    rfl
  | cons item items ih =>
    obtain ⟨n, rfl⟩ : ∃ n, fuel = n + 1 := ⟨fuel - 1, by rw [List.length_cons] at hfuel; omega⟩
    have hhead : node.Holds item := h.head
    have htail : node.Holds (items.foldr link (refTo x)) := h.tail
    have hzero : node.hash (items.foldr link (refTo x)) ≠ zero32 := fun hz => by
      have hnil := htail.zero _ (Expr.mem_cells _) hz
      cases items <;> cases hnil
    have hrest := @ih n htail (by rw [List.length_cons] at hfuel; omega)
    change Receipt.readBody node _
      ((link item (items.foldr link (refTo x))).stored node.blake3) = _
    rw [stored_pair, Receipt.readBody]
    simp only [Expr.base, Expr.tailChild, ne_eq, not_true_eq_false, if_false, reduceCtorEq,
      Child.byHash.injEq, hzero, or_self, Receipt.bodyItem, Expr.headChild, hhead.self,
      htail.self, hrest]
    rfl

theorem innerOf_stored {item : Expr} {items : List Expr} {type : String}
    (h : node.Holds (exprsToLinkedExpr (item :: items))) :
    innerOf node type (.link .none (.byHash (node.hash (exprsToLinkedExpr (item :: items))))
      (.loaded (.symbol type))) =
      .ok ((exprsToLinkedExpr (item :: items)).stored node.blake3) := by
  have htail : node.Holds (exprsToLinkedExpr items) := h.tail
  have htag : node.tag ((exprsToLinkedExpr (item :: items)).stored node.blake3) = "link" :=
    tag_stored_pair htail (list_ne_type items)
  simp [innerOf, Expr.tailChild, Expr.headChild, h.self, htag]

theorem tag_header (node : Node) (h : Child) {s : String} (hs : s ∉ builtinCompositeTypeNames) :
    node.tag (.link .none h (.loaded (.symbol s))) = "link" := by
  simp [Node.tag, Expr.builtinTag, Expr.base, Expr.tailChild, hs]

theorem ofBody_stored {r : Receipt} (hnil : node.Holds .nil) (hint : ∀ n ∈ [r.dataFee,
      r.executionFee, r.mint, r.status.code, r.storageFee, r.transactionFee], node.Holds (int_ n)) :
    Receipt.ofBody node
      ⟨[int_ r.dataFee, int_ r.executionFee, refTo r.logsHash, int_ r.mint, int_ r.status.code,
        int_ r.storageFee, int_ r.transactionFee].map fun e => some (e.stored node.blake3),
        some r.transactionHash, []⟩ = if 0 ≤ r.mint then .ok r else .error .valueError := by
  have hitem : ∀ n ∈ [r.dataFee, r.executionFee, r.mint, r.status.code, r.storageFee,
      r.transactionFee],
      Receipt.intItem node (some ((int_ n).stored node.blake3)) = .ok () ∧
      Receipt.itemValue node (some ((int_ n).stored node.blake3)) = .ok (.int n) := by
    intro n hn
    refine ⟨?_, getExprValue_int (hint n hn)⟩
    rw [Receipt.intItem, Receipt.itemTag, getExprTag_int (hint n hn)]
    rfl
  simp only [List.forall_mem_cons, List.not_mem_nil, false_imp_iff, implies_true, and_true]
    at hitem
  obtain ⟨hdata, hexecution, hmint, hstatus, hstorage, htransaction⟩ := hitem
  have hlogs : Receipt.logsHashOf node (some ((refTo r.logsHash).stored node.blake3)) =
      .ok r.logsHash := by
    rw [Receipt.logsHashOf, tag_refTo hnil]
    rfl
  have hcode : Status.ofVal (.int r.status.code) = .ok r.status := by
    cases r.status <;> rfl
  rw [Receipt.ofBody]
  simp only [List.map_cons, List.map_nil, expect, if_true, py_ok_bind, hdata, hexecution, hmint,
    hstatus, hstorage, htransaction, hlogs, hcode, Val.toInt]
  split
  · rfl
  · rfl

/-- A receipt is read if its mint is not negative, and else raises. -/
theorem receipt_stored {r : Receipt} (h : node.Holds r.expr) (hfuel : 8 < node.fuel) :
    Receipt.fromStorage node (node.hash r.expr) =
      if 0 ≤ r.mint then .ok r else .error .valueError := by
  let items := [int_ r.dataFee, int_ r.executionFee, refTo r.logsHash, int_ r.mint,
    int_ r.status.code, int_ r.storageFee, int_ r.transactionFee]
  let body := items.foldr link (refTo r.transactionHash)
  have hexpr : r.expr = link (exprsToLinkedExpr [body]) (.symbol "receipt") := rfl
  rw [hexpr] at h ⊢
  have hinner : node.Holds (exprsToLinkedExpr [body]) := h.head
  have hbody : node.Holds body := hinner.head
  have hheader := getExprList_tagged h (by decide) (by omega)
  have htagHeader : node.tag (.link .none (.byHash (node.hash (exprsToLinkedExpr [body])))
      (.loaded (.symbol "receipt"))) = "link" := tag_header node _ (by decide)
  have htagBody : node.tag (body.stored node.blake3) = "link" :=
    tag_stored_pair hbody.tail fun tag _ hab => by cases hab
  have hinnerOf := @innerOf_stored node body [] "receipt" hinner
  have hresolve := resolveListExprs_list hinner (by simp; omega)
  have hread : Receipt.readBody node node.fuel (body.stored node.blake3) =
      .ok ⟨items.map fun e => some (e.stored node.blake3), some r.transactionHash, []⟩ :=
    readBody_stored items hbody (by simp [items]; omega)
  have hfields : ∀ n ∈ [r.dataFee, r.executionFee, r.mint, r.status.code, r.storageFee,
      r.transactionFee], node.Holds (int_ n) := by
    intro n hn
    refine hbody.of_foldr ?_
    simp only [items, List.mem_cons, List.not_mem_nil, or_false] at hn ⊢
    rcases hn with rfl | rfl | rfl | rfl | rfl | rfl <;> simp
  rw [Receipt.fromStorage, hheader]
  simp only [py_ok_bind, hinnerOf, hresolve, List.map_cons, List.map_nil, htagHeader, htagBody,
    hread, expect, if_true]
  exact ofBody_stored hinner.nil_of_list hfields

end Codecs

section Records

/-- A record of the state, of any of the seven kinds. -/
inductive StateRecord where
  | account (r : AccountRecord)
  | user (r : TreasuryUserRecord)
  | loan (r : TreasuryLoanRecord)
  | guarantee (amount duration price expiry : Int) (claimedBy : Bytes)
  | storage (r : StorageRecord)
  | channel (balance counter withdrawalWindow : Int)
  | receipt (r : Receipt)
  deriving DecidableEq

namespace StateRecord

def expr : StateRecord → Expr
  | account r => r.expr
  | user r => r.expr
  | loan r => r.expr
  | guarantee amount duration price expiry claimedBy =>
    (guaranteeOf amount duration price expiry claimedBy).expr
  | storage r => r.expr
  | channel balance counter window => Channel.expr ⟨.int balance, .int counter, .int window⟩
  | receipt r => r.expr

/-- The hashes of a record have 32 bytes. -/
def Sized : StateRecord → Prop
  | account r => r.dataHash.Sized ∧ r.codeHash.Sized ∧ r.channelsHash.Sized
  | user r => r.loansRoot.Sized ∧ r.guaranteesRoot.Sized
  | storage r => r.creationBlockHash.length = 32 ∧ ∀ lane ∈ r.lanes, lane.blockHash.length = 32
  | receipt r => r.transactionHash.length = 32 ∧ r.logsHash.length = 32
  | _ => True

/-- The node gives the record back for the hash of its cells. -/
def ReadBack (node : Node) : StateRecord → Prop
  | account r => AccountRecord.fromStorage node (getExpr node (node.hash r.expr)) = .ok (some r)
  | user r =>
    TreasuryUserRecord.fromStorage node (getExpr node (node.hash r.expr)) = .ok (some r)
  | loan r => TreasuryLoanRecord.fromStorage node (getExpr node (node.hash r.expr)) = .ok (some r)
  | guarantee amount duration price expiry claimedBy =>
    let r := guaranteeOf amount duration price expiry claimedBy
    TreasuryGuarantee.fromStorage node (getExpr node (node.hash r.expr)) = .ok (some r)
  | storage r => StorageRecord.fromExpr node (getExpr node (node.hash r.expr)) = .ok (some r)
  | channel balance counter window =>
    let r : Channel := ⟨.int balance, .int counter, .int window⟩
    Channel.fromStorage node (getExpr node (node.hash r.expr)) = .ok (some r)
  | receipt r => Receipt.fromStorage node (node.hash r.expr) = .ok r

/-- A pointer that its cells tell: nil is in no block. -/
def Tells (p : Pointer) : Prop := p.id = zero32 → p.block = none

/-- What a record has to be for its cells to give it back. A channel never is. -/
def Kept : StateRecord → Prop
  | account r => Tells r.dataHash ∧ Tells r.codeHash ∧ Tells r.channelsHash
  | user r => Tells r.loansRoot ∧ Tells r.guaranteesRoot
  | storage r => r.lanes.length = providersPerRecord
  | channel _ _ _ => False
  | receipt r => 0 ≤ r.mint
  | _ => True

variable {node : Node} {r : StateRecord}

theorem writable_rootItem {p : Pointer} (h : p.Sized) : p.rootItem.Writable := by
  obtain ⟨id, block⟩ := p
  cases block with
  | none => exact writable_refTo h.1
  | some block =>
    rw [Pointer.rootItem]
    dsimp only
    split
    · exact writable_refTo rfl
    · exact writable_link trivial (writable_link trivial (writable_link trivial trivial))

theorem writable_expr (h : r.Sized) : r.expr.Writable := by
  cases r with
  | account r =>
    exact writable_link (writable_rootItem h.1) <| writable_link (writable_int _) <|
      writable_link (writable_rootItem h.2.1) <| writable_link (writable_rootItem h.2.2) <|
        writable_link (writable_int _) trivial
  | user r =>
    exact writable_link (writable_int _) <| writable_link (writable_rootItem h.1) <|
      writable_link (writable_int _) <| writable_link (writable_rootItem h.2) <|
        writable_link (writable_int _) <| writable_link (writable_int _) <|
          writable_link (writable_int _) trivial
  | loan r =>
    have hclaimed : (TreasuryLoanRecord.claimedGuaranteesExpr r.claimedGuarantees).Writable := by
      refine writable_list fun e he => ?_
      obtain ⟨entry, -, rfl⟩ := List.mem_map.mp he
      exact writable_link trivial (writable_link trivial (writable_link (writable_int _) trivial))
    exact writable_link (writable_int _) <| writable_link (writable_int _) <|
      writable_link (writable_int _) <| writable_link (writable_int _) <|
        writable_link (writable_int _) <| writable_link (writable_int _) <|
          writable_link (writable_int _) <| writable_link hclaimed <|
            writable_link (writable_int _) <| writable_link (writable_int _) <|
              writable_link trivial trivial
  | guarantee amount duration price expiry claimedBy =>
    exact writable_link (writable_int _) <| writable_link (writable_int _) <|
      writable_link (writable_int _) <| writable_link (writable_int _) <|
        writable_link trivial trivial
  | storage r =>
    have hlanes : (exprsToLinkedExpr (r.lanes.map StorageLane.expr)).Writable := by
      refine writable_list fun e he => ?_
      obtain ⟨lane, hlane, rfl⟩ := List.mem_map.mp he
      exact writable_link (writable_refTo (h.2 lane hlane))
        (writable_link (writable_int _) (writable_link trivial trivial))
    exact writable_link hlanes <| writable_link (writable_refTo h.1) <| writable_link trivial <|
      writable_link (writable_int _) <| writable_link (writable_int _) trivial
  | channel balance counter window =>
    exact writable_link (writable_int _) <| writable_link (writable_int _) <|
      writable_link (writable_int _) trivial
  | receipt r =>
    refine writable_link (writable_link ?_ trivial) trivial
    exact writable_link (writable_int _) <| writable_link (writable_int _) <|
      writable_link (writable_refTo h.2) <| writable_link (writable_int _) <|
        writable_link (writable_int _) <| writable_link (writable_int _) <|
          writable_link (writable_int _) (writable_refTo h.1)

theorem tells_iff (p : Pointer) : p.asRead = p ↔ Tells p := asRead_eq_iff

/-- A node that has every cell of a record gives it back exactly if it is one that can be kept. -/
theorem readBack_iff (h : node.Holds r.expr) (hsized : r.Sized)
    (hfuel : r.expr.linkDepth < node.fuel) : r.ReadBack node ↔ r.Kept := by
  cases r with
  | account r =>
    have hself : getExpr node (node.hash r.expr) = some (r.expr.stored node.blake3) := h.self
    have hdepth := length_le_linkDepth [r.dataHash.rootItem, int_ r.counter, r.codeHash.rootItem,
      r.channelsHash.rootItem, int_ r.balance]
    have hread := account_stored h (lt_of_le_of_lt hdepth hfuel) hsized.1 hsized.2.1 hsized.2.2
    rw [ReadBack, hself, hread]
    obtain ⟨balance, code, counter, data, channels⟩ := r
    simp only [Except.ok.injEq, Option.some.injEq, AccountRecord.mk.injEq, true_and, Kept,
      tells_iff]
    tauto
  | user r =>
    have hself : getExpr node (node.hash r.expr) = some (r.expr.stored node.blake3) := h.self
    have hdepth := length_le_linkDepth [int_ r.balance, r.loansRoot.rootItem,
      int_ r.totalInterestPaid, r.guaranteesRoot.rootItem, int_ r.loaned, int_ r.defaulted,
      int_ r.guaranteed]
    have hread := user_stored h (lt_of_le_of_lt hdepth hfuel) hsized.1 hsized.2
    rw [ReadBack, hself, hread]
    obtain ⟨balance, loans, interest, guarantees, loaned, defaulted, guaranteed⟩ := r
    simp only [Except.ok.injEq, Option.some.injEq, TreasuryUserRecord.mk.injEq, true_and, and_true,
      Kept, tells_iff]
  | loan r =>
    have hself : getExpr node (node.hash r.expr) = some (r.expr.stored node.blake3) := h.self
    let fields := [int_ r.creationBlockNumber, int_ r.discountedAmount, int_ r.paymentCount,
      int_ r.loanType.value, int_ r.nextPaymentBlockNumber, int_ r.paymentAmount,
      int_ r.paymentIntervalBlocks, TreasuryLoanRecord.claimedGuaranteesExpr r.claimedGuarantees,
      int_ r.insuranceFee, int_ r.missedCount, .bytes r.owner]
    have hdepth : 11 ≤ r.expr.linkDepth := length_le_linkDepth fields
    have hitem : (TreasuryLoanRecord.claimedGuaranteesExpr r.claimedGuarantees).linkDepth <
        r.expr.linkDepth := linkDepth_item (List.mem_of_getElem? (by rfl : fields[7]? = some _))
    have hlength := length_le_linkDepth (r.claimedGuarantees.map fun claimed =>
      link (.bytes claimed.1) (link (.bytes claimed.2.1) (link (int_ claimed.2.2) .nil)))
    rw [List.length_map] at hlength
    have hclaimed : r.claimedGuarantees.length < node.fuel :=
      lt_of_le_of_lt hlength (lt_trans hitem hfuel)
    have hread := loan_stored h (lt_of_le_of_lt hdepth hfuel) hclaimed
    rw [ReadBack, hself, hread]
    simp [Kept]
  | guarantee amount duration price expiry claimedBy =>
    let r := guaranteeOf amount duration price expiry claimedBy
    have hself : getExpr node (node.hash r.expr) = some (r.expr.stored node.blake3) := h.self
    have hdepth := length_le_linkDepth [int_ amount, int_ duration, int_ price, int_ expiry,
      .bytes claimedBy]
    have hread := guarantee_stored h (lt_of_le_of_lt hdepth hfuel)
    rw [ReadBack, hself, hread]
    simp [Kept]
  | storage r =>
    have hself : getExpr node (node.hash r.expr) = some (r.expr.stored node.blake3) := h.self
    let fields := [exprsToLinkedExpr (r.lanes.map StorageLane.expr), refTo r.creationBlockHash,
      .bytes r.slotsRoot, int_ r.newCount, int_ r.newSize]
    have hdepth : 5 ≤ r.expr.linkDepth := length_le_linkDepth fields
    have hitem : (exprsToLinkedExpr (r.lanes.map StorageLane.expr)).linkDepth <
        r.expr.linkDepth := linkDepth_item (List.mem_of_getElem? (by rfl : fields[0]? = some _))
    have hlength := length_le_linkDepth (r.lanes.map StorageLane.expr)
    rw [List.length_map] at hlength
    have hlanes : r.lanes.length < node.fuel := lt_of_le_of_lt hlength (lt_trans hitem hfuel)
    have hread := storage_stored h (lt_of_le_of_lt hdepth hfuel) hlanes
    rw [ReadBack, hself, hread]
    simp [Kept]
  | channel balance counter window =>
    let r : Channel := ⟨.int balance, .int counter, .int window⟩
    have hself : getExpr node (node.hash r.expr) = some (r.expr.stored node.blake3) := h.self
    have hdepth := length_le_linkDepth [int_ balance, int_ counter, int_ window]
    have hread := channel_stored h (lt_of_le_of_lt hdepth hfuel)
    rw [ReadBack, hself, hread]
    simp [Kept]
  | receipt r =>
    have hdepth : 8 ≤ r.expr.linkDepth := by
      let items := [int_ r.dataFee, int_ r.executionFee, refTo r.logsHash, int_ r.mint,
        int_ r.status.code, int_ r.storageFee, int_ r.transactionFee]
      let body := items.foldr link (refTo r.transactionHash)
      have hbody : 8 ≤ body.linkDepth := length_add_linkDepth_le items (refTo r.transactionHash)
      have hexpr : r.expr.linkDepth = max (max body.linkDepth 0 + 1) 0 + 1 := rfl
      omega
    have hread := receipt_stored h (lt_of_le_of_lt hdepth hfuel)
    rw [ReadBack, hread]
    simp [Kept]

end StateRecord

/-- Put cell by cell, a record of the state is read back exactly if it is not a channel and its
fields are those that its cells tell. -/
theorem state_record_round_trip_iff {node : Node} {r : StateRecord}
    (hdigest : ∀ x, (node.blake3 x).length = 32) (hsized : r.Sized)
    (hapart : DistinctHashes node.blake3 r.expr.cells) (hfuel : r.expr.linkDepth < node.fuel) :
    r.ReadBack (node.storing r.expr.cells) ↔ r.Kept :=
  StateRecord.readBack_iff (holds_storing hdigest
    (Expr.cells_writable _ (StateRecord.writable_expr hsized)) hapart fun _ hc => hc) hsized hfuel

section Samples

/-- A node with digests of 32 bytes and no cells. -/
def sampleNode (fuel : Nat) : Node where
  blake3 := sampleDigest
  stored _ := none
  openTree _ := .empty
  treeRoot _ := zero32
  treeCells _ := []
  verify _ _ _ := true
  fuel := fuel

/-- A user record whose roots are in an older block and nowhere. -/
def stakedRecord : StateRecord :=
  .user ⟨20, ⟨List.replicate 32 7, some (List.replicate 32 9)⟩, 3, .nil, 0, 0, -1⟩

theorem staked_record_is_read_back :
    stakedRecord.ReadBack ((sampleNode 20).storing stakedRecord.expr.cells) := by
  have hdigest : ∀ x, (sampleDigest x).length = 32 := fun x => by simp [sampleDigest]
  have hsized : stakedRecord.Sized :=
    ⟨⟨by decide, fun b hb => by cases hb; decide⟩, ⟨by decide, fun b hb => by cases hb⟩⟩
  have hapart : DistinctHashes sampleDigest stakedRecord.expr.cells :=
    ⟨by decide +kernel, by decide +kernel, by decide +kernel⟩
  exact (@state_record_round_trip_iff (sampleNode 20) stakedRecord hdigest hsized hapart
    (by decide)).mpr ⟨fun h => absurd h (by decide), fun _ => rfl⟩

/-- A channel whose cells are stored one by one comes back without its numbers. -/
theorem stored_channel_has_no_numbers :
    let r : Channel := ⟨.int 5, .int 1, .int 2⟩
    let node := (sampleNode 20).storing r.expr.cells
    Channel.fromStorage node (getExpr node (node.hash r.expr)) =
      .ok (some ⟨.none, .none, .none⟩) ∧ ¬ (StateRecord.channel 5 1 2).ReadBack node := by
  have hread : let r : Channel := ⟨.int 5, .int 1, .int 2⟩
      let node := (sampleNode 20).storing r.expr.cells
      Channel.fromStorage node (getExpr node (node.hash r.expr)) =
        .ok (some ⟨.none, .none, .none⟩) := by decide +kernel
  refine ⟨hread, fun h => ?_⟩
  have hsame := h.symm.trans hread
  cases hsame

end Samples

end Records

end Astreum
