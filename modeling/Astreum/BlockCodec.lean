import Astreum.StateRecords

namespace Astreum

/-- The fields of a block that its cells hold. -/
structure BlockFields where
  chainId : Int
  previousBlockHash : Bytes
  height : Int
  timestamp : Int
  accountsHash : Bytes
  totalTransactionFee : Int
  totalStorageFee : Int
  transactionsHash : Bytes
  receiptsHash : Bytes
  validationDifficulty : Int
  storageDifficulty : Int
  validatorPublicKeyBytes : Bytes
  nonce : Int
  bloomHash : Bytes
  previousEraHash : Bytes
  signature : Bytes
  statistics : List Window
  globalLoaned : Int
  globalDefaulted : Int
  globalLoanCount : Int
  deriving DecidableEq

/-- `value or ZERO32`. -/
def orZero32 (value : Bytes) : Bytes := if value = [] then zero32 else value

/-- `create_block`, as far as the fields go that the cells hold. -/
def createBlock (b : BlockFields) : BlockFields :=
  { b with
    previousBlockHash := orZero32 b.previousBlockHash
    accountsHash := orZero32 b.accountsHash
    transactionsHash := orZero32 b.transactionsHash
    receiptsHash := orZero32 b.receiptsHash
    bloomHash := orZero32 b.bloomHash
    previousEraHash := orZero32 b.previousEraHash
    signature := orZero32 b.signature
    validatorPublicKeyBytes := orZero32 b.validatorPublicKeyBytes }

section Statistics

/-- The window of range `2 ^ i` before the block is counted, and if the previous block had it. -/
def windowBefore (height : Int) (prev : List Window) (i : Nat) : Window × Bool :=
  match prev[i + 1]? with
  | some w => (w, true)
  | none => match prev with
    | total :: _ =>
      if height = 2 ^ i then (⟨total.prevFee, total.prevStake, 0, 0, total.currFee, 0⟩, false)
      else (⟨0, 0, 0, 0, 0, 0⟩, false)
    | [] => (⟨0, 0, 0, 0, 0, 0⟩, false)

/-- A window with the block counted: at a multiple of its range it starts anew. -/
def windowAfter (height : Int) (prev : List Window) (deltaFee deltaStake deltaClaims : Int)
    (i : Nat) : Window :=
  let (w, held) := windowBefore height prev i
  if height % 2 ^ i = 0 ∧ 0 < height then
    if held then ⟨w.currFee, w.currStake, deltaFee, deltaStake, w.currClaims, deltaClaims⟩
    else ⟨w.prevFee, w.prevStake, deltaFee, deltaStake, w.prevClaims, deltaClaims⟩
  else { w with
    currFee := w.currFee + deltaFee
    currStake := w.currStake + deltaStake
    currClaims := w.currClaims + deltaClaims }

/-- `update_statistics`. -/
def updateStatistics (height : Int) (prev : List Window) (deltaFee deltaStake deltaClaims : Int) :
    List Window :=
  let total := match prev with
    | total :: _ => (total.prevFee, total.prevStake, total.currFee)
    | [] => (0, 0, 0)
  let entries := if 0 < height then Python.bitLength height else 0
  ⟨total.1 + deltaFee, total.2.1 + deltaStake, total.2.2 + deltaClaims, 0, 0, 0⟩ ::
    (List.range entries).map (windowAfter height prev deltaFee deltaStake deltaClaims)

def totalsEntry (total : Window) : Expr :=
  exprsToLinkedExpr [int_ total.prevFee, int_ total.prevStake, int_ total.currFee]

def windowEntry (w : Window) : Expr :=
  exprsToLinkedExpr [int_ w.prevFee, int_ w.prevStake, int_ w.currFee, int_ w.currStake,
    int_ w.prevClaims, int_ w.currClaims]

def statisticsEntries : List Window → List Expr
  | [] => []
  | total :: windows => totalsEntry total :: windows.map windowEntry

/-- `_statistics_to_expr`. -/
def statisticsToExpr (statistics : List Window) : Expr :=
  exprsToLinkedExpr (statisticsEntries statistics)

end Statistics

namespace BlockFields

/-- The cells of the body, the global totals first. -/
def bodyItems (b : BlockFields) : List Expr :=
  [int_ b.globalLoaned, int_ b.globalDefaulted, int_ b.globalLoanCount, refTo b.accountsHash,
    refTo b.bloomHash, int_ b.chainId, int_ b.validationDifficulty, int_ b.height, int_ b.nonce,
    refTo b.previousBlockHash, refTo b.previousEraHash, refTo b.receiptsHash,
    int_ b.storageDifficulty, int_ b.timestamp, int_ b.totalStorageFee, int_ b.totalTransactionFee,
    refTo b.transactionsHash, .bytes b.validatorPublicKeyBytes, statisticsToExpr b.statistics]

def body (b : BlockFields) : Expr := exprsToLinkedExpr b.bodyItems

/-- `block_to_expr`. -/
def expr (b : BlockFields) : Expr :=
  link (exprsToLinkedExpr [b.body, .bytes b.signature]) (.symbol "block")

end BlockFields

/-- A block as storage gives it. -/
structure DecodedBlock where
  fields : BlockFields
  exprId : Bytes
  bodyHash : Bytes
  deriving DecidableEq

section Decoding

variable (node : Node)

def checkTag (cell : Expr) (tag : String) : Py Unit := do
  expect ((← getExprTag node cell) = tag)

def intValue (cell : Expr) : Py Int := do (← getExprValue node cell).toInt

/-- One row of the statistics, by its place. -/
def statisticsRow (j : Nat) (ints : List Expr) : Py Window :=
  match ints with
  | [fee, stake, claims] =>
    if j = 0 then do
      return ⟨← intValue node fee, ← intValue node stake, ← intValue node claims, 0, 0, 0⟩
    else .error .valueError
  | [pf, ps, cf, cs, pc, cc] =>
    if 0 < j then do
      return ⟨← intValue node pf, ← intValue node ps, ← intValue node cf, ← intValue node cs,
        ← intValue node pc, ← intValue node cc⟩
    else .error .valueError
  | _ => .error .valueError

def statisticsRows : Nat → List Expr → Py (List Window)
  | _, [] => .ok []
  | j, entry :: entries =>
    if entry = .nil then statisticsRows (j + 1) entries
    else do
      let (ints, missed) ← resolveListExprs node entry
      expect (missed = [])
      let row ← statisticsRow node j ints
      return row :: (← statisticsRows (j + 1) entries)

def statisticsFromExpr (cell : Expr) : Py (List Window) := do
  let tag ← getExprTag node cell
  if tag = "link" then do
    let (nodes, missed) ← resolveListExprs node cell
    expect (missed = [])
    statisticsRows node 0 nodes
  else do
    expect (tag = "symbol")
    return []

/-- The fields of a block, from the cells of its body. -/
def blockOfNodes (nodes : List Expr) (signature : Bytes) : Py BlockFields := do
  let [globalLoaned, globalDefaulted, globalLoanCount, accounts, bloom, chainId,
    validationDifficulty, height, nonce, previous, previousEra, receipts, storageDifficulty,
    timestamp, totalStorageFee, totalTransactionFee, transactions, validator, statistics] := nodes
    | .error .valueError
  checkTag node globalLoaned "int"
  checkTag node globalDefaulted "int"
  checkTag node globalLoanCount "int"
  checkTag node accounts "link"
  checkTag node bloom "link"
  checkTag node chainId "int"
  checkTag node validationDifficulty "int"
  checkTag node height "int"
  checkTag node nonce "int"
  checkTag node previous "link"
  checkTag node previousEra "link"
  checkTag node receipts "link"
  checkTag node storageDifficulty "int"
  checkTag node timestamp "int"
  checkTag node totalStorageFee "int"
  checkTag node totalTransactionFee "int"
  checkTag node transactions "link"
  checkTag node validator "bytes"
  let statistics ← statisticsFromExpr node statistics
  return createBlock
    { chainId := ← intValue node chainId
      previousBlockHash := previous.getHeadHash node.blake3
      height := ← intValue node height
      timestamp := ← intValue node timestamp
      accountsHash := accounts.getHeadHash node.blake3
      totalTransactionFee := ← intValue node totalTransactionFee
      totalStorageFee := ← intValue node totalStorageFee
      transactionsHash := transactions.getHeadHash node.blake3
      receiptsHash := receipts.getHeadHash node.blake3
      validationDifficulty := ← intValue node validationDifficulty
      storageDifficulty := ← intValue node storageDifficulty
      validatorPublicKeyBytes := ← (← getExprValue node validator).toBytes
      nonce := ← intValue node nonce
      bloomHash := bloom.getHeadHash node.blake3
      previousEraHash := previousEra.getHeadHash node.blake3
      signature := signature
      statistics := statistics
      globalLoaned := ← intValue node globalLoaned
      globalDefaulted := ← intValue node globalDefaulted
      globalLoanCount := ← intValue node globalLoanCount }

/-- `get_block_from_storage`, without its bloom tree. -/
def getBlockFromStorage (blockHash : Bytes) : Py DecodedBlock := do
  let some header ← getExprList node blockHash | .error .valueError
  expect (node.tag header = "link")
  let inner ← innerOf node "block" header
  let (nodes, missed) ← resolveListExprs node inner
  expect (missed = [])
  let [body, sig] := nodes | .error .valueError
  expect (node.tag sig = "bytes")
  let signature ← sig.value.toBytes
  expect (node.tag body = "link")
  let (bodyNodes, missed) ← resolveListExprs node body
  expect (missed = [])
  let fields ← blockOfNodes node bodyNodes signature
  return ⟨fields, orZero32 blockHash, orZero32 (← node.hash? body)⟩

end Decoding

section RoundTrip

/-- What holds of a block that the builder or genesis made: its hashes have 32 bytes, no value that
`create_block` fills in is empty, and the totals stand in the first three places of their row. -/
structure BlockFields.Created (b : BlockFields) : Prop where
  hashes : ∀ h ∈ [b.previousBlockHash, b.accountsHash, b.transactionsHash, b.receiptsHash,
    b.bloomHash, b.previousEraHash], h.length = 32
  validator : b.validatorPublicKeyBytes ≠ []
  signature : b.signature ≠ []
  totals : ∀ total ∈ b.statistics.head?,
    total.currStake = 0 ∧ total.prevClaims = 0 ∧ total.currClaims = 0

variable {node : Node} {b b' : BlockFields}

theorem orZero32_of_ne {value : Bytes} (h : value ≠ []) : orZero32 value = value := if_neg h

/-- The rows that are written for a block have the totals in their places. -/
theorem updateStatistics_totals (height : Int) (prev : List Window)
    (deltaFee deltaStake deltaClaims : Int) :
    ∀ total ∈ (updateStatistics height prev deltaFee deltaStake deltaClaims).head?,
      total.currStake = 0 ∧ total.prevClaims = 0 ∧ total.currClaims = 0 := by
  intro total htotal
  cases htotal
  exact ⟨rfl, rfl, rfl⟩

theorem createBlock_of_created (h : b.Created) : createBlock b = b := by
  have hhash : ∀ x ∈ [b.previousBlockHash, b.accountsHash, b.transactionsHash, b.receiptsHash,
      b.bloomHash, b.previousEraHash], orZero32 x = x := by
    intro x hx
    refine orZero32_of_ne fun hnil => ?_
    have hlength := h.hashes x hx
    rw [hnil] at hlength
    cases hlength
  simp only [List.forall_mem_cons, List.not_mem_nil, false_imp_iff, implies_true, and_true]
    at hhash
  obtain ⟨hprevious, haccounts, htransactions, hreceipts, hbloom, hera⟩ := hhash
  rw [createBlock, hprevious, haccounts, htransactions, hreceipts, hbloom, hera,
    orZero32_of_ne h.validator, orZero32_of_ne h.signature]

theorem intValue_int {n : Int} (h : node.Holds (int_ n)) :
    intValue node ((int_ n).stored node.blake3) = .ok n := by
  rw [intValue, getExprValue_int h]
  rfl

theorem checkTag_int {n : Int} (h : node.Holds (int_ n)) :
    checkTag node ((int_ n).stored node.blake3) "int" = .ok () := by
  rw [checkTag, getExprTag_int h]
  rfl

theorem checkTag_refTo (node : Node) (x : Bytes) :
    checkTag node ((refTo x).stored node.blake3) "link" = .ok () := by
  rw [checkTag, getExprTag_refTo]
  rfl

theorem statisticsRow_totals {total : Window} (h : node.Holds (totalsEntry total))
    (hzero : total.currStake = 0 ∧ total.prevClaims = 0 ∧ total.currClaims = 0) :
    statisticsRow node 0 ([int_ total.prevFee, int_ total.prevStake, int_ total.currFee].map
      (Expr.stored node.blake3)) = .ok total := by
  have hint : ∀ n, int_ n ∈ [int_ total.prevFee, int_ total.prevStake, int_ total.currFee] →
      intValue node ((int_ n).stored node.blake3) = .ok n := fun n hn => intValue_int (h.item hn)
  simp only [List.map_cons, List.map_nil, statisticsRow, if_true, py_ok_bind,
    hint total.prevFee (by simp), hint total.prevStake (by simp), hint total.currFee (by simp)]
  obtain ⟨pf, ps, cf, cs, pc, cc⟩ := total
  obtain ⟨hcs, hpc, hcc⟩ := hzero
  simp only at hcs hpc hcc
  subst hcs hpc hcc
  rfl

theorem statisticsRow_window {w : Window} {j : Nat} (h : node.Holds (windowEntry w)) (hj : 0 < j) :
    statisticsRow node j ([int_ w.prevFee, int_ w.prevStake, int_ w.currFee, int_ w.currStake,
      int_ w.prevClaims, int_ w.currClaims].map (Expr.stored node.blake3)) = .ok w := by
  have hint : ∀ n, int_ n ∈ [int_ w.prevFee, int_ w.prevStake, int_ w.currFee, int_ w.currStake,
      int_ w.prevClaims, int_ w.currClaims] →
      intValue node ((int_ n).stored node.blake3) = .ok n := fun n hn => intValue_int (h.item hn)
  simp only [List.map_cons, List.map_nil, statisticsRow, if_pos hj, py_ok_bind,
    hint w.prevFee (by simp), hint w.prevStake (by simp), hint w.currFee (by simp),
    hint w.currStake (by simp), hint w.prevClaims (by simp), hint w.currClaims (by simp)]
  rfl

theorem statisticsRows_windows {windows : List Window} {j : Nat} (hj : 0 < j)
    (h : ∀ w ∈ windows, node.Holds (windowEntry w)) (hfuel : 6 < node.fuel) :
    statisticsRows node j (windows.map fun w => (windowEntry w).stored node.blake3) =
      .ok windows := by
  induction windows generalizing j with
  | nil => rfl
  | cons w windows ih =>
    have hw := h w List.mem_cons_self
    have hne : windowEntry w ≠ .nil := fun hnil => by cases hnil
    have hresolve := resolveListExprs_list hw hfuel
    change resolveListExprs node ((windowEntry w).stored node.blake3) = _ at hresolve
    rw [List.map_cons, statisticsRows, if_neg (stored_ne_nil hne _), hresolve]
    simp only [py_ok_bind, expect, if_true, statisticsRow_window hw hj,
      ih (Nat.succ_pos j) fun w' hw' => h w' (List.mem_cons_of_mem _ hw')]
    rfl

/-- The statistics of a block are read as they were written. -/
theorem statistics_stored {statistics : List Window}
    (h : node.Holds (statisticsToExpr statistics)) (hfuel : 6 < node.fuel)
    (hlength : statistics.length < node.fuel) (htotals : ∀ total ∈ statistics.head?,
      total.currStake = 0 ∧ total.prevClaims = 0 ∧ total.currClaims = 0) :
    statisticsFromExpr node ((statisticsToExpr statistics).stored node.blake3) =
      .ok statistics := by
  have hentries : (statisticsEntries statistics).length = statistics.length := by
    cases statistics <;> simp [statisticsEntries]
  have hresolve := resolveListExprs_list h (by rw [hentries]; exact hlength)
  rw [statisticsFromExpr, statisticsToExpr, getExprTag_list _ h, hresolve]
  simp only [py_ok_bind, if_true, expect]
  cases statistics with
  | nil => rfl
  | cons total windows =>
    have htotal : node.Holds (totalsEntry total) := h.head
    have hwindows : ∀ w ∈ windows, node.Holds (windowEntry w) := fun w hw =>
      h.item (List.mem_cons_of_mem _ (List.mem_map_of_mem hw))
    have hne : totalsEntry total ≠ .nil := fun hnil => by cases hnil
    have htotalResolve := resolveListExprs_list htotal (by simp; omega)
    change resolveListExprs node ((totalsEntry total).stored node.blake3) = _ at htotalResolve
    rw [statisticsEntries, List.map_cons, List.map_map, statisticsRows,
      if_neg (stored_ne_nil hne _), htotalResolve]
    have hrest := statisticsRows_windows Nat.one_pos hwindows hfuel
    simp only [py_ok_bind, expect, if_true, statisticsRow_totals htotal (htotals total rfl)]
    change (do
      let rest ← statisticsRows node 1 (windows.map fun w => (windowEntry w).stored node.blake3)
      return total :: rest) = _
    rw [hrest]
    rfl

theorem mem_bodyItems_statistics (b : BlockFields) :
    statisticsToExpr b.statistics ∈ b.bodyItems := by
  simp [BlockFields.bodyItems]

/-- The fields of a block are read from its body as they were written. -/
theorem blockOfNodes_stored (h : node.Holds b.body) (hcreated : b.Created) (hfuel : 19 < node.fuel)
    (hlength : b.statistics.length < node.fuel) :
    blockOfNodes node (b.bodyItems.map (Expr.stored node.blake3)) b.signature = .ok b := by
  have hitem : ∀ e ∈ b.bodyItems, node.Holds e := fun e he => h.item he
  have hint : ∀ n ∈ [b.globalLoaned, b.globalDefaulted, b.globalLoanCount, b.chainId,
      b.validationDifficulty, b.height, b.nonce, b.storageDifficulty, b.timestamp,
      b.totalStorageFee, b.totalTransactionFee],
      checkTag node ((int_ n).stored node.blake3) "int" = .ok () ∧
      intValue node ((int_ n).stored node.blake3) = .ok n := by
    intro n hn
    have hmem : int_ n ∈ b.bodyItems := by
      simp only [List.mem_cons, List.not_mem_nil, or_false] at hn
      rcases hn with rfl | rfl | rfl | rfl | rfl | rfl | rfl | rfl | rfl | rfl | rfl <;>
        simp [BlockFields.bodyItems]
    exact ⟨checkTag_int (hitem _ hmem), intValue_int (hitem _ hmem)⟩
  simp only [List.forall_mem_cons, List.not_mem_nil, false_imp_iff, implies_true, and_true]
    at hint
  obtain ⟨hloaned, hdefaulted, hcount, hchain, hdifficulty, hheight, hnonce, hstorage, htime,
    hstorageFee, hfee⟩ := hint
  have hvalidator : checkTag node ((Expr.bytes b.validatorPublicKeyBytes).stored node.blake3)
      "bytes" = .ok () := rfl
  have hstatistics := statistics_stored (hitem _ (mem_bodyItems_statistics b)) (by omega) hlength
    hcreated.totals
  have hhead : ∀ x, ((refTo x).stored node.blake3).getHeadHash node.blake3 = x := fun x => rfl
  rw [BlockFields.bodyItems]
  simp only [List.map_cons, List.map_nil, blockOfNodes, py_ok_bind, checkTag_refTo, hloaned,
    hdefaulted, hcount, hchain, hdifficulty, hheight, hnonce, hstorage, htime, hstorageFee, hfee,
    hvalidator, hstatistics, hhead]
  exact congrArg Except.ok (createBlock_of_created hcreated)

theorem blockType : "block" ∉ builtinCompositeTypeNames := by decide

theorem hash_stored_pair (a c : Expr) :
    ((link a c).stored node.blake3).hash node.blake3 = (link a c).hash node.blake3 := by
  rw [stored_pair]
  simp [link, Expr.hash, Child.hash, payload_none, Node.hash]

/-- A node that has the cells of a block gives the block back, with its two hashes. -/
theorem getBlock_stored (h : node.Holds b.expr) (hcreated : b.Created) (hfuel : 19 < node.fuel)
    (hlength : b.statistics.length < node.fuel) (hexpr : node.hash b.expr ≠ [])
    (hbody : node.hash b.body ≠ []) :
    getBlockFromStorage node (node.hash b.expr) =
      .ok ⟨b, node.hash b.expr, node.hash b.body⟩ := by
  have hinner : node.Holds (exprsToLinkedExpr [b.body, .bytes b.signature]) := h.head
  have hitems : node.Holds (exprsToLinkedExpr b.bodyItems) := hinner.head
  have hheader := getExprList_tagged h (by decide) (by omega)
  have htagHeader := tag_header node
    (.byHash (node.hash (exprsToLinkedExpr [b.body, .bytes b.signature]))) blockType
  have hinnerOf := @innerOf_stored node b.body [.bytes b.signature] "block" hinner
  have hresolve := resolveListExprs_list hinner (by simp; omega)
  have hnodes : resolveListExprs node (b.body.stored node.blake3) =
      .ok (b.bodyItems.map (Expr.stored node.blake3), []) :=
    resolveListExprs_list hitems (by simpa [BlockFields.bodyItems] using hfuel)
  have htag : node.tag (b.body.stored node.blake3) = "link" :=
    tag_stored_pair hitems.tail fun tag _ hab => by cases hab
  have hhash : node.hash? (b.body.stored node.blake3) = .ok (node.hash b.body) := by
    have hsame : (b.body.stored node.blake3).hash node.blake3 = b.body.hash node.blake3 :=
      hash_stored_pair _ _
    have hable : (b.body.stored node.blake3).hashable = true := by
      rw [BlockFields.body, BlockFields.bodyItems, exprsToLinkedExpr, List.foldr_cons, stored_pair]
      rfl
    rw [Node.hash?, if_pos hable]
    exact congrArg Except.ok hsame
  have hsig : node.tag ((Expr.bytes b.signature).stored node.blake3) = "bytes" := rfl
  have hvalue : ((Expr.bytes b.signature).stored node.blake3).value.toBytes = .ok b.signature := rfl
  rw [BlockFields.expr] at hexpr ⊢
  rw [getBlockFromStorage, hheader]
  simp only [py_ok_bind, htagHeader, hinnerOf, hresolve, List.map_cons, List.map_nil, expect,
    if_true, hsig, hvalue, htag, hnodes, hhash, blockOfNodes_stored hitems hcreated hfuel hlength]
  rw [orZero32_of_ne hbody, orZero32_of_ne hexpr]
  rfl

theorem writable_block (h : b.Created) : b.expr.Writable := by
  have hhash : ∀ x ∈ [b.previousBlockHash, b.accountsHash, b.transactionsHash, b.receiptsHash,
      b.bloomHash, b.previousEraHash], (refTo x).Writable :=
    fun x hx => writable_refTo (h.hashes x hx)
  simp only [List.forall_mem_cons, List.not_mem_nil, false_imp_iff, implies_true, and_true]
    at hhash
  obtain ⟨hprevious, haccounts, htransactions, hreceipts, hbloom, hera⟩ := hhash
  have hentry : ∀ ints : List Int, (exprsToLinkedExpr (ints.map int_)).Writable := fun ints =>
    writable_list fun e he => by
      obtain ⟨n, -, rfl⟩ := List.mem_map.mp he
      exact writable_int n
  have hstatistics : (statisticsToExpr b.statistics).Writable := by
    refine writable_list fun e he => ?_
    cases hrows : b.statistics with
    | nil =>
      rw [hrows] at he
      cases he
    | cons total windows =>
      rw [hrows] at he
      rcases List.mem_cons.mp he with rfl | he
      · exact hentry [_, _, _]
      · obtain ⟨w, -, rfl⟩ := List.mem_map.mp he
        exact hentry [_, _, _, _, _, _]
  have hbody : b.body.Writable := by
    refine writable_list ?_
    simp only [BlockFields.bodyItems, List.forall_mem_cons, List.not_mem_nil, false_imp_iff,
      implies_true, and_true]
    exact ⟨writable_int _, writable_int _, writable_int _, haccounts, hbloom, writable_int _,
      writable_int _, writable_int _, writable_int _, hprevious, hera, hreceipts, writable_int _,
      writable_int _, writable_int _, writable_int _, htransactions, trivial, hstatistics⟩
  exact writable_link (writable_link hbody (writable_link trivial trivial)) trivial

theorem linkDepth_block (b : BlockFields) :
    19 ≤ b.expr.linkDepth ∧ b.statistics.length ≤ b.expr.linkDepth := by
  have hexpr : b.expr.linkDepth = max (max b.body.linkDepth 1 + 1) 0 + 1 := rfl
  have hbody : 19 ≤ b.body.linkDepth := length_le_linkDepth b.bodyItems
  have hitem : (statisticsToExpr b.statistics).linkDepth < b.body.linkDepth :=
    linkDepth_item (mem_bodyItems_statistics b)
  have hentries : (statisticsEntries b.statistics).length = b.statistics.length := by
    cases b.statistics <;> simp [statisticsEntries]
  have hlength : (statisticsEntries b.statistics).length ≤
      (statisticsToExpr b.statistics).linkDepth :=
    length_le_linkDepth (statisticsEntries b.statistics)
  omega

/-- Decoding the cells of a block gives the block, with the hash of its cells and the hash of its
body, and blocks with different fields have different hashes. -/
theorem block_round_trip {node : Node} {b : BlockFields}
    (hdigest : ∀ x, (node.blake3 x).length = 32) (hcreated : b.Created)
    (hapart : DistinctHashes node.blake3 b.expr.cells) (hfuel : b.expr.linkDepth < node.fuel) :
    (∃ d, getBlockFromStorage (node.storing b.expr.cells) (node.hash b.expr) = .ok d ∧
      d.fields = b ∧ d.exprId = node.hash b.expr ∧ d.bodyHash = node.hash b.body ∧
      node.hash d.fields.expr = node.hash b.expr) ∧
    ∀ b', b'.Created → DistinctHashes node.blake3 (b.expr.cells ++ b'.expr.cells) → b' ≠ b →
      node.hash b'.expr ≠ node.hash b.expr := by
  have hdigest' : ∀ e : Expr, e.Writable → e.hash node.blake3 ≠ [] := fun e he hnil => by
    have hlength := length_hash_of_writable hdigest he
    rw [hnil] at hlength
    cases hlength
  have hread : ∀ (b : BlockFields) (n : Node) (cells : List Expr), n.blake3 = node.blake3 →
      b.Created → DistinctHashes node.blake3 cells → (∀ c ∈ cells, c.Writable) →
      b.expr.cells ⊆ cells → b.expr.linkDepth < n.fuel →
      getBlockFromStorage (n.storing cells) (node.hash b.expr) =
        .ok ⟨b, node.hash b.expr, node.hash b.body⟩ := by
    intro b n cells hn hcreated hapart hcells hsub hfuel
    obtain ⟨hdepth, hlength⟩ := linkDepth_block b
    have hholds : (n.storing cells).Holds b.expr :=
      holds_storing (hn ▸ hdigest) hcells (hn ▸ hapart) hsub
    have hbody : b.body.Writable := (writable_block hcreated).elim
      (fun h => h.2.1.elim (fun h => h.2.1) fun h => by cases h.1) fun h => by cases h.1
    have hhash : ∀ e : Expr, (n.storing cells).hash e = node.hash e := fun e => by
      change e.hash n.blake3 = e.hash node.blake3
      rw [hn]
    have hexpr := getBlock_stored hholds hcreated (lt_of_le_of_lt hdepth hfuel)
      (lt_of_le_of_lt hlength hfuel)
    rw [hhash, hhash] at hexpr
    exact hexpr (hdigest' _ (writable_block hcreated)) (hdigest' _ hbody)
  have hcells : ∀ c ∈ b.expr.cells, c.Writable := Expr.cells_writable _ (writable_block hcreated)
  refine ⟨⟨_, hread b node _ rfl hcreated hapart hcells (fun _ hc => hc) hfuel, rfl, rfl, rfl,
    rfl⟩, fun b' hcreated' hapart' hne hsame => hne ?_⟩
  -- a node that has the cells of both blocks decodes one hash to both
  let n : Node := { node with fuel := b.expr.linkDepth + b'.expr.linkDepth + 1 }
  have hboth : ∀ c ∈ b.expr.cells ++ b'.expr.cells, c.Writable := fun c hc =>
    (List.mem_append.mp hc).elim (hcells c)
      (Expr.cells_writable _ (writable_block hcreated') c)
  have hthis := hread b n _ rfl hcreated hapart' hboth (List.subset_append_left _ _)
    (by change _ < b.expr.linkDepth + b'.expr.linkDepth + 1; omega)
  have hthat := hread b' n _ rfl hcreated' hapart' hboth (List.subset_append_right _ _)
    (by change _ < b.expr.linkDepth + b'.expr.linkDepth + 1; omega)
  rw [hsame] at hthat
  have hdecoded := hthat.symm.trans hthis
  injection hdecoded with hdecoded
  injection hdecoded

end RoundTrip

section Samples

/-- A genesis block. -/
def genesisBlock : BlockFields where
  chainId := 0
  previousBlockHash := zero32
  height := 0
  timestamp := 1700000000
  accountsHash := List.replicate 32 5
  totalTransactionFee := 0
  totalStorageFee := 0
  transactionsHash := zero32
  receiptsHash := zero32
  validationDifficulty := 0
  storageDifficulty := 0
  validatorPublicKeyBytes := List.replicate 32 6
  nonce := 0
  bloomHash := zero32
  previousEraHash := zero32
  signature := zero32
  statistics := updateStatistics 0 [] 1 1 0
  globalLoaned := 0
  globalDefaulted := 0
  globalLoanCount := 0

theorem genesis_block_round_trip :
    ∃ d, getBlockFromStorage ((sampleNode 40).storing genesisBlock.expr.cells)
      ((sampleNode 40).hash genesisBlock.expr) = .ok d ∧ d.fields = genesisBlock := by
  have hdigest : ∀ x, (sampleDigest x).length = 32 := fun x => by simp [sampleDigest]
  have hcreated : genesisBlock.Created :=
    ⟨by decide, by decide, by decide,
      fun total h => updateStatistics_totals 0 [] 1 1 0 total h⟩
  have hapart : DistinctHashes sampleDigest genesisBlock.expr.cells :=
    ⟨by decide +kernel, by decide +kernel, by decide +kernel⟩
  obtain ⟨⟨d, hd, hfields, -⟩, -⟩ :=
    @block_round_trip (sampleNode 40) genesisBlock hdigest hcreated hapart (by decide)
  exact ⟨d, hd, hfields⟩

end Samples

end Astreum
