import Astreum.ClaimSchedule

namespace Astreum

section Trees

variable (blake3 : Bytes → Bytes)

/-- `_leaf`. -/
def merkleLeaf (value : Bytes) : Bytes := blake3 (0 :: value)

/-- `_node`. -/
def merkleNode (left right : Bytes) : Bytes := blake3 (1 :: left ++ right)

structure MerkleTree where
  root : Bytes
  count : Nat
  levels : List (List Bytes)

def createMerkleTree (values : List Bytes) : Py MerkleTree :=
  if values.any fun v => decide (v.length ≠ 32) then .error .valueError
  else if values = [] then .ok ⟨zero32, 0, []⟩
  else
    let levels := HashTree.levelsFrom (merkleNode blake3) values.length
      (values.map (merkleLeaf blake3))
    .ok ⟨(HashTree.rootOf levels).getD [], values.length, levels⟩

def generateMerkleTreeProof (tree : MerkleTree) (index : Int) : Py (List Bytes) :=
  if 0 ≤ index ∧ index < tree.count then .ok (HashTree.proofOf tree.levels index.toNat)
  else .error .valueError

end Trees

/-- The hashes of 32 bytes of which a stored record is made. -/
def slotIds : Nat → Bytes → List Bytes
  | 0, _ => []
  | n + 1, blob => blob.take 32 :: slotIds n (blob.drop 32)

section Building

variable (c : Ctx)

/-- `_single_cell`. `none` stands for an unresolved payload. -/
def singleCell (e : Expr) : Py (Option Expr) := do
  if c.node.tag e ≠ "link" then return some e
  match ← typedPayloadSize c.node e with
  | none => return none
  | some (some _) => return some e
  | some none =>
    let cell : Expr := .link .none (.byHash (e.getHeadHash c.node.blake3))
      (.byHash (e.getTailHash c.node.blake3))
    return some (if c.node.hash cell = c.node.hash e then cell else e)

/-- The search for one nonce as the clock paces it: the nonces of each round, and whether the
search is stopped after it. -/
structure Pace where
  chunk : Nat → Nat
  stops : Nat → Bool

/-- One round of the search. -/
def tryNonces (head : Bytes) (lane : Nat) (bits : Int) : Nat → Nat → Option Nat
  | 0, _ => none
  | tries + 1, nonce =>
    if bits ≤ leadingZeroBits (c.node.blake3 (head ++ encodeInt nonce ++ [UInt8.ofNat lane])) then
      some nonce
    else tryNonces head lane bits tries (nonce + 1)

def findNonceFrom (pace : Pace) (head : Bytes) (lane : Nat) (bits : Int) (maxNonces : Nat) :
    Nat → Nat → Nat → Option Nat
  | 0, _, _ => none
  | rounds + 1, round, nonce =>
    if maxNonces ≤ nonce then none
    else
      let tries := min (max 1 (pace.chunk round)) (maxNonces - nonce)
      match tryNonces c head lane bits tries nonce with
      | some nonce => some nonce
      | none =>
        if pace.stops round then none
        else findNonceFrom pace head lane bits maxNonces rounds (round + 1) (nonce + tries)

/-- `_find_nonce`. Every round tries a nonce at least. -/
def findNonce (pace : Pace) (head : Bytes) (lane : Nat) (bits : Int) (maxNonces : Nat) :
    Option Nat :=
  findNonceFrom c pace head lane bits maxNonces maxNonces 0 0

/-- A record to claim. -/
structure ClaimPlan where
  storageId : Bytes
  record : StorageRecord
  choice : LaneChoice

/-- A plan with its lane, its tree and the slot that it is challenged on. -/
structure ReadyPlan where
  plan : ClaimPlan
  lane : StorageLane
  tree : MerkleTree
  index : Int
  slotId : Bytes

/-- A claim with its payout. -/
structure ClaimEntry where
  claim : Claim
  payout : Int
  deriving DecidableEq

/-- The first loop of `_build_claims`, for one plan. -/
def readyPlan (blobs : Bytes → Option Bytes) (plan : ClaimPlan) : Py (Option ReadyPlan) := do
  let record := plan.record
  let some lane := record.lanes[plan.choice.lane]? | return none
  if record.newCount ≤ 0 then return none
  if lane.blockHash.length ≠ 32 then return none
  let some blob := blobs plan.storageId | return none
  if (blob.length : Int) ≠ record.newCount * 32 then return none
  let ids := slotIds record.newCount.toNat blob
  let tree ← createMerkleTree c.node.blake3 ids
  if tree.root ≠ record.slotsRoot then return none
  let index := challengeIndex c lane.blockHash plan.storageId record.newCount plan.choice.lane
  match ids[index.toNat]? with
  | none => throw .indexError
  | some slotId => return some ⟨plan, lane, tree, index, slotId⟩

/-- The second loop, for one plan: the slot is read, proved and worked on. The inner `none` stands
for an unresolved payload. -/
def buildEntry (me : Bytes) (pace : Pace) (maxNonces : Nat) (ready : ReadyPlan) :
    Py (Option (Option ClaimEntry)) := do
  let some data := c.node.stored ready.slotId | return some none
  let some cell ← singleCell c data | return none
  let slotBytes := encodeExprToBytes c.node.blake3 cell
  let proof ← generateMerkleTreeProof ready.tree ready.index
  let plan := ready.plan
  let head := ready.lane.blockHash ++ me ++ plan.storageId ++ ready.slotId ++ slotBytes
  match findNonce c pace head plan.choice.lane plan.choice.bits maxNonces with
  | none => return some none
  | some nonce => return some (some ⟨⟨plan.storageId, slotBytes, proof, nonce, plan.choice.lane⟩,
      plan.record.newSize * (c.header.height - ready.lane.height)⟩)

def readyPlans (blobs : Bytes → Option Bytes) : List ClaimPlan → Py (List ReadyPlan)
  | [] => return []
  | plan :: plans => do
    let ready ← readyPlan c blobs plan
    return ready.toList ++ (← readyPlans blobs plans)

def buildEntries (me : Bytes) (paces : Nat → Pace) (maxNonces : Nat) :
    Nat → List ReadyPlan → Py (Option (List ClaimEntry))
  | _, [] => return some []
  | n, ready :: rest => do
    let some entry ← buildEntry c me (paces n) maxNonces ready | return none
    let some entries ← buildEntries me paces maxNonces (n + 1) rest | return none
    return some (entry.toList ++ entries)

/-- `_build_claims` at the head of the context. `none` stands for an unresolved payload. -/
def buildClaims (me : Bytes) (blobs : Bytes → Option Bytes) (paces : Nat → Pace)
    (maxNonces : Nat) (plans : List ClaimPlan) : Py (Option (List ClaimEntry)) := do
  buildEntries c me paces maxNonces 0 (← readyPlans c blobs plans)

/-- `_claim_expr`. -/
def claimExpr (claim : Claim) : Expr :=
  link (.bytes claim.storageId) <| link (.bytes claim.slotBytes) <|
    link (exprsToLinkedExpr (claim.proof.map .bytes)) <| link (int_ claim.nonce) <|
      link (int_ claim.lane) .nil

end Building

section Parsing

variable {c : Ctx}

theorem tag_linked (e : Expr) (items : List Expr) :
    c.node.tag (link e (exprsToLinkedExpr items)) = "link" := by
  cases items <;> rfl

theorem isNilCell_linked (e : Expr) (items : List Expr) :
    isNilCell c (link e (exprsToLinkedExpr items)) = false := by
  simp [isNilCell, link, Expr.headChild]

/-- The items of a list in memory are read as they were linked. -/
theorem claimItems_list {limit : Nat} {items : List Expr} (h : items.length ≤ limit) :
    claimItems c limit (exprsToLinkedExpr items) = some items := by
  induction items generalizing limit with
  | nil =>
    cases limit <;> rfl
  | cons e items ih =>
    obtain ⟨limit, rfl⟩ : ∃ n, limit = n + 1 := ⟨limit - 1, by rw [List.length_cons] at h; omega⟩
    have hrest := ih (Nat.le_of_succ_le_succ h)
    have htag := tag_linked (c := c) e items
    have hnil := isNilCell_linked (c := c) e items
    change claimItems c (limit + 1) (link e (exprsToLinkedExpr items)) = _
    rw [claimItems.eq_def]
    simp only [hnil, Bool.false_eq_true, if_false]
    simp only [link] at htag ⊢
    rw [if_neg (fun h => h htag), hrest]
    rfl

/-- A list of more items than may be read is no list. -/
theorem claimItems_long {limit : Nat} {items : List Expr} (h : limit < items.length) :
    claimItems c limit (exprsToLinkedExpr items) = none := by
  induction items generalizing limit with
  | nil => exact absurd h (Nat.not_lt_zero _)
  | cons e items ih =>
    have htag := tag_linked (c := c) e items
    have hnil := isNilCell_linked (c := c) e items
    change claimItems c limit (link e (exprsToLinkedExpr items)) = none
    rw [claimItems.eq_def]
    simp only [hnil, Bool.false_eq_true, if_false]
    cases limit with
    | zero => rfl
    | succ limit =>
      have hrest := ih (Nat.lt_of_succ_lt_succ h)
      simp only [link] at htag ⊢
      rw [if_neg (fun h => h htag), hrest]
      rfl

theorem any_notBytes (proof : List Bytes) :
    (proof.map Expr.bytes).any (fun item => c.node.tag item ≠ "bytes") = false := by
  rw [List.any_eq_false]
  intro item hitem
  obtain ⟨b, -, rfl⟩ := List.mem_map.mp hitem
  have htag : c.node.tag (.bytes b) = "bytes" := rfl
  simp [htag]

theorem mapM_toBytes (proof : List Bytes) :
    (proof.map Expr.bytes).mapM (fun item => item.value.toBytes) = (.ok proof : Py _) := by
  induction proof with
  | nil => rfl
  | cons b proof ih =>
    rw [List.map_cons, List.mapM_cons, ih]
    rfl

/-- All but the proof is read as it was written. -/
theorem parseClaim_eq {claim : Claim} (hlane : claim.lane < providersPerRecord) :
    parseClaim c (claimExpr claim) = (do
      let some proof := claimItems c maxProofLen (exprsToLinkedExpr (claim.proof.map .bytes)) |
        return none
      if proof.any fun item => c.node.tag item ≠ "bytes" then return none
      return some ⟨claim.storageId, claim.slotBytes, ← proof.mapM fun item => item.value.toBytes,
        claim.nonce, claim.lane⟩) := by
  have hitems := @claimItems_list c 5 [.bytes claim.storageId, .bytes claim.slotBytes,
    exprsToLinkedExpr (claim.proof.map .bytes), int_ claim.nonce, int_ claim.lane] le_rfl
  have hnumbers : claimNumbers c (int_ claim.nonce) (int_ claim.lane) =
      .ok (some (claim.nonce, (claim.lane : Int))) := rfl
  have hrange : ¬((claim.lane : Int) < 0 ∨ (providersPerRecord : Int) ≤ claim.lane) := by
    omega
  have hchain : claimItems c 5 (claimExpr claim) = some [.bytes claim.storageId,
      .bytes claim.slotBytes, exprsToLinkedExpr (claim.proof.map .bytes), int_ claim.nonce,
      int_ claim.lane] := hitems
  have htags : ¬(c.node.tag (.bytes claim.storageId) ≠ "bytes" ∨
      c.node.tag (.bytes claim.slotBytes) ≠ "bytes") := by
    rintro (h | h)
    · exact h rfl
    · exact h rfl
  rw [parseClaim, hchain]
  simp only [if_neg htags, hnumbers, if_neg hrange]
  rfl

/-- A claim is parsed as it was written. -/
theorem parseClaim_claimExpr {claim : Claim} (hproof : claim.proof.length ≤ maxProofLen)
    (hlane : claim.lane < providersPerRecord) :
    parseClaim c (claimExpr claim) = .ok (some claim) := by
  have hproof' := @claimItems_list c maxProofLen (claim.proof.map .bytes)
    ((List.length_map _).le.trans hproof)
  rw [parseClaim_eq hlane, hproof']
  simp only [any_notBytes, Bool.false_eq_true, if_false, mapM_toBytes]
  rfl

/-- A claim with a longer proof than any claim may have is none. -/
theorem parseClaim_long {claim : Claim} (hproof : maxProofLen < claim.proof.length)
    (hlane : claim.lane < providersPerRecord) :
    parseClaim c (claimExpr claim) = .ok none := by
  have hproof' := @claimItems_long c maxProofLen (claim.proof.map .bytes)
    (hproof.trans_le (List.length_map _).ge)
  rw [parseClaim_eq hlane, hproof']
  rfl

end Parsing

section Spec

variable {c : Ctx} {blobs : Bytes → Option Bytes} {me : Bytes} {pace : Pace} {maxNonces : Nat}

theorem length_slotIds (n : Nat) (blob : Bytes) : (slotIds n blob).length = n := by
  induction n generalizing blob with
  | zero => rfl
  | succ n ih => exact congrArg (· + 1) (ih (blob.drop 32))

theorem merkleRoot_eq_climb (levels fn sn : Nat) (r : Bytes) (proof : List Bytes) :
    merkleRoot c levels fn sn r proof
      = HashTree.climb (merkleNode c.node.blake3) levels fn sn r proof := by
  induction levels generalizing fn sn r proof with
  | zero => rfl
  | succ levels ih =>
    cases proof with
    | nil => simp only [merkleRoot, HashTree.climb, ih]
    | cons s proof => simp only [merkleRoot, HashTree.climb, merkleNode, ih]

/-- The proof that a tree gives for a value is one that leads to its root. -/
theorem verify_createMerkleTree {values : List Bytes} {tree : MerkleTree} {i : Nat} {value : Bytes}
    (hdigest : ∀ x, (c.node.blake3 x).length = 32)
    (htree : createMerkleTree c.node.blake3 values = .ok tree) (hvalue : values[i]? = some value) :
    tree.root.length = 32 ∧ tree.count = values.length ∧
      verifyMerkleTreeProof c tree.root values.length i value (HashTree.proofOf tree.levels i)
        = true ∧
      (∀ k : Nat, values.length ≤ 2 ^ k → (HashTree.proofOf tree.levels i).length ≤ k) ∧
      ∀ k : Nat, values.length = 2 ^ k + 1 → i < 2 ^ k →
        (HashTree.proofOf tree.levels i).length = k + 1 := by
  have hi : i < values.length := (List.getElem?_eq_some_iff.mp hvalue).1
  have hmem : value ∈ values := List.mem_of_getElem? hvalue
  rw [createMerkleTree] at htree
  split at htree
  · cases htree
  rename_i hlengths
  rw [if_neg (List.ne_nil_of_mem hmem)] at htree
  have hlength : value.length = 32 := by
    by_contra hne
    exact hlengths (List.any_eq_true.mpr ⟨value, hmem, decide_eq_true hne⟩)
  set leaves := values.map (merkleLeaf c.node.blake3) with hleaves
  have hcount : leaves.length = values.length := List.length_map _
  have hleaf : leaves[i]? = some (merkleLeaf c.node.blake3 value) := by
    rw [hleaves, List.getElem?_map, hvalue]
    rfl
  obtain ⟨root, hroot, hclimb⟩ := HashTree.climb_proofOf (f := merkleNode c.node.blake3)
    values.length values.length hleaf (by omega) (by omega)
  have hdigests : ∀ x ∈ leaves, x.length = 32 := by
    intro x hx
    obtain ⟨v, -, rfl⟩ := List.mem_map.mp hx
    exact hdigest _
  have hnode : ∀ a b, (merkleNode c.node.blake3 a b).length = 32 := fun a b => hdigest _
  obtain rfl := Except.ok.inj htree
  have hroot' : ((HashTree.rootOf (HashTree.levelsFrom (merkleNode c.node.blake3) values.length
      leaves)).getD []) = root := by
    rw [hroot]
    rfl
  dsimp only
  rw [hroot']
  refine ⟨HashTree.forall_rootOf (P := fun x : Bytes => x.length = 32) hnode values.length hdigests
    hroot, rfl, ?_, fun k hk => HashTree.length_proofOf k _ i (hcount.le.trans hk),
    fun k hk hi => HashTree.length_proofOf_succ k _ (hcount.trans hk) hi (by omega)⟩
  rw [verifyMerkleTreeProof, merkleRoot_eq_climb, Bool.and_eq_true, Bool.and_eq_true]
  refine ⟨⟨decide_eq_true ⟨by omega, by omega, hlength⟩, ?_⟩, ?_⟩
  · rw [List.all_eq_true]
    intro x hx
    exact decide_eq_true (HashTree.forall_proofOf
      (P := fun x : Bytes => x.length = 32) hnode values.length i hdigests x hx)
  · rw [hcount] at hclimb
    exact decide_eq_true hclimb

theorem tryNonces_spec {head : Bytes} {lane : Nat} {bits : Int} {tries nonce n : Nat}
    (h : tryNonces c head lane bits tries nonce = some n) :
    bits ≤ leadingZeroBits (c.node.blake3 (head ++ encodeInt n ++ [UInt8.ofNat lane])) := by
  induction tries generalizing nonce with
  | zero => cases h
  | succ tries ih =>
    rw [tryNonces] at h
    split at h
    · rename_i hbits
      obtain rfl := Option.some.inj h
      exact hbits
    · exact ih h

/-- The nonce that is found does the work. -/
theorem findNonce_spec {head : Bytes} {lane : Nat} {bits : Int} {n : Nat}
    (h : findNonce c pace head lane bits maxNonces = some n) :
    bits ≤ leadingZeroBits (c.node.blake3 (head ++ encodeInt n ++ [UInt8.ofNat lane])) := by
  have hrounds : ∀ rounds round nonce : Nat,
      findNonceFrom c pace head lane bits maxNonces rounds round nonce = some n →
      bits ≤ leadingZeroBits (c.node.blake3 (head ++ encodeInt n ++ [UInt8.ofNat lane])) := by
    intro rounds
    induction rounds with
    | zero =>
      intro round nonce h
      cases h
    | succ rounds ih =>
      intro round nonce h
      rw [findNonceFrom] at h
      split at h
      · cases h
      dsimp only at h
      split at h
      · rename_i n' hfound
        obtain rfl := Option.some.inj h
        exact tryNonces_spec hfound
      · split at h
        · cases h
        · exact ih _ _ h
  exact hrounds _ _ _ h

/-- What the first loop has made sure of. -/
structure ReadyPlan.Checked (c : Ctx) (blobs : Bytes → Option Bytes) (plan : ClaimPlan)
    (ready : ReadyPlan) : Prop where
  same : ready.plan = plan
  lane : plan.record.lanes[plan.choice.lane]? = some ready.lane
  newCount : 0 < plan.record.newCount
  blockHash : ready.lane.blockHash.length = 32
  index : ready.index = challengeIndex c ready.lane.blockHash plan.storageId plan.record.newCount
    plan.choice.lane
  root : ready.tree.root = plan.record.slotsRoot
  slots : ∃ blob, blobs plan.storageId = some blob ∧
    (blob.length : Int) = plan.record.newCount * 32 ∧
    createMerkleTree c.node.blake3 (slotIds plan.record.newCount.toNat blob) = .ok ready.tree ∧
    (slotIds plan.record.newCount.toNat blob)[ready.index.toNat]? = some ready.slotId

theorem readyPlan_spec {plan : ClaimPlan} {ready : ReadyPlan}
    (h : readyPlan c blobs plan = .ok (some ready)) : ready.Checked c blobs plan := by
  rw [readyPlan] at h
  rcases hlane : plan.record.lanes[plan.choice.lane]? with - | lane
  · rw [hlane] at h
    cases h
  simp only [hlane] at h
  split at h
  · cases h
  rename_i hcount
  split at h
  · cases h
  rename_i hhash
  rcases hblob : blobs plan.storageId with - | blob
  · rw [hblob] at h
    cases h
  simp only [hblob] at h
  split at h
  · cases h
  rename_i hlength
  obtain ⟨tree, htree, h⟩ := except_bind_eq_ok.mp h
  split at h
  · cases h
  rename_i hroot
  split at h
  · cases h
  rename_i slotId hslot
  obtain rfl := Option.some.inj (Except.ok.inj h)
  exact ⟨rfl, hlane, not_le.mp hcount, not_not.mp hhash, rfl, not_not.mp hroot, blob, hblob,
    not_not.mp hlength, htree, hslot⟩

/-- What the second loop has made of it. -/
theorem buildEntry_spec {ready : ReadyPlan} {entry : ClaimEntry}
    (h : buildEntry c me pace maxNonces ready = .ok (some (some entry))) :
    ∃ data cell proof nonce, c.node.stored ready.slotId = some data ∧
      singleCell c data = .ok (some cell) ∧
      generateMerkleTreeProof ready.tree ready.index = .ok proof ∧
      findNonce c pace (ready.lane.blockHash ++ me ++ ready.plan.storageId ++ ready.slotId ++
        encodeExprToBytes c.node.blake3 cell) ready.plan.choice.lane ready.plan.choice.bits
        maxNonces = some nonce ∧
      entry = ⟨⟨ready.plan.storageId, encodeExprToBytes c.node.blake3 cell, proof, nonce,
          ready.plan.choice.lane⟩,
        ready.plan.record.newSize * (c.header.height - ready.lane.height)⟩ := by
  rw [buildEntry] at h
  rcases hdata : c.node.stored ready.slotId with - | data
  · rw [hdata] at h
    cases h
  simp only [hdata] at h
  obtain ⟨cell?, hcell, h⟩ := except_bind_eq_ok.mp h
  rcases cell? with - | cell
  · cases h
  dsimp only at h
  obtain ⟨proof, hproof, h⟩ := except_bind_eq_ok.mp h
  split at h
  · cases h
  rename_i nonce hnonce
  have hentry := Option.some.inj (Option.some.inj (Except.ok.inj h))
  exact ⟨data, cell, proof, nonce, rfl, hcell, hproof, hnonce, hentry.symm⟩

theorem mem_readyPlans {plans : List ClaimPlan} {readies : List ReadyPlan}
    (h : readyPlans c blobs plans = .ok readies) {ready : ReadyPlan} (hready : ready ∈ readies) :
    ∃ plan ∈ plans, readyPlan c blobs plan = .ok (some ready) := by
  induction plans generalizing readies with
  | nil =>
    obtain rfl := Except.ok.inj h
    cases hready
  | cons plan plans ih =>
    obtain ⟨first, hfirst, h⟩ := except_bind_eq_ok.mp h
    obtain ⟨rest, hrest, h⟩ := except_bind_eq_ok.mp h
    obtain rfl := Except.ok.inj h
    rcases List.mem_append.mp hready with hmem | hmem
    · rw [Option.mem_toList.mp hmem] at hfirst
      exact ⟨plan, List.mem_cons_self, hfirst⟩
    · obtain ⟨other, hother, hplan⟩ := ih hrest hmem
      exact ⟨other, List.mem_cons_of_mem _ hother, hplan⟩

theorem mem_buildEntries {paces : Nat → Pace} {n : Nat} {readies : List ReadyPlan}
    {entries : List ClaimEntry}
    (h : buildEntries c me paces maxNonces n readies = .ok (some entries)) {entry : ClaimEntry}
    (hentry : entry ∈ entries) :
    ∃ ready ∈ readies, ∃ k,
      buildEntry c me (paces k) maxNonces ready = .ok (some (some entry)) := by
  induction readies generalizing n entries with
  | nil =>
    obtain rfl := Option.some.inj (Except.ok.inj h)
    cases hentry
  | cons ready readies ih =>
    obtain ⟨first, hfirst, h⟩ := except_bind_eq_ok.mp h
    rcases first with - | first
    · cases h
    dsimp only at h
    obtain ⟨rest, hrest, h⟩ := except_bind_eq_ok.mp h
    rcases rest with - | rest
    · cases h
    obtain rfl := Option.some.inj (Except.ok.inj h)
    rcases List.mem_append.mp hentry with hmem | hmem
    · rw [Option.mem_toList.mp hmem] at hfirst
      exact ⟨ready, List.mem_cons_self, n, hfirst⟩
    · obtain ⟨other, hother, k, hbuild⟩ := ih hrest hmem
      exact ⟨other, List.mem_cons_of_mem _ hother, k, hbuild⟩

end Spec

end Astreum
