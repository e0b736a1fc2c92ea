import Astreum.ClaimWorker
import Astreum.StateRecords

namespace Astreum

section Acceptance

variable {c : Ctx}

/-- The cells of a node that serves slots are well formed and kept under their own hashes, and no
record lists nil among its slots. -/
structure Node.ServesSlots (node : Node) (blobs : Bytes → Option Bytes) : Prop where
  digest : ∀ x, (node.blake3 x).length = 32
  writable : ∀ h e, node.stored h = some e → e.Writable
  hash : ∀ h e, node.stored h = some e → node.hash e = h
  slots : ∀ storageId blob, blobs storageId = some blob →
    ∀ n : Nat, blob.length = n * 32 → zero32 ∉ slotIds n blob

/-- A single cell is read back under the hash of the cell that it is made from. -/
theorem decode_singleCell {e cell : Expr} (hdigest : ∀ x, (c.node.blake3 x).length = 32)
    (hwritable : e.Writable) (hnil : c.node.hash e ≠ zero32)
    (h : singleCell c e = .ok (some cell)) :
    (decodeExprFromBytes (encodeExprToBytes c.node.blake3 cell)).map c.node.hash
      = .ok (c.node.hash e) := by
  have hread : ∀ e' : Expr, e'.Writable → c.node.hash e' = c.node.hash e →
      (decodeExprFromBytes (encodeExprToBytes c.node.blake3 e')).map c.node.hash
        = .ok (c.node.hash e) := by
    intro e' hwritable' hsame
    have hne : e' ≠ .nil := by
      rintro rfl
      exact hnil (hsame.symm.trans rfl)
    rw [decode_writable hdigest hwritable']
    exact congrArg Except.ok ((hash_wireOf_writable hne hwritable').trans hsame)
  rw [singleCell] at h
  split at h
  · obtain rfl := Option.some.inj (Except.ok.inj h)
    exact hread e hwritable rfl
  · obtain ⟨size, -, h⟩ := except_bind_eq_ok.mp h
    rcases size with - | - | n
    · cases h
    · obtain rfl := Option.some.inj (Except.ok.inj h)
      split
      · rename_i hsame
        refine hread _ (.inl ⟨rfl, ?_, ?_⟩) hsame
        · exact length_getHeadHash_of_writable hdigest hwritable
        · exact length_getTailHash_of_writable hdigest hwritable
      · exact hread e hwritable rfl
    · obtain rfl := Option.some.inj (Except.ok.inj h)
      exact hread e hwritable rfl

/-- What `_check_claim` asks of a claim. -/
theorem checkClaim_accepts {sender slotId : Bytes} {data : Tree} {claim : Claim}
    {record : StorageRecord} {lane : StorageLane}
    (hrecord : claimedRecord c data claim.storageId = .ok (some record))
    (hlanes : record.lanes.length = providersPerRecord)
    (hlane : record.lanes[claim.lane]? = some lane)
    (hothers : ∀ (i : Nat) (other : StorageLane), record.lanes[i]? = some other →
      i ≠ claim.lane → other.winner ≠ sender)
    (hhash : lane.blockHash.length = 32) (hcount : 0 < record.newCount)
    (hroot : record.slotsRoot.length = 32)
    (hslot : (decodeExprFromBytes claim.slotBytes).map c.node.hash = .ok slotId)
    (hproof : verifyMerkleTreeProof c record.slotsRoot record.newCount
      (challengeIndex c lane.blockHash claim.storageId record.newCount claim.lane) slotId
        claim.proof = true)
    (hwork : requiredBits sender lane.winner claim.storageId (c.header.height - lane.height)
      (parentStorageDifficulty c.header) ≤
      leadingZeroBits (c.node.blake3 (lane.blockHash ++ sender ++ claim.storageId ++ slotId ++
        claim.slotBytes ++ encodeInt claim.nonce ++ [UInt8.ofNat claim.lane])))
    (hsize : 0 < record.newSize) (hheight : lane.height < c.header.height) :
    checkClaim c sender data claim
      = .ok (some (record, lane, record.newSize * (c.header.height - lane.height))) := by
  have hany : (record.lanes.eraseIdx claim.lane).any
      (fun other => decide (other.winner = sender)) = false := by
    rw [List.any_eq_false]
    intro other hother
    obtain ⟨i, hne, hi⟩ := List.mem_eraseIdx_iff_getElem?.mp hother
    simpa using hothers i other hi hne
  have hpayout : 0 < record.newSize * (c.header.height - lane.height) :=
    Int.mul_pos hsize (by omega)
  rw [checkClaim, hrecord]
  simp only [py_ok_bind, hlanes, ne_eq, not_true_eq_false, if_false, hlane, hany,
    Bool.false_eq_true, hhash, hroot, not_le.mpr hcount, hslot, hproof, Bool.not_true,
    not_lt.mpr hwork, not_le.mpr hsize, not_le.mpr hheight, or_self, not_le.mpr hpayout]
  rfl

/-- The plan was made for the record at the head. -/
structure ClaimPlan.Planned (plan : ClaimPlan) (me : Bytes) (headHeight storageDifficulty : Int) :
    Prop where
  onChain : plan.record.OnChain headHeight
  planned : ∃ t : ClaimTerms, t.me = me ∧ t.storageId = plan.storageId ∧
    t.storageDifficulty = storageDifficulty ∧ 0 ≤ t.affordable ∧
    (planRecord t plan.record headHeight).1 = some plan.choice

/-- The entry is parsed as the claim that it holds, and this is accepted at its payout at least in
every later block that finds the record unchanged and asks for no more. -/
structure ClaimEntry.Accepted (c : Ctx) (me : Bytes) (storageDifficulty : Int) (plan : ClaimPlan)
    (entry : ClaimEntry) : Prop where
  storageId : entry.claim.storageId = plan.storageId
  lane : entry.claim.lane = plan.choice.lane
  parsed : ∀ c' : Ctx, parseClaim c' (claimExpr entry.claim) = .ok (some entry.claim)
  accepted : ∀ (c' : Ctx) (data : Tree), c'.node.blake3 = c.node.blake3 →
    c.header.height < c'.header.height → parentStorageDifficulty c'.header ≤ storageDifficulty →
    claimedRecord c' data plan.storageId = .ok (some plan.record) →
    ∃ lane payout, checkClaim c' me data entry.claim = .ok (some (plan.record, lane, payout)) ∧
      entry.payout ≤ payout

theorem verifyMerkleTreeProof_congr {c' : Ctx} (h : c'.node.blake3 = c.node.blake3) (root : Bytes)
    (count index : Int) (value : Bytes) (proof : List Bytes) :
    verifyMerkleTreeProof c' root count index value proof
      = verifyMerkleTreeProof c root count index value proof := by
  simp only [verifyMerkleTreeProof, merkleRoot_eq_climb, h]

/-- A claim that is accepted leaves a record of the kind that the chain holds. -/
theorem onChain_claimed {sender : Bytes} {data : Tree} {claim : Claim} {record : StorageRecord}
    {lane : StorageLane} {payout headHeight : Int} (hchain : record.OnChain headHeight)
    (hhead : headHeight ≤ c.header.height)
    (h : checkClaim c sender data claim = .ok (some (record, lane, payout))) :
    StorageRecord.OnChain { record with
      lanes := record.lanes.set claim.lane
        ⟨c.header.previousBlockHash, c.header.height, sender⟩ } c.header.height := by
  obtain ⟨-, hlane, hothers, -, -, -⟩ := checkClaim_eq_some h
  have hlt : claim.lane < record.lanes.length := (List.getElem?_eq_some_iff.mp hlane).1
  have hset : ∀ (i : Nat) (l : StorageLane),
      (record.lanes.set claim.lane ⟨c.header.previousBlockHash, c.header.height, sender⟩)[i]?
        = some l →
      (i = claim.lane ∧ l.winner = sender ∧ l.height = c.header.height) ∨
        (i ≠ claim.lane ∧ record.lanes[i]? = some l) := by
    intro i l hi
    rw [List.getElem?_set] at hi
    by_cases hsame : claim.lane = i
    · rw [if_pos hsame, if_pos (hsame ▸ hlt)] at hi
      obtain rfl := Option.some.inj hi
      exact .inl ⟨hsame.symm, rfl, rfl⟩
    · rw [if_neg hsame] at hi
      exact .inr ⟨Ne.symm hsame, hi⟩
  refine ⟨?_, fun i j l l' hi hj hw hne => ?_, fun l hl => ?_, hchain.newSize, hchain.newCount⟩
  · exact List.length_set.trans hchain.lanes
  · rcases hset i l hi with ⟨rfl, hwinner, -⟩ | ⟨hi', hi⟩
    · rcases hset j l' hj with ⟨rfl, -, -⟩ | ⟨hj', hj⟩
      · rfl
      · exact absurd (hw.symm.trans hwinner) (hothers j l' hj hj')
    · rcases hset j l' hj with ⟨rfl, hwinner, -⟩ | ⟨hj', hj⟩
      · exact absurd (hw.trans hwinner) (hothers i l hi hi')
      · exact hchain.winners i j l l' hi hj hw hne
  · obtain ⟨i, hi⟩ := List.getElem?_of_mem hl
    rcases hset i l hi with ⟨-, -, hheight⟩ | ⟨-, hi⟩
    · exact hheight.le
    · exact (hchain.heights l (List.mem_of_getElem? hi)).trans hhead

theorem challengeIndex_congr {c' : Ctx} (h : c'.node.blake3 = c.node.blake3)
    (hash storageId : Bytes) (newCount : Int) (lane : Nat) :
    challengeIndex c' hash storageId newCount lane
      = challengeIndex c hash storageId newCount lane := by
  rw [challengeIndex, challengeIndex, h]

theorem challengeIndex_nonneg (hash storageId : Bytes) {newCount : Int} (h : 0 < newCount)
    (lane : Nat) : 0 ≤ challengeIndex c hash storageId newCount lane :=
  Int.fmod_nonneg_of_pos _ h

theorem challengeIndex_lt_count (hash storageId : Bytes) {newCount : Int} (h : 0 < newCount)
    (lane : Nat) : challengeIndex c hash storageId newCount lane < newCount :=
  Int.fmod_lt_of_pos _ h

/-- An entry built for a plan holds a claim that is accepted. -/
theorem accepted_of_built {blobs : Bytes → Option Bytes} {me : Bytes} {pace : Pace}
    {maxNonces : Nat} {plan : ClaimPlan} {ready : ReadyPlan} {entry : ClaimEntry}
    {storageDifficulty : Int} (hserves : c.node.ServesSlots blobs) (hme : me ≠ zero32)
    (hplan : plan.Planned me c.header.height storageDifficulty)
    (hready : readyPlan c blobs plan = .ok (some ready))
    (hbuilt : buildEntry c me pace maxNonces ready = .ok (some (some entry))) :
    entry.Accepted c me storageDifficulty plan := by
  obtain ⟨rfl, hlane, hcount, hhash, hindex, hroot, blob, hblob, hlength, htree, hslot⟩ :=
    readyPlan_spec hready
  obtain ⟨data, cell, proof, nonce, hstored, hcell, hproof, hnonce, rfl⟩ := buildEntry_spec hbuilt
  obtain ⟨hchain, t, rfl, hid, rfl, haffordable, hchoice⟩ := hplan
  obtain ⟨lane, hlane', hbits, hothers⟩ := planRecord_choice hchain hme hchoice
  obtain rfl := Option.some.inj (hlane.symm.trans hlane')
  have hnonneg : 0 ≤ ready.index := hindex ▸ challengeIndex_nonneg _ _ hcount _
  have hcast : ((ready.index.toNat : Nat) : Int) = ready.index := Int.toNat_of_nonneg hnonneg
  have hcountCast : ((slotIds ready.plan.record.newCount.toNat blob).length : Int)
      = ready.plan.record.newCount := by
    rw [length_slotIds]
    omega
  obtain ⟨hrootLength, -, hverify, hshort, -⟩ := verify_createMerkleTree hserves.digest htree hslot
  rw [hcountCast, hcast, hroot] at hverify
  rw [hroot] at hrootLength
  -- the proof is the one that leads from the challenged slot to the root of the record
  have hproof' : proof = HashTree.proofOf ready.tree.levels ready.index.toNat := by
    rw [generateMerkleTreeProof] at hproof
    split at hproof
    · exact (Except.ok.inj hproof).symm
    · cases hproof
  have hproofLength : proof.length ≤ maxProofLen := by
    rw [hproof']
    refine hshort maxProofLen ?_
    rw [length_slotIds]
    have hmax := hchain.newCount
    have hpow : ((2 ^ maxProofLen : Nat) : Int) = 2 ^ maxProofLen := by push_cast; rfl
    omega
  have hlaneNumber : ready.plan.choice.lane < providersPerRecord := by
    rw [← hchain.lanes]
    exact (List.getElem?_eq_some_iff.mp hlane).1
  have hzero : ready.slotId ≠ zero32 := by
    intro hz
    have hmem := List.mem_of_getElem? hslot
    rw [hz] at hmem
    exact hserves.slots _ blob hblob _ (by omega) hmem
  have hhashSlot : c.node.hash data = ready.slotId := hserves.hash _ _ hstored
  have hslotRead := decode_singleCell hserves.digest (hserves.writable _ _ hstored)
    (hhashSlot.trans_ne hzero) hcell
  rw [hhashSlot] at hslotRead
  refine ⟨rfl, rfl, fun c' => parseClaim_claimExpr hproofLength hlaneNumber, ?_⟩
  intro c' treeData hsame hlater hdifficulty hrecord
  have hheight : ready.lane.height ≤ c.header.height :=
    hchain.heights _ (List.mem_of_getElem? hlane)
  refine ⟨ready.lane, _, @checkClaim_accepts _ _ ready.slotId _ _ _ _ hrecord hchain.lanes
    hlane hothers hhash hcount
    hrootLength ?_ ?_ ?_ hchain.newSize (by omega), ?_⟩
  · have hnode : c'.node.hash = c.node.hash := by
      funext e
      rw [Node.hash, Node.hash, hsame]
    rw [hnode]
    exact hslotRead
  · rw [verifyMerkleTreeProof_congr hsame, challengeIndex_congr hsame, ← hindex, hproof']
    exact hverify
  · have hneeded : requiredBits t.me ready.lane.winner ready.plan.storageId
        (c'.header.height - ready.lane.height) (parentStorageDifficulty c'.header)
          ≤ t.bits c.header.height ready.lane := by
      rw [ClaimTerms.bits, hid]
      exact requiredBits_mono (by omega) hdifficulty
    rw [hsame]
    exact (hneeded.trans hbits).trans (findNonce_spec hnonce)
  · exact Int.mul_le_mul_of_nonneg_left (by omega) hchain.newSize.le

theorem challengeIndex_lt (hash storageId : Bytes) {newCount : Int} (lane : Nat)
    (h : 2 ^ 64 < newCount) : challengeIndex c hash storageId newCount lane < 2 ^ 64 := by
  set seed := (c.node.blake3 (hash ++ storageId ++ [UInt8.ofNat lane])).take 8 with hseed
  have hlength : seed.length ≤ 8 := (List.length_take_le _ _)
  have hlt : Python.fromBytesLittle seed < 256 ^ 8 :=
    (fromBytesLittle_lt seed).trans_le (Nat.pow_le_pow_right (by decide) hlength)
  have hsmall : ((Python.fromBytesLittle seed : Nat) : Int) < 2 ^ 64 := by omega
  change Int.fmod (Python.fromBytesLittle seed) newCount < 2 ^ 64
  rw [Int.fmod_eq_of_lt (Int.natCast_nonneg _) (hsmall.trans h)]
  exact hsmall

/-- With one slot more than a proof can reach, no claim is read. -/
theorem not_parsed_of_built {blobs : Bytes → Option Bytes} {me : Bytes} {pace : Pace}
    {maxNonces : Nat} {plan : ClaimPlan} {ready : ReadyPlan} {entry : ClaimEntry}
    (hdigest : ∀ x, (c.node.blake3 x).length = 32)
    (hcount : plan.record.newCount = 2 ^ maxProofLen + 1)
    (hlane : plan.choice.lane < providersPerRecord)
    (hready : readyPlan c blobs plan = .ok (some ready))
    (hbuilt : buildEntry c me pace maxNonces ready = .ok (some (some entry))) (c' : Ctx) :
    parseClaim c' (claimExpr entry.claim) = .ok none := by
  obtain ⟨rfl, -, hpos, -, hindex, -, blob, -, -, htree, hslot⟩ := readyPlan_spec hready
  obtain ⟨data, cell, proof, nonce, -, -, hproof, -, rfl⟩ := buildEntry_spec hbuilt
  have hlt : ready.index < 2 ^ 64 := by
    rw [hindex]
    refine challengeIndex_lt _ _ _ ?_
    rw [hcount, maxProofLen]
    omega
  obtain ⟨-, -, -, -, hlong⟩ := verify_createMerkleTree hdigest htree hslot
  have hlength : proof.length = maxProofLen + 1 := by
    rw [generateMerkleTreeProof] at hproof
    split at hproof
    · rename_i hrange
      obtain rfl := Except.ok.inj hproof
      refine hlong maxProofLen ?_ ?_
      · rw [length_slotIds, hcount, maxProofLen]
        omega
      · rw [maxProofLen]
        omega
    · cases hproof
  exact parseClaim_long (hlength.ge.trans_lt' (Nat.lt_succ_self _)) hlane

/-- Every claim that is planned and built is parsed and accepted, and a record without a claim to
make is due later, when it has one. -/
theorem planned_claims_are_accepted {c : Ctx} {me : Bytes} {storageDifficulty : Int}
    {blobs : Bytes → Option Bytes} (hserves : c.node.ServesSlots blobs) (hme : me ≠ zero32) :
    (∀ (paces : Nat → Pace) (maxNonces : Nat) (plans : List ClaimPlan) (entries : List ClaimEntry),
      (∀ plan ∈ plans, plan.Planned me c.header.height storageDifficulty) →
      buildClaims c me blobs paces maxNonces plans = .ok (some entries) →
      ∀ entry ∈ entries, ∃ plan ∈ plans, entry.Accepted c me storageDifficulty plan) ∧
    ∀ (t : ClaimTerms) (record : StorageRecord), record.OnChain c.header.height →
      0 ≤ t.affordable → (planRecord t record c.header.height).1 = none →
      ∃ due, (planRecord t record c.header.height).2 = some due ∧ c.header.height < due ∧
        ∃ choice, (planRecord t record due).1 = some choice := by
  refine ⟨fun paces maxNonces plans entries hplans hbuild entry hentry => ?_,
    fun t record hchain haffordable hnone => ?_⟩
  · obtain ⟨readies, hreadies, hentries⟩ := except_bind_eq_ok.mp hbuild
    obtain ⟨ready, hready, k, hbuilt⟩ := mem_buildEntries hentries hentry
    obtain ⟨plan, hplan, hchecked⟩ := mem_readyPlans hreadies hready
    exact ⟨plan, hplan, accepted_of_built hserves hme (hplans plan hplan) hchecked hbuilt⟩
  · have hlanes : record.lanes ≠ [] := by
      intro hnil
      have hlength := hchain.lanes
      rw [hnil] at hlength
      cases hlength
    exact planRecord_due hlanes haffordable hnone

end Acceptance

section Sample

def sampleSlot : Expr := .bytes [1, 2, 3]

def sampleSlotId : Bytes := sampleSlot.hash sampleDigest

def sampleStorageId : Bytes := List.replicate 32 5

/-- A record that nobody has claimed yet. -/
def sampleRecord : StorageRecord :=
  ⟨zero32, [⟨zero32, 0, zero32⟩, ⟨zero32, 0, zero32⟩], 10, 1, merkleLeaf sampleDigest sampleSlotId⟩

def sampleStored (h : Bytes) : Option Expr := if h = sampleSlotId then some sampleSlot else none

theorem sampleStored_slot : sampleStored sampleSlotId = some sampleSlot := by
  rw [sampleStored, if_pos rfl]

theorem eq_of_sampleStored {h : Bytes} {e : Expr} (he : sampleStored h = some e) :
    h = sampleSlotId ∧ e = sampleSlot := by
  rw [sampleStored] at he
  split at he
  · rename_i hid
    exact ⟨hid, (Option.some.inj he).symm⟩
  · cases he

/-- The head of a provider that has the slot of the record. -/
def samplePlanning : Ctx where
  node := { sampleNode 50 with stored := sampleStored }
  header := { firstHeader with height := 4 }

/-- The next block, on a node that has the record. -/
def sampleChecking : Ctx where
  node := (sampleNode 50).storing sampleRecord.expr.cells
  header := { firstHeader with height := 5 }

def sampleStorage : Tree := Dict.empty.insert sampleStorageId (.expr sampleRecord.expr)

def sampleTerms (me : Bytes) : ClaimTerms := ⟨me, sampleStorageId, 0, none, 0, 0, 1⟩

def samplePlan : ClaimPlan := ⟨sampleStorageId, sampleRecord, ⟨0, 0⟩⟩

def samplePaces (_ : Nat) : Pace := ⟨fun _ => 16, fun _ => false⟩

def sampleBlobs (_ : Bytes) : Option Bytes := some sampleSlotId

def sampleEntry : ClaimEntry := ⟨⟨sampleStorageId, [2, 1, 2, 3], [], 0, 0⟩, 40⟩

theorem samplePlanning_serves : samplePlanning.node.ServesSlots sampleBlobs where
  digest x := by
    change (sampleDigest x).length = 32
    simp [sampleDigest]
  writable h e he := by
    obtain ⟨-, rfl⟩ := eq_of_sampleStored he
    trivial
  hash h e he := by
    obtain ⟨rfl, rfl⟩ := eq_of_sampleStored he
    rfl
  slots storageId blob hblob n hn := by
    obtain rfl := Option.some.inj hblob
    have hone : n = 1 := by
      have hlength : sampleSlotId.length = 32 := by decide
      omega
    rw [hone]
    decide +kernel

theorem sampleRecord_onChain : sampleRecord.OnChain 4 where
  lanes := rfl
  winners i j lane lane' hi hj hw hne := by
    have hfresh : ∀ l ∈ sampleRecord.lanes, l.winner = zero32 := by decide
    exact absurd (hfresh lane (List.mem_of_getElem? hi)) hne
  heights := by decide
  newSize := by decide
  newCount := by decide

theorem samplePlan_planned (me : Bytes)
    (h : (planRecord (sampleTerms me) sampleRecord 4).1 = some ⟨0, 0⟩) :
    samplePlan.Planned me 4 0 :=
  ⟨sampleRecord_onChain, sampleTerms me, rfl, rfl, rfl, le_rfl, h⟩

/-- The claim of a provider for a lane of a new record is accepted. -/
theorem sample_claim_is_accepted :
    ∃ lane payout, checkClaim sampleChecking (List.replicate 32 7) sampleStorage
      sampleEntry.claim = .ok (some (sampleRecord, lane, payout)) ∧ 40 ≤ payout := by
  obtain ⟨hall, -⟩ := @planned_claims_are_accepted samplePlanning
    (List.replicate 32 7) 0 sampleBlobs samplePlanning_serves (by decide)
  have hplan := samplePlan_planned (List.replicate 32 7) (by decide)
  have hbuilt : buildClaims samplePlanning (List.replicate 32 7) sampleBlobs samplePaces 4
      [samplePlan] = .ok (some [sampleEntry]) := by
    decide +kernel
  obtain ⟨plan, hmem, haccepted⟩ := hall samplePaces 4 [samplePlan] [sampleEntry]
    (fun plan hmem => by rwa [List.mem_singleton.mp hmem]) hbuilt sampleEntry
    (List.mem_singleton.mpr rfl)
  obtain rfl := List.mem_singleton.mp hmem
  exact haccepted.accepted sampleChecking sampleStorage rfl (by decide) (by decide)
    (by decide +kernel)

theorem slotIds_replicate {slot : Bytes} (hslot : slot.length = 32) (n : Nat) :
    slotIds n (List.replicate n slot).flatten = List.replicate n slot := by
  induction n with
  | zero => rfl
  | succ n ih =>
    rw [List.replicate_succ, List.flatten_cons, slotIds, List.take_left' hslot,
      List.drop_left' hslot, ih]

theorem createMerkleTree_replicate (blake3 : Bytes → Bytes) {slot : Bytes}
    (hslot : slot.length = 32) {n : Nat} (hn : 0 < n) :
    ∃ tree, createMerkleTree blake3 (List.replicate n slot) = .ok tree := by
  have hlengths : ¬((List.replicate n slot).any fun v => decide (v.length ≠ 32)) = true := by
    simp [hslot]
  have hne : List.replicate n slot ≠ [] := fun h => by
    have hlength := congrArg List.length h
    rw [List.length_replicate] at hlength
    exact hn.ne' hlength
  rw [createMerkleTree, if_neg hlengths, if_neg hne]
  exact ⟨_, rfl⟩

/-- A record whose slots are one slot over and over. -/
def repeatedRecord (n : Nat) : StorageRecord :=
  { sampleRecord with
    newCount := n
    slotsRoot := match createMerkleTree sampleDigest (List.replicate n sampleSlotId) with
      | .ok tree => tree.root
      | .error _ => [] }

def repeatedPlan (n : Nat) : ClaimPlan := ⟨sampleStorageId, repeatedRecord n, ⟨0, 0⟩⟩

def repeatedBlobs (n : Nat) (_ : Bytes) : Option Bytes :=
  some (List.replicate n sampleSlotId).flatten

theorem length_sampleSlotId : sampleSlotId.length = 32 := by decide

theorem readyPlan_repeated {n : Nat} (hn : 0 < n) :
    ∃ ready, readyPlan samplePlanning (repeatedBlobs n) (repeatedPlan n) = .ok (some ready) ∧
      ready.slotId = sampleSlotId ∧ ready.plan = repeatedPlan n ∧ 0 ≤ ready.index ∧
      ready.index < ready.tree.count := by
  obtain ⟨tree, htree⟩ := createMerkleTree_replicate sampleDigest length_sampleSlotId hn
  have hroot : (repeatedPlan n).record.slotsRoot = tree.root := by
    rw [repeatedPlan, repeatedRecord, htree]
  have hcount : ¬(repeatedPlan n).record.newCount ≤ 0 := by
    change ¬(n : Int) ≤ 0
    omega
  have hlength : ¬(((List.replicate n sampleSlotId).flatten.length : Nat) : Int)
      ≠ (repeatedPlan n).record.newCount * 32 := by
    change ¬(((List.replicate n sampleSlotId).flatten.length : Nat) : Int) ≠ (n : Int) * 32
    rw [List.length_flatten, List.map_replicate, List.sum_replicate_nat, length_sampleSlotId]
    push_cast
    exact fun h => h rfl
  have hids : slotIds (repeatedPlan n).record.newCount.toNat (List.replicate n sampleSlotId).flatten
      = List.replicate n sampleSlotId := slotIds_replicate length_sampleSlotId n
  have hn' : (repeatedPlan n).record.newCount = n := rfl
  have hpos : 0 < (repeatedPlan n).record.newCount := not_le.mp hcount
  obtain ⟨index, hindex⟩ : ∃ index, challengeIndex samplePlanning zero32 (repeatedPlan n).storageId
      (repeatedPlan n).record.newCount (repeatedPlan n).choice.lane = index := ⟨_, rfl⟩
  have hnonneg : 0 ≤ index := hindex ▸ challengeIndex_nonneg _ _ hpos _
  have hlt : index < n := hn' ▸ hindex ▸ challengeIndex_lt_count _ _ hpos _
  have hslot : (List.replicate n sampleSlotId)[index.toNat]? = some sampleSlotId := by
    rw [List.getElem?_replicate, if_pos (by omega)]
  refine ⟨⟨repeatedPlan n, ⟨zero32, 0, zero32⟩, tree, index, sampleSlotId⟩, ?_, rfl, rfl, hnonneg,
    ?_⟩
  · have hlane : (repeatedPlan n).record.lanes[(repeatedPlan n).choice.lane]?
        = some ⟨zero32, 0, zero32⟩ := rfl
    have hblob : repeatedBlobs n (repeatedPlan n).storageId
        = some (List.replicate n sampleSlotId).flatten := rfl
    have htree' : createMerkleTree samplePlanning.node.blake3 (List.replicate n sampleSlotId)
        = .ok tree := htree
    have hzero : ¬zero32.length ≠ 32 := by decide
    have hroot' : ¬tree.root ≠ (repeatedPlan n).record.slotsRoot := fun h => h hroot.symm
    rw [readyPlan, hlane]
    simp only [hblob, if_neg hzero]
    rw [if_neg hcount, if_neg hlength, hids, htree', py_ok_bind, if_neg hroot', hindex, hslot]
    rfl
  · have hlane : tree.count = n := by
      have hcounted := (@verify_createMerkleTree samplePlanning _ tree 0 sampleSlotId
        samplePlanning_serves.digest htree (by rw [List.getElem?_replicate, if_pos hn])).2.1
      rw [hcounted, List.length_replicate]
    change index < tree.count
    omega

theorem findNonce_zero (head : Bytes) (lane : Nat) :
    findNonce samplePlanning (samplePaces 0) head lane 0 1 = some 0 := by
  have hwork : (0 : Int) ≤ leadingZeroBits (samplePlanning.node.blake3
      (head ++ encodeInt (0 : Nat) ++ [UInt8.ofNat lane])) := Int.natCast_nonneg _
  have htry : tryNonces samplePlanning head lane 0 1 0 = some 0 := by
    rw [tryNonces, if_pos hwork]
  have htries : min (max 1 ((samplePaces 0).chunk 0)) (1 - 0) = 1 := rfl
  rw [findNonce, findNonceFrom, if_neg (by decide), htries]
  dsimp only
  rw [htry]

theorem buildEntry_repeated {me : Bytes} {ready : ReadyPlan} (hslot : ready.slotId = sampleSlotId)
    (hbits : ready.plan.choice.bits = 0) (hnonneg : 0 ≤ ready.index)
    (hlt : ready.index < ready.tree.count) :
    ∃ entry, buildEntry samplePlanning me (samplePaces 0) 1 ready = .ok (some (some entry)) := by
  have hstored : samplePlanning.node.stored ready.slotId = some sampleSlot := by
    have hsame : samplePlanning.node.stored = sampleStored := rfl
    rw [hslot, hsame, sampleStored_slot]
  have hcell : singleCell samplePlanning sampleSlot = .ok (some sampleSlot) := rfl
  have hproof : generateMerkleTreeProof ready.tree ready.index
      = .ok (HashTree.proofOf ready.tree.levels ready.index.toNat) := by
    rw [generateMerkleTreeProof, if_pos ⟨hnonneg, hlt⟩]
  rw [buildEntry, hstored]
  simp only [hcell, py_ok_bind, hproof, hbits, findNonce_zero]
  exact ⟨_, rfl⟩

/-- The claim for a record with one slot more than a proof can reach is not read. -/
theorem long_claim_is_not_parsed (me : Bytes) {n : Nat} (hn : n = 2 ^ maxProofLen + 1) :
    ∃ entry, buildClaims samplePlanning me (repeatedBlobs n) samplePaces 1 [repeatedPlan n]
        = .ok (some [entry]) ∧
      ∀ c : Ctx, parseClaim c (claimExpr entry.claim) = .ok none := by
  have hpos : 0 < n := hn ▸ Nat.succ_pos _
  obtain ⟨ready, hready, hslot, hplan, hnonneg, hlt⟩ := readyPlan_repeated hpos
  have hbits : ready.plan.choice.bits = 0 := by
    rw [hplan]
    rfl
  obtain ⟨entry, hentry⟩ := @buildEntry_repeated me ready hslot hbits hnonneg hlt
  have hcount : (repeatedPlan n).record.newCount = 2 ^ maxProofLen + 1 := by
    change (n : Int) = 2 ^ maxProofLen + 1
    rw [hn]
    push_cast
    rfl
  have hreadies : readyPlans samplePlanning (repeatedBlobs n) [repeatedPlan n] = .ok [ready] := by
    rw [readyPlans, hready]
    rfl
  refine ⟨entry, ?_, fun c => ?_⟩
  · rw [buildClaims, hreadies, py_ok_bind, buildEntries, hentry]
    rfl
  · exact not_parsed_of_built samplePlanning_serves.digest hcount Nat.two_pos hready hentry c

/-- A key that marks lanes without a winner takes such lanes for its own, and its claim is
rejected. The claim for a record with more slots than a proof can reach is not read. -/
theorem claims_of_nobody_and_for_too_much :
    samplePlanning.node.ServesSlots sampleBlobs ∧
    (samplePlan.Planned zero32 4 0 ∧
      buildClaims samplePlanning zero32 sampleBlobs samplePaces 4 [samplePlan]
        = .ok (some [sampleEntry]) ∧
      claimedRecord sampleChecking sampleStorage sampleStorageId = .ok (some sampleRecord) ∧
      sampleChecking.node.blake3 = samplePlanning.node.blake3 ∧
      sampleChecking.header.height = samplePlanning.header.height + 1 ∧
      parentStorageDifficulty sampleChecking.header = 0 ∧
      checkClaim sampleChecking zero32 sampleStorage sampleEntry.claim = .ok none) ∧
    (planRecord (sampleTerms (List.replicate 32 7)) (repeatedRecord (2 ^ maxProofLen + 1)) 4).1
        = some ⟨0, 0⟩ ∧
      ∃ entry, buildClaims samplePlanning (List.replicate 32 7)
          (repeatedBlobs (2 ^ maxProofLen + 1)) samplePaces 1
          [repeatedPlan (2 ^ maxProofLen + 1)] = .ok (some [entry]) ∧
        ∀ c : Ctx, parseClaim c (claimExpr entry.claim) = .ok none := by
  refine ⟨samplePlanning_serves, ⟨samplePlan_planned zero32 (by decide +kernel), by decide +kernel,
    by decide +kernel, rfl, rfl, rfl, by decide +kernel⟩, ?_, long_claim_is_not_parsed _ rfl⟩
  have hlanes : ∀ n, (planRecord (sampleTerms (List.replicate 32 7)) (repeatedRecord n) 4).1
      = (planRecord (sampleTerms (List.replicate 32 7)) sampleRecord 4).1 := fun n => rfl
  rw [hlanes]
  decide

end Sample

end Astreum
