import Astreum.Rates
import Astreum.Records

namespace Astreum

variable (c : Ctx)

/-- The walk sizes of the items of a storage list, summed. -/
def listSize : List Expr → Py (Option Nat)
  | [] => return some 0
  | item :: items => do
    let some size ← storageWalkSize c.node item [] | return none
    let some rest ← listSize items | return none
    return some (size + rest)

/-- The price of the list that the data of a transaction names, once all of it is resolved. -/
def initialStorageCost (t : Transaction) : Py (Option Int) := do
  let (_, missed) ← resolveInnerExprs c.node t.expr
  if missed ≠ [] then return none
  let .loaded data := (← resolveInnerFrom c.node c.node.fuel t.data).cell | return none
  let some dataHead := data.head? | return none
  if c.node.tag dataHead ≠ "link" then return none
  let some list := dataHead.head? | return none
  if c.node.tag list ≠ "link" then return none
  let (items, missed) ← resolveListExprs c.node list
  if missed ≠ [] then return none
  let some size ← listSize c items | return none
  return some (← calculateStorageFee c.header size)

def handleStorageInitialContract (t : Transaction) (currentFees : Int) :
    Stateful Ledger (Option Int) :=
  exceptException (do
    let some cost ← .ofExcept (initialStorageCost c t) | return none
    let sender ← held t.sender
    if sender.balance < currentFees + cost then return none
    addBalance storageAddress cost
    addBalance t.sender (-cost)
    return some cost) (pure none)

/-- A claim for a lane of a storage record. -/
structure Claim where
  storageId : Bytes
  slotBytes : Bytes
  proof : List Bytes
  nonce : Int
  lane : Nat
  deriving DecidableEq

def maxProofLen : Nat := 64

/-- `_is_nil` of a list cell. -/
def isNilCell (e : Expr) : Bool :=
  e == .nil || (c.node.tag e == "link" && (e.headChild == .none || e.headChild == .byHash zero32) &&
    (e.tailChild == .none || e.tailChild == .byHash zero32))

/-- `_list_items`: the loaded items, `limit` at most. -/
def claimItems : Nat → Expr → Option (List Expr)
  | limit, e =>
    if isNilCell c e then some []
    else match limit, e with
      | limit + 1, .link v (.loaded h) t =>
        if c.node.tag (.link v (.loaded h) t) ≠ "link" then none
        else match t with
          | .loaded t => (h :: ·) <$> claimItems limit t
          | _ => some [h]
      | _, _ => none

def claimNumbers (nonce lane : Expr) : Py (Option (Int × Int)) := do
  let some nonce ← intField c.node nonce | return none
  let some lane ← intField c.node lane | return none
  return some (nonce, lane)

/-- `_parse_claim`. -/
def parseClaim (claim : Expr) : Py (Option Claim) := do
  let some [storageId, slot, proof, nonce, lane] := claimItems c 5 claim | return none
  if c.node.tag storageId ≠ "bytes" ∨ c.node.tag slot ≠ "bytes" then return none
  match claimNumbers c nonce lane with
  | .error .valueError => return none
  | .error err => throw err
  | .ok none => return none
  | .ok (some (nonce, lane)) =>
    if lane < 0 ∨ (providersPerRecord : Int) ≤ lane then return none
    let some proof := claimItems c maxProofLen proof | return none
    if proof.any fun item => c.node.tag item ≠ "bytes" then return none
    return some ⟨← storageId.value.toBytes, ← slot.value.toBytes,
      ← proof.mapM fun item => item.value.toBytes, nonce, lane.toNat⟩

def challengeIndex (lastPaymentBlockHash storageId : Bytes) (newCount : Int) (lane : Nat) : Int :=
  let seed := c.node.blake3 (lastPaymentBlockHash ++ storageId ++ [UInt8.ofNat lane])
  Python.floorMod (Python.fromBytesLittle (seed.take 8)) newCount

/-- The loop of `verify_merkle_tree_proof`, which gives the proof left over and the root. -/
def merkleRoot : Nat → Nat → Nat → Bytes → List Bytes → Option (List Bytes × Bytes)
  | 0, _, _, r, proof => some (proof, r)
  | levels + 1, fn, sn, r, proof =>
    if sn = 0 then some (proof, r)
    else if fn % 2 = 1 then match proof with
      | [] => none
      | s :: proof => merkleRoot levels (fn / 2) (sn / 2) (c.node.blake3 (1 :: s ++ r)) proof
    else if fn < sn then match proof with
      | [] => none
      | s :: proof => merkleRoot levels (fn / 2) (sn / 2) (c.node.blake3 (1 :: r ++ s)) proof
    else merkleRoot levels (fn / 2) (sn / 2) r proof

def verifyMerkleTreeProof (root : Bytes) (count index : Int) (value : Bytes)
    (proof : List Bytes) : Bool :=
  decide (0 ≤ index ∧ index < count ∧ value.length = 32) &&
    proof.all (fun s => decide (s.length = 32)) &&
    decide (merkleRoot c count.toNat index.toNat (count.toNat - 1) (c.node.blake3 (0 :: value))
      proof = some ([], root))

/-- `_leading_zero_bits`. -/
def leadingZeroBits : Bytes → Nat
  | [] => 0
  | b :: bs => if b = 0 then 8 + leadingZeroBits bs else 8 - Python.bitLength b.toNat

/-- The record of a claim, read again by the hash of the cell that the tree holds. -/
def claimedRecord (data : Tree) (storageId : Bytes) : Py (Option StorageRecord) := do
  let some head := getFromRadixTree c.node data storageId | return none
  let h ← c.node.hash? head
  StorageRecord.fromExpr c.node (getExpr c.node h)

/-- `_check_claim`: the record and the payout of a claim that holds. -/
def checkClaim (sender : Bytes) (data : Tree) (claim : Claim) :
    Py (Option (StorageRecord × StorageLane × Int)) := do
  let some record ← claimedRecord c data claim.storageId | return none
  if record.lanes.length ≠ providersPerRecord then return none
  let some lane := record.lanes[claim.lane]? | return none
  if (record.lanes.eraseIdx claim.lane).any fun other => decide (other.winner = sender) then
    return none
  if lane.blockHash.length ≠ 32 then return none
  if record.newCount ≤ 0 ∨ record.slotsRoot.length ≠ 32 then return none
  let index := challengeIndex c lane.blockHash claim.storageId record.newCount claim.lane
  let .ok slotId := (decodeExprFromBytes claim.slotBytes).map c.node.hash | return none
  if !verifyMerkleTreeProof c record.slotsRoot record.newCount index slotId claim.proof then
    return none
  let workHash := c.node.blake3 (lane.blockHash ++ sender ++ claim.storageId ++ slotId ++
    claim.slotBytes ++ encodeInt claim.nonce ++ [UInt8.ofNat claim.lane])
  let elapsed := c.header.height - lane.height
  let needed := requiredBits sender lane.winner claim.storageId elapsed
    (parentStorageDifficulty c.header)
  if (leadingZeroBits workHash : Int) < needed then return none
  if record.newSize ≤ 0 ∨ c.header.height ≤ lane.height then return none
  let payout := record.newSize * elapsed
  if payout ≤ 0 then return none
  return some (record, lane, payout)

/-- The vote of a claim that takes a lane over from another provider. -/
def claimVote (sender : Bytes) (claim : Claim) (previous : StorageLane) : Py Int := do
  if sender = previous.winner then return 0
  let delta := distanceDelta sender previous.winner claim.storageId
  let fair ← fairInterval c.header
  return takeoverVote (takeoverPosition (c.header.height - previous.height) delta) fair

def countClaim : Stateful Ledger Unit :=
  .update fun l => { l with storageClaimCount := l.storageClaimCount + 1 }

def addVotes (votes : Int) : Stateful Ledger Unit :=
  .update fun l => { l with storageVotes := l.storageVotes + votes }

/-- Pay the claims that hold, one after the other, and sum up what was minted. -/
def payClaims (sender : Bytes) : List Claim → Int → Stateful Ledger Int
  | [], minted => return minted
  | claim :: claims, minted => do
    let storage ← held storageAddress
    match ← .ofExcept (checkClaim c sender storage.data claim) with
    | none => payClaims sender claims minted
    | some (record, lane, payout) =>
      addBalance sender payout
      let lane' : StorageLane := ⟨c.header.previousBlockHash, c.header.height, sender⟩
      let updated := { record with lanes := record.lanes.set claim.lane lane' }
      let storage ← held storageAddress
      let tree ← .ofExcept (putInRadixTree storage.data claim.storageId (.expr updated.expr))
      setData storageAddress tree
      extendPendingExprs (updated.cells c.node)
      countClaim
      let vote ← .ofExcept (claimVote c sender claim lane)
      addVotes vote
      payClaims sender claims (minted + payout)

/-- The claims among the items of the payload. Items that are no claims are passed over. -/
def parseClaims : List Expr → Py (List Claim)
  | [] => return []
  | item :: items => do
    match ← parseClaim c item with
    | none => parseClaims items
    | some claim => return claim :: (← parseClaims items)

def handleStoragePaymentContract (t : Transaction) : Stateful Ledger Int :=
  exceptException (do
    let (nodes, missed) ← .ofExcept (resolveListExprs c.node t.data)
    if missed ≠ [] then return 0
    let claims ← .ofExcept (parseClaims c nodes)
    if claims = [] then return 0
    payClaims c t.sender claims 0) (pure 0)

end Astreum
