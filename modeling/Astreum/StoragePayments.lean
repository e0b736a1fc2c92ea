import Astreum.Imbalance
import Astreum.Message
import Mathlib.Algebra.Order.BigOperators.Group.List

namespace Astreum

open Eff

/-- A payout on a lane of a record: for the blocks from `since` up to `height`. -/
structure Payout where
  storageId : Bytes
  lane : Nat
  size : Int
  since : Int
  height : Int
  amount : Int
  deriving DecidableEq

def paidTotal (payouts : List Payout) : Int := (payouts.map Payout.amount).sum

/-- The payouts that follow one another from one height to another, the last one first. -/
inductive Covers (size start : Int) : List Payout → Int → Prop
  | none : Covers size start [] start
  | paid {p : Payout} {payouts : List Payout} (rest : Covers size start payouts p.since)
      (hsize : p.size = size) (hsince : p.since < p.height)
      (hamount : p.amount = size * (p.height - p.since)) :
      Covers size start (p :: payouts) p.height

namespace Covers

variable {size start stop : Int} {payouts : List Payout}

theorem total (h : Covers size start payouts stop) : paidTotal payouts = size * (stop - start) := by
  induction h with
  | none => simp [paidTotal]
  | @paid p payouts _ _ _ hamount ih =>
    have hcons : paidTotal (p :: payouts) = p.amount + paidTotal payouts := by simp [paidTotal]
    rw [hcons, ih, hamount]
    ring

/-- Every payout is over before the covered blocks end. -/
theorem height_le (h : Covers size start payouts stop) : ∀ p ∈ payouts, p.height ≤ stop := by
  induction h with
  | none => exact fun _ h => absurd h List.not_mem_nil
  | @paid p payouts _ _ hsince _ ih =>
    intro q hq
    rcases List.mem_cons.mp hq with rfl | hq
    · exact le_rfl
    · exact (ih q hq).trans hsince.le

/-- No block is paid for twice. -/
theorem disjoint (h : Covers size start payouts stop) :
    payouts.Pairwise fun later earlier => earlier.height ≤ later.since := by
  induction h with
  | none => exact .nil
  | paid rest _ _ _ ih => exact .cons (fun q hq => rest.height_le q hq) ih

theorem amount_eq (h : Covers size start payouts stop) :
    ∀ p ∈ payouts, p.size = size ∧ p.since < p.height ∧ p.amount = size * (p.height - p.since) := by
  induction h with
  | none => exact fun _ h => absurd h List.not_mem_nil
  | @paid p payouts _ hsize hsince hamount ih =>
    intro q hq
    rcases List.mem_cons.mp hq with rfl | hq
    · exact ⟨hsize, hsince, hamount⟩
    · exact ih q hq

end Covers

/-- Storage records by their id. -/
abbrev RecordMap := Bytes → Option StorageRecord

/-- `on_lane`: the payouts of one lane. -/
def onLane (id : Bytes) (lane : Nat) (payouts : List Payout) : List Payout :=
  payouts.filter fun p => decide (p.storageId = id ∧ p.lane = lane)

/-- What one accepted claim does to the records. -/
structure PaysLane (header : Header) (sender : Bytes) (records : RecordMap) (p : Payout)
    (records' : RecordMap) : Prop where
  accepted : ∃ record lane, records p.storageId = some record ∧
    record.lanes[p.lane]? = some lane ∧
    (∀ i other, record.lanes[i]? = some other → i ≠ p.lane → other.winner ≠ sender) ∧
    p.size = record.newSize ∧ p.since = lane.height ∧
    records' = Function.update records p.storageId (some { record with
      lanes := record.lanes.set p.lane ⟨header.previousBlockHash, header.height, sender⟩ })
  size : 0 < p.size
  since : p.since < header.height
  height : p.height = header.height
  amount : p.amount = p.size * (header.height - p.since)

/-- Accepted claims one after the other. -/
inductive PaysAll (header : Header) (sender : Bytes) : RecordMap → List Payout → RecordMap → Prop
  | none {records : RecordMap} : PaysAll header sender records [] records
  | paid {records records₁ records' : RecordMap} {p : Payout} {payouts : List Payout}
      (first : PaysLane header sender records p records₁)
      (rest : PaysAll header sender records₁ payouts records') :
      PaysAll header sender records (p :: payouts) records'

theorem PaysAll.height {header : Header} {sender : Bytes} {records records' : RecordMap}
    {payouts : List Payout} (h : PaysAll header sender records payouts records') :
    ∀ p ∈ payouts, p.height = header.height := by
  induction h with
  | none => exact fun _ h => absurd h List.not_mem_nil
  | paid first _ ih =>
    intro q hq
    rcases List.mem_cons.mp hq with rfl | hq
    · exact first.height
    · exact ih q hq

/-- What holds of the records and of all that was paid on them, the last payout first. -/
structure LanesSafe (records : RecordMap) (created : Bytes → Int) (height : Int)
    (log : List Payout) : Prop where
  covers : ∀ (id : Bytes) (record : StorageRecord) (i : Nat) (lane : StorageLane),
    records id = some record → record.lanes[i]? = some lane →
    Covers record.newSize (created id) (onLane id i log) lane.height ∧ lane.height ≤ height
  winners : ∀ (id : Bytes) (record : StorageRecord) (i j : Nat) (lane lane' : StorageLane),
    records id = some record → record.lanes[i]? = some lane → record.lanes[j]? = some lane' →
    lane.winner = lane'.winner → lane.winner ≠ zero32 → i = j
  recorded : ∀ p ∈ log, records p.storageId ≠ none
  sized : ∀ (id : Bytes) (record : StorageRecord), records id = some record → 0 ≤ record.newSize
  positive : ∀ p ∈ log, 0 < p.amount

/-- The record of a block, as it is when the block is opened. -/
def initialStorageRecord (header : Header) (newSize newCount : Int) (slotsRoot : Bytes) :
    StorageRecord where
  creationBlockHash := header.previousBlockHash
  lanes := List.replicate providersPerRecord ⟨header.previousBlockHash, header.height - 1, zero32⟩
  newSize := newSize
  newCount := newCount
  slotsRoot := slotsRoot

namespace LanesSafe

variable {records records' : RecordMap} {created : Bytes → Int} {height : Int} {log : List Payout}
  {header : Header} {sender : Bytes}

theorem start (height : Int) (created : Bytes → Int) :
    LanesSafe (fun _ => none) created height [] :=
  ⟨nofun, nofun, nofun, nofun, nofun⟩

theorem later (h : LanesSafe records created height log) {height' : Int} (hle : height ≤ height') :
    LanesSafe records created height' log where
  covers id record i lane hrecord hlane :=
    (h.covers id record i lane hrecord hlane).imp_right hle.trans'
  winners := h.winners
  recorded := h.recorded
  sized := h.sized
  positive := h.positive

theorem opened (h : LanesSafe records created height log) {id : Bytes} (hnew : records id = none)
    (hheight : height ≤ header.height) {newSize : Int} (hsize : 0 ≤ newSize) (newCount : Int)
    (slotsRoot : Bytes) :
    LanesSafe
      (Function.update records id (some (initialStorageRecord header newSize newCount slotsRoot)))
      (Function.update created id (header.height - 1)) header.height log := by
  have hlane : ∀ (i : Nat) (lane : StorageLane),
      (initialStorageRecord header newSize newCount slotsRoot).lanes[i]? = some lane →
      lane = ⟨header.previousBlockHash, header.height - 1, zero32⟩ := by
    intro i lane hi
    exact List.eq_of_mem_replicate (List.mem_of_getElem? hi)
  constructor
  · intro a record i lane hrecord hi
    by_cases ha : a = id
    · subst ha
      rw [Function.update_self] at hrecord
      cases hrecord
      obtain rfl := hlane i lane hi
      have hnone : onLane a i log = [] := by
        refine List.filter_eq_nil_iff.mpr fun p hp => ?_
        have hid : p.storageId ≠ a := by
          rintro rfl
          exact h.recorded p hp hnew
        simp [hid]
      rw [hnone, Function.update_self]
      exact ⟨.none, by dsimp only; omega⟩
    · rw [Function.update_of_ne ha] at hrecord
      rw [Function.update_of_ne ha]
      exact (h.covers a record i lane hrecord hi).imp_right hheight.trans'
  · intro a record i j lane lane' hrecord hi hj hwinner hzero
    by_cases ha : a = id
    · subst ha
      rw [Function.update_self] at hrecord
      cases hrecord
      obtain rfl := hlane i lane hi
      exact absurd rfl hzero
    · rw [Function.update_of_ne ha] at hrecord
      exact h.winners a record i j lane lane' hrecord hi hj hwinner hzero
  · intro p hp hnone
    by_cases ha : p.storageId = id
    · rw [ha, Function.update_self] at hnone
      cases hnone
    · rw [Function.update_of_ne ha] at hnone
      exact h.recorded p hp hnone
  · intro a record hrecord
    by_cases ha : a = id
    · subst ha
      rw [Function.update_self] at hrecord
      cases hrecord
      exact hsize
    · rw [Function.update_of_ne ha] at hrecord
      exact h.sized a record hrecord
  · exact h.positive

/-- An accepted claim pays for the blocks since the last one, and leaves no key two lanes. -/
theorem paid {p : Payout} (h : LanesSafe records created header.height log)
    (hpay : PaysLane header sender records p records') :
    LanesSafe records' created header.height (p :: log) := by
  obtain ⟨⟨record, lane, hrecord, hlane, hothers, hsize, hsince, rfl⟩, hpos, hlt, hheight, hamount⟩ :=
    hpay
  have hlength : p.lane < record.lanes.length := (List.getElem?_eq_some_iff.mp hlane).1
  have hother : ∀ i, i ≠ p.lane →
      (record.lanes.set p.lane ⟨header.previousBlockHash, header.height, sender⟩)[i]? =
        record.lanes[i]? := fun i hi => List.getElem?_set_ne (Ne.symm hi)
  have hself : (record.lanes.set p.lane ⟨header.previousBlockHash, header.height, sender⟩)[p.lane]? =
      some ⟨header.previousBlockHash, header.height, sender⟩ := List.getElem?_set_self hlength
  constructor
  · intro a record' i lane' hrecord' hi
    by_cases ha : a = p.storageId
    · subst ha
      rw [Function.update_self] at hrecord'
      cases hrecord'
      by_cases hip : i = p.lane
      · subst hip
        rw [hself] at hi
        cases hi
        have hon : onLane p.storageId p.lane (p :: log) = p :: onLane p.storageId p.lane log := by
          simp [onLane]
        have hcovers := (h.covers p.storageId record p.lane lane hrecord hlane).1
        rw [← hsince, ← hsize] at hcovers
        rw [hon]
        refine ⟨?_, le_rfl⟩
        have hpaid := hcovers.paid rfl (hheight ▸ hlt) (hheight ▸ hamount)
        rwa [hheight, hsize] at hpaid
      · rw [hother i hip] at hi
        have hon : onLane p.storageId i (p :: log) = onLane p.storageId i log := by
          simp [onLane, Ne.symm hip]
        rw [hon]
        exact h.covers p.storageId record i lane' hrecord hi
    · rw [Function.update_of_ne ha] at hrecord'
      have hon : onLane a i (p :: log) = onLane a i log := by simp [onLane, Ne.symm ha]
      rw [hon]
      exact h.covers a record' i lane' hrecord' hi
  · intro a record' i j lane₁ lane₂ hrecord' hi hj hwinner hzero
    by_cases ha : a = p.storageId
    · subst ha
      rw [Function.update_self] at hrecord'
      cases hrecord'
      by_cases hip : i = p.lane
      · by_cases hjp : j = p.lane
        · rw [hip, hjp]
        · subst hip
          rw [hself] at hi
          rw [hother j hjp] at hj
          cases hi
          exact absurd hwinner.symm (hothers j lane₂ hj hjp)
      · rw [hother i hip] at hi
        by_cases hjp : j = p.lane
        · subst hjp
          rw [hself] at hj
          cases hj
          exact absurd hwinner (hothers i lane₁ hi hip)
        · rw [hother j hjp] at hj
          exact h.winners p.storageId record i j lane₁ lane₂ hrecord hi hj hwinner hzero
    · rw [Function.update_of_ne ha] at hrecord'
      exact h.winners a record' i j lane₁ lane₂ hrecord' hi hj hwinner hzero
  · intro q hq hnone
    by_cases ha : q.storageId = p.storageId
    · rw [ha, Function.update_self] at hnone
      cases hnone
    · rw [Function.update_of_ne ha] at hnone
      rcases List.mem_cons.mp hq with rfl | hq
      · exact ha rfl
      · exact h.recorded q hq hnone
  · intro a record' hrecord'
    by_cases ha : a = p.storageId
    · subst ha
      rw [Function.update_self] at hrecord'
      cases hrecord'
      exact h.sized p.storageId record hrecord
    · rw [Function.update_of_ne ha] at hrecord'
      exact h.sized a record' hrecord'
  · intro q hq
    rcases List.mem_cons.mp hq with rfl | hq
    · rw [hamount]
      exact Int.mul_pos hpos (by omega)
    · exact h.positive q hq

theorem paidAll {payouts : List Payout} (h : LanesSafe records created header.height log)
    (hpay : PaysAll header sender records payouts records') :
    LanesSafe records' created header.height (payouts.reverse ++ log) := by
  induction hpay generalizing log with
  | none => exact h
  | paid first _ ih =>
    rw [List.reverse_cons, List.append_assoc]
    exact ih (h.paid first)

end LanesSafe

section Instrumented

variable (c : Ctx)

/-- `payClaims` with the payouts in the place of their sum. -/
def paidClaims (sender : Bytes) : List Claim → Stateful Ledger (List Payout)
  | [] => return []
  | claim :: claims => do
    let storage ← held storageAddress
    match ← .ofExcept (checkClaim c sender storage.data claim) with
    | none => paidClaims sender claims
    | some (record, lane, payout) =>
      addBalance sender payout
      let lane' : StorageLane := ⟨c.header.previousBlockHash, c.header.height, sender⟩
      let updated := { record with lanes := record.lanes.set claim.lane lane' }
      let storage ← held storageAddress
      let tree ← .ofExcept (putInRadixTree storage.data claim.storageId (.expr updated.expr))
      setData storageAddress tree
      extendPendingExprs (updated.cells c.node)
      countClaim
      let vote ← .ofExcept (claimVote c sender claim lane)
      addVotes vote
      let payouts ← paidClaims sender claims
      return ⟨claim.storageId, claim.lane, record.newSize, lane.height, c.header.height, payout⟩ ::
        payouts

/-- The payouts of `handleStoragePaymentContract`. -/
def storagePayouts (t : Transaction) : Stateful Ledger (List Payout) :=
  exceptException (do
    let (nodes, missed) ← .ofExcept (resolveListExprs c.node t.data)
    if missed ≠ [] then return []
    let claims ← .ofExcept (parseClaims c nodes)
    if claims = [] then return []
    paidClaims c t.sender claims) (pure [])

theorem payClaims_eq (sender : Bytes) (claims : List Claim) (minted : Int) :
    payClaims c sender claims minted =
      (fun payouts => minted + paidTotal payouts) <$> paidClaims c sender claims := by
  induction claims generalizing minted with
  | nil =>
    rw [payClaims, paidClaims, map_pure]
    simp [paidTotal]
  | cons claim claims ih =>
    rw [payClaims, paidClaims, map_bind]
    refine bind_congr fun storage => ?_
    rw [map_bind]
    refine bind_congr fun checked => ?_
    rcases checked with _ | ⟨record, lane, payout⟩
    · exact ih minted
    · simp only [ih, map_bind, map_pure]
      simp only [map_eq_pure_bind, paidTotal, List.map_cons, List.sum_cons, add_assoc]

theorem map_exceptException {α β : Type} (f : α → β) (x y : Stateful Ledger α) :
    f <$> exceptException x y = exceptException (f <$> x) (f <$> y) := by
  funext l
  simp only [map_eq_pure_bind, exceptException, bind_apply, Eff.handle]
  rcases x l with ⟨e | a, l'⟩
  · by_cases he : e.isException = true
    · simp only [if_pos he, bind_apply]
    · simp only [if_neg he, raise_apply]
  · rfl

/-- The handler returns the sum of the payouts. -/
theorem handleStoragePaymentContract_eq (t : Transaction) :
    handleStoragePaymentContract c t = paidTotal <$> storagePayouts c t := by
  rw [handleStoragePaymentContract, storagePayouts, map_exceptException, map_pure, map_bind]
  congr 1
  refine bind_congr fun resolved => ?_
  obtain ⟨nodes, missed⟩ := resolved
  by_cases hmissed : missed ≠ []
  · simp only [if_pos hmissed, map_pure]
    rfl
  · simp only [if_neg hmissed, map_bind]
    refine bind_congr fun claims => ?_
    by_cases hclaims : claims = []
    · simp only [if_pos hclaims, map_pure]
      rfl
    · simp only [if_neg hclaims, payClaims_eq, zero_add]

end Instrumented

section Views

variable (c : Ctx)

/-- What the tree of the storage account holds for a record id. -/
def Ledger.storageAt (l : Ledger) (id : Bytes) : Option TreeValue :=
  ((l.account c storageAddress).map Account.data).bind fun tree => tree.get? id

/-- The tree of the storage account holds these records. -/
def Ledger.Stores (l : Ledger) (records : RecordMap) : Prop :=
  ∀ id, l.storageAt c id = (records id).map fun record => .expr record.expr

/-- What storage holds under the hash of a storage record is read as this record. -/
def Node.ReadsRecords (node : Node) : Prop :=
  ∀ record record' hash, node.hash? (StorageRecord.expr record) = .ok hash →
    StorageRecord.fromExpr node (getExpr node hash) = .ok (some record') → record' = record

/-- Steps that leave the tree of the storage account. -/
abbrev KeepsStorageAt {α : Type} (m : Stateful Ledger α) : Prop :=
  Keeps (fun l l' => l'.storageAt c = l.storageAt c) m

variable {c} {l l' : Ledger}

theorem storageAt_of_account
    (h : (l'.account c storageAddress).map Account.data =
      (l.account c storageAddress).map Account.data) : l'.storageAt c = l.storageAt c := by
  funext id
  rw [Ledger.storageAt, Ledger.storageAt, h]

theorem storageAt_of_cached {storage : Account} (h : l.cache.get? storageAddress = some storage)
    (id : Bytes) : l.storageAt c id = storage.data.get? id := by
  rw [Ledger.storageAt, Ledger.account_of_cached h]
  rfl

theorem Ledger.Stores.of_same {records : RecordMap} (h : l.Stores c records)
    (hsame : l'.storageAt c = l.storageAt c) : l'.Stores c records := by
  intro id
  rw [hsame, h id]

theorem storage_mutate (a : Bytes) {f : Account → Account}
    (hf : ∀ account, (f account).data = account.data) : KeepsStorageAt c (mutate a f) := by
  intro l
  rcases h : mutate a f l with ⟨e | _, l'⟩
  · rw [mutate] at h
    split at h
    · cases h
    · obtain ⟨-, rfl⟩ := Prod.mk.inj h
      rfl
  · refine storageAt_of_account ?_
    rw [account_of_mutate h, Option.map_map]
    congr 1
    funext account
    simp only [Function.comp]
    split
    · exact hf account
    · rfl

theorem storage_mutate_other {a : Bytes} (ha : a ≠ storageAddress) (f : Account → Account) :
    KeepsStorageAt c (mutate a f) := by
  intro l
  rcases h : mutate a f l with ⟨e | _, l'⟩
  · rw [mutate] at h
    split at h
    · cases h
    · obtain ⟨-, rfl⟩ := Prod.mk.inj h
      rfl
  · refine storageAt_of_account ?_
    rw [account_of_mutate h, if_neg (Ne.symm ha), Option.map_id, id]

theorem storage_addBalance (a : Bytes) (n : Int) : KeepsStorageAt c (addBalance a n) :=
  storage_mutate a fun _ => rfl

theorem storage_getAccount (a : Bytes) : KeepsStorageAt c (getAccount c a) :=
  fun l => storageAt_of_account (by rw [account_getAccount])

theorem account_update {f : Ledger → Ledger}
    (h : (Eff.update f : Stateful Ledger Unit) l = (.ok (), l'))
    (hf : ∀ l, (f l).cache = l.cache) : l'.account c = l.account c := by
  obtain ⟨-, rfl⟩ := Prod.mk.inj h
  funext a
  rw [Ledger.account, Ledger.account, hf]

theorem storage_update {f : Ledger → Ledger} (hf : ∀ l, (f l).cache = l.cache) :
    KeepsStorageAt c (Eff.update f : Stateful Ledger Unit) := by
  intro l
  refine storageAt_of_account ?_
  change (Ledger.account c (f l) storageAddress).map _ = _
  rw [Ledger.account, hf, Ledger.account]

theorem storage_involve (a : Bytes) : KeepsStorageAt c (involve a) :=
  storage_update fun _ => rfl

theorem storage_getOrCreateRecipient (t : Transaction) :
    KeepsStorageAt c (getOrCreateRecipient c t) := by
  refine .ite (.pure _) (.ite (Keeps.bind .read fun _ => .pure _) ?_)
  refine (storage_getAccount _).bind fun account => ?_
  cases account with
  | none => exact .pure _
  | some account => exact .pure _

theorem storage_creditPositive (t : Transaction) (r : Recipient) (amount : Int) :
    KeepsStorageAt c (creditPositive t r amount) := by
  refine .ite ?_ (.pure _)
  cases r with
  | none => exact .raise _
  | held => exact (storage_addBalance _ _).bind fun _ => .pure _
  | fresh account => exact .pure _

/-- The tree that is set is the one that is seen. -/
theorem storageAt_of_setData {tree : Tree} (h : setData storageAddress tree l = (.ok (), l'))
    (id : Bytes) : l'.storageAt c id = tree.get? id := by
  obtain ⟨account, -, rfl⟩ := mutate_eq_ok.mp h
  rw [Ledger.storageAt, Ledger.account_insert, if_pos rfl]
  rfl

end Views

section Claims

variable {c : Ctx} {l l' : Ledger} {records : RecordMap} {sender : Bytes} {claim : Claim}

/-- A record is loaded as it was put. -/
theorem claimedRecord_eq_some {data : Tree} {storageId : Bytes} {record : StorageRecord}
    (hreads : c.node.ReadsRecords)
    (hdata : ∀ id, data.get? id = (records id).map fun record => .expr record.expr)
    (h : claimedRecord c data storageId = .ok (some record)) : records storageId = some record := by
  rw [claimedRecord, getFromRadixTree, hdata] at h
  rcases hrecord : records storageId with _ | stored
  · rw [hrecord] at h
    cases h
  · rw [hrecord] at h
    obtain ⟨hash, hhash, h⟩ := except_bind_eq_ok.mp h
    rw [hreads stored record hash hhash h]

/-- What a claim that holds has been checked for. -/
theorem checkClaim_eq_some {data : Tree} {record : StorageRecord} {lane : StorageLane}
    {payout : Int} (h : checkClaim c sender data claim = .ok (some (record, lane, payout))) :
    claimedRecord c data claim.storageId = .ok (some record) ∧
    record.lanes[claim.lane]? = some lane ∧
    (∀ i other, record.lanes[i]? = some other → i ≠ claim.lane → other.winner ≠ sender) ∧
    lane.height < c.header.height ∧ 0 < record.newSize ∧
    payout = record.newSize * (c.header.height - lane.height) := by
  obtain ⟨record?, hrecord, h⟩ := except_bind_eq_ok.mp h
  rcases record? with _ | found
  · cases h
  dsimp only at h
  split at h
  · cases h
  rcases hlane : found.lanes[claim.lane]? with _ | at_
  · rw [hlane] at h
    cases h
  simp only [hlane] at h
  split at h
  · cases h
  rename_i hothers
  split at h
  · cases h
  split at h
  · cases h
  rcases hslot : (decodeExprFromBytes claim.slotBytes).map c.node.hash with e | slotId
  · rw [hslot] at h
    cases h
  simp only [hslot] at h
  split at h
  · cases h
  split at h
  · cases h
  split at h
  · cases h
  rename_i hnew
  split at h
  · cases h
  cases h
  obtain ⟨hsize, hheight⟩ := not_or.mp hnew
  refine ⟨hrecord, hlane, ?_, not_le.mp hheight, not_le.mp hsize, rfl⟩
  intro i other hi hne hwinner
  refine hothers (List.any_eq_true.mpr ⟨other, ?_, by simpa using hwinner⟩)
  exact List.mem_eraseIdx_iff_getElem?.mpr ⟨i, hne, hi⟩

/-- What the loop does to the records and to the balance of the sender. -/
structure Paid (c : Ctx) (sender : Bytes) (records : RecordMap) (l l' : Ledger)
    (payouts : List Payout) : Prop where
  records : ∃ records', l'.Stores c records' ∧ PaysAll c.header sender records payouts records'
  balance : ∀ a, (l'.account c a).map Account.balance =
    (l.account c a).map fun account =>
      account.balance + if a = sender then paidTotal payouts else 0

theorem paidClaims_ok {claims : List Claim} {payouts : List Payout}
    (hreads : c.node.ReadsRecords) (hstores : l.Stores c records)
    (hrun : paidClaims c sender claims l = (.ok payouts, l')) :
    Paid c sender records l l' payouts := by
  induction claims generalizing l records payouts with
  | nil =>
    obtain ⟨hp, rfl⟩ := Prod.mk.inj hrun
    cases hp
    exact ⟨⟨records, hstores, .none⟩, fun a => by simp [paidTotal]⟩
  | cons claim claims ih =>
    obtain ⟨storage, l₀, hheld, hloop⟩ := bind_eq_ok.mp hrun
    obtain ⟨hstorage, rfl⟩ := held_eq_ok.mp hheld
    obtain ⟨checked, hcheck, hloop⟩ := ofExcept_bind_eq_ok.mp hloop
    rcases checked with _ | ⟨record, lane, payout⟩
    · exact ih hstores hloop
    have hdata : ∀ id, storage.data.get? id = (records id).map fun record => .expr record.expr := by
      intro id
      rw [← storageAt_of_cached (c := c) hstorage]
      exact hstores id
    obtain ⟨hclaimed, hlane, hothers, hlt, hpos, hpayout⟩ := checkClaim_eq_some hcheck
    have hrecord := claimedRecord_eq_some hreads hdata hclaimed
    obtain ⟨_, l₁, hcredit, hwrite⟩ := bind_eq_ok.mp hloop
    obtain ⟨storage₁, l₂, hheld₁, hwrite⟩ := bind_eq_ok.mp hwrite
    obtain ⟨hstorage₁, hl₂⟩ := held_eq_ok.mp hheld₁
    obtain ⟨tree, htree, hwrite⟩ := ofExcept_bind_eq_ok.mp hwrite
    obtain ⟨_, l₃, hset, hwrite⟩ := bind_eq_ok.mp hwrite
    obtain ⟨_, l₄, hextend, hwrite⟩ := bind_eq_ok.mp hwrite
    obtain ⟨_, l₅, hcount, hwrite⟩ := bind_eq_ok.mp hwrite
    obtain ⟨vote, -, hwrite⟩ := ofExcept_bind_eq_ok.mp hwrite
    obtain ⟨_, l₆, hvotes, hwrite⟩ := bind_eq_ok.mp hwrite
    obtain ⟨rest, l₇, hrest, hlast⟩ := bind_eq_ok.mp hwrite
    obtain ⟨hp, rfl⟩ := Prod.mk.inj hlast
    cases hp
    rw [hl₂] at hset
    have hextended : l₄.account c = l₃.account c := account_update hextend fun _ => rfl
    have hcounted : l₅.account c = l₄.account c := account_update hcount fun _ => rfl
    have hvoted : l₆.account c = l₅.account c := account_update hvotes fun _ => rfl
    have hafter₃ : l₆.account c = l₃.account c := hvoted.trans (hcounted.trans hextended)
    -- the record of the claim is the only one that the write changes
    have hput : tree = storage₁.data.insert claim.storageId (.expr { record with
        lanes := record.lanes.set claim.lane
          ⟨c.header.previousBlockHash, c.header.height, sender⟩ }.expr) :=
      putInRadixTree_eq_ok htree
    have hkept := (storage_addBalance (c := c) sender payout).of_ok hcredit
    have hstores₃ : l₃.Stores c (Function.update records claim.storageId (some { record with
        lanes := record.lanes.set claim.lane
          ⟨c.header.previousBlockHash, c.header.height, sender⟩ })) := by
      intro id
      rw [storageAt_of_setData hset, hput, Dict.get?_insert]
      by_cases hid : claim.storageId = id
      · subst hid
        rw [if_pos rfl, Function.update_self]
        rfl
      · rw [if_neg hid, Function.update_of_ne (Ne.symm hid), ← storageAt_of_cached (c := c) hstorage₁,
          hkept]
        exact hstores id
    have hstores₆ := hstores₃.of_same (storageAt_of_account (by rw [hafter₃]))
    obtain ⟨⟨records', hstores', hall⟩, hbalance⟩ := ih hstores₆ hrest
    have hpays : PaysLane c.header sender records
        ⟨claim.storageId, claim.lane, record.newSize, lane.height, c.header.height, payout⟩ _ :=
      ⟨⟨record, lane, hrecord, hlane, hothers, rfl, rfl, rfl⟩, hpos, hlt, rfl, hpayout⟩
    refine ⟨⟨records', hstores', .paid hpays hall⟩, fun a => (hbalance a).trans ?_⟩
    have hafter : l₃.account c a = ((l₀.account c a).map
        (if a = sender then fun x => { x with balance := x.balance + payout } else id)).map
        (if a = storageAddress then fun x => { x with data := tree } else id) := by
      rw [account_of_mutate hset, account_of_mutate hcredit]
    rw [hafter₃, hafter, Option.map_map, Option.map_map]
    congr 1
    funext account
    have hcons : paidTotal (⟨claim.storageId, claim.lane, record.newSize, lane.height,
        c.header.height, payout⟩ :: rest) = payout + paidTotal rest := by simp [paidTotal]
    rw [hcons]
    by_cases hs : a = sender
    · by_cases ht : a = storageAddress
      · simp only [Function.comp, if_pos hs, if_pos ht]
        ring
      · simp only [Function.comp, if_pos hs, if_neg ht, id]
        ring
    · by_cases ht : a = storageAddress
      · simp only [Function.comp, if_neg hs, if_pos ht, id]
      · simp only [Function.comp, if_neg hs, if_neg ht, id]

/-- A handler that returns a payout has run its loop to the end. -/
theorem storagePayouts_ok {t : Transaction} {payouts : List Payout} (hreads : c.node.ReadsRecords)
    (hstores : l.Stores c records) (hrun : storagePayouts c t l = (.ok payouts, l'))
    (hpaid : paidTotal payouts ≠ 0) : Paid c t.sender records l l' payouts := by
  have hnone : ∀ l l' : Ledger, (pure [] : Stateful Ledger (List Payout)) l = (.ok payouts, l') →
      False := by
    rintro l l' h
    obtain ⟨hp, -⟩ := Prod.mk.inj h
    cases hp
    exact hpaid rfl
  rcases Eff.handle_eq_ok.mp hrun with hrun | ⟨e, l₁, -, hcaught⟩
  · obtain ⟨⟨nodes, missed⟩, -, hrun⟩ := ofExcept_bind_eq_ok.mp hrun
    dsimp only at hrun
    split at hrun
    · exact (hnone _ _ hrun).elim
    · obtain ⟨claims, -, hrun⟩ := ofExcept_bind_eq_ok.mp hrun
      split at hrun
      · exact (hnone _ _ hrun).elim
      · exact paidClaims_ok hreads hstores hrun
  · split at hcaught
    · exact (hnone _ _ hcaught).elim
    · cases hcaught

end Claims

section Transactions

/-- The payouts of the handler of a storage payment. -/
def handlerPayouts (c : Ctx) (t : Transaction) (l : Ledger) : List Payout :=
  if t.recipient = storageAddress then
    match storagePayouts c t (getOrCreateRecipient c t l).2 with
    | (.ok payouts, _) => payouts
    | (.error _, _) => []
  else []

/-- The payouts of a storage payment that goes through from the ledger `l`. -/
def paymentPayouts (c : Ctx) (t : Transaction) (nested : Bool) (l : Ledger) : List Payout :=
  handlerPayouts c t (enter c nested t l).2

variable {c : Ctx} {t : Transaction} {g : Guarded} {h : Handled} {l l' : Ledger}
  {records : RecordMap} {transactionHash : Bytes}

/-- A storage payment that succeeds mints its payouts. -/
theorem applyStoragePayment_ok (hreads : c.node.ReadsRecords) (hstores : l.Stores c records)
    (hrun : applyStoragePayment c t g l = (.ok h, l')) (hsuccess : h.status = .success) :
    h.minted = paidTotal (handlerPayouts c t l) ∧
    ∃ records', l'.Stores c records' ∧
      PaysAll c.header t.sender records (handlerPayouts c t l) records' := by
  obtain ⟨recipient, l₁, hrecipient, hrun⟩ := bind_eq_ok.mp hrun
  have hstores₁ := hstores.of_same ((storage_getOrCreateRecipient t).of_ok hrecipient)
  by_cases hto : t.recipient = storageAddress
  · rw [if_neg (not_not.mpr hto)] at hrun
    obtain ⟨minted, l₂, hmint, hrun⟩ := bind_eq_ok.mp hrun
    obtain ⟨recipient', l₃, hcredit, hrun⟩ := bind_eq_ok.mp hrun
    obtain ⟨hh, rfl⟩ := Prod.mk.inj hrun
    cases hh
    have hminted : minted ≠ 0 := by
      rintro rfl
      cases hsuccess
    have hguarded : g.status = .success := by
      dsimp only [handled] at hsuccess
      rwa [if_neg hminted] at hsuccess
    rw [paymentMinted, if_pos hguarded, handleStoragePaymentContract_eq, map_eq_pure_bind] at hmint
    obtain ⟨payouts, l₄, hpayouts, hpure⟩ := bind_eq_ok.mp hmint
    obtain ⟨htotal, rfl⟩ := Prod.mk.inj hpure
    obtain rfl := Except.ok.inj htotal
    have hhandler : handlerPayouts c t l = payouts := by
      rw [handlerPayouts, if_pos hto, hrecipient, hpayouts]
    obtain ⟨⟨records', hstores', hall⟩, -⟩ := storagePayouts_ok hreads hstores₁ hpayouts hminted
    rw [hhandler]
    refine ⟨rfl, records', hstores'.of_same ?_, hall⟩
    exact (storage_creditPositive t recipient _).of_ok hcredit
  · rw [if_pos hto] at hrun
    obtain ⟨hh, rfl⟩ := Prod.mk.inj hrun
    cases hh
    have hhandler : handlerPayouts c t l = [] := if_neg hto
    rw [hhandler]
    exact ⟨rfl, records, hstores₁, .none⟩

theorem stores_of_entered {nested : Bool} (hstores : l.Stores c records)
    (hread : (l.entered nested).Read c l') : l'.Stores c records :=
  hstores.of_same (storageAt_of_account (congrArg _ (hread.account storageAddress)))

/-- A nested transaction that succeeds has gone through its handler, and leaves the tree of the
storage account as the handler does. -/
theorem applyNestedWith_eq_ok {keys : List Bytes} {apply : NestedApply} {o : Outcome}
    (hrun : applyNestedWith c keys apply t transactionHash l = (.ok o, l'))
    (hsuccess : o.status = .success) :
    ∃ g l₁ h l₂, enter c true t l = (.ok g, l₁) ∧
      runHandler c t true keys apply transactionHash g l₁ = (.ok h, l₂) ∧ h.status = .success ∧
      l'.storageAt c = l₂.storageAt c := by
  obtain ⟨g, l₁, handled, l₂, l₅, l₆, h₁, h₂, hs, h₅, h₆, h₇⟩ :=
    applyNestedWith_steps hrun hsuccess
  have hfresh := fresh_runHandler true keys apply transactionHash l₁ trivial handled l₂ h₂
  refine ⟨g, l₁, handled, l₂, h₁, h₂, hs, ?_⟩
  rw [setRecipient_apply] at h₆
  obtain ⟨-, rfl⟩ := Prod.mk.inj h₆
  obtain ⟨-, rfl⟩ := Prod.mk.inj h₇
  have hcharged := (storage_addBalance (c := c) t.sender (-handled.transferAmount)).of_ok h₅
  have hset : (l₅.withRecipient t handled.recipient).storageAt c = l₅.storageAt c :=
    storageAt_of_account
      (congrArg _ (account_withRecipient fun account hr => (hfresh account hr).2.1))
  exact hset.trans hcharged

/-- A nested storage payment that succeeds pays out what its handler pays out. -/
theorem paid_applyNestedWith {keys : List Bytes} {apply : NestedApply} {o : Outcome}
    (hreads : c.node.ReadsRecords) (hcode : t.code = .storagePayment)
    (hstores : l.Stores c records)
    (hrun : applyNestedWith c keys apply t transactionHash l = (.ok o, l'))
    (hsuccess : o.status = .success) :
    ∃ records', l'.Stores c records' ∧
      PaysAll c.header t.sender records (paymentPayouts c t true l) records' := by
  obtain ⟨g, l₁, h, l₂, h₁, h₂, hs, hsame⟩ := applyNestedWith_eq_ok hrun hsuccess
  obtain ⟨-, hread, -⟩ := enter_eq_ok h₁
  rw [runHandler, hcode] at h₂
  obtain ⟨-, records', hstores', hall⟩ :=
    applyStoragePayment_ok hreads (stores_of_entered hstores hread) h₂ hs
  have hpayouts : paymentPayouts c t true l = handlerPayouts c t l₁ := by rw [paymentPayouts, h₁]
  rw [hpayouts]
  exact ⟨records', hstores'.of_same hsame, hall⟩

end Transactions

section Nested

/-- The payouts of the storage payments that a run of contracts makes through `tx.new`, one after
the other. Nothing else that it does changes what the tree of the storage account holds. -/
inductive Nested (c : Ctx) : Ledger → List Payout → Ledger → Prop
  | stop (l : Ledger) : Nested c l [] l
  | paid {l l₁ l' : Ledger} {t : Transaction} {keys : List Bytes} {apply : NestedApply}
      {transactionHash : Bytes} {o : Outcome} {payouts : List Payout}
      (hcode : t.code = .storagePayment)
      (hrun : applyNestedWith c keys apply t transactionHash l = (.ok o, l₁))
      (hsuccess : o.status = .success) (rest : Nested c l₁ payouts l') :
      Nested c l (paymentPayouts c t true l ++ payouts) l'
  | other {l l₁ l' : Ledger} {payouts : List Payout} (hsame : l₁.storageAt c = l.storageAt c)
      (rest : Nested c l₁ payouts l') : Nested c l payouts l'

variable {c : Ctx} {l l' : Ledger} {payouts : List Payout}

theorem Nested.trans {l₁ : Ledger} {payouts₁ : List Payout} (h : Nested c l payouts l₁)
    (h₁ : Nested c l₁ payouts₁ l') : Nested c l (payouts ++ payouts₁) l' := by
  induction h with
  | stop => exact h₁
  | paid hcode hrun hsuccess _ ih =>
    rw [List.append_assoc]
    exact .paid hcode hrun hsuccess (ih h₁)
  | other hsame _ ih => exact .other hsame (ih h₁)

/-- Nested payments keep the lanes safe. -/
theorem Nested.safe {records : RecordMap} {created : Bytes → Int} {log : List Payout}
    (hreads : c.node.ReadsRecords) (h : Nested c l payouts l') (hstores : l.Stores c records)
    (hsafe : LanesSafe records created c.header.height log) :
    ∃ records', l'.Stores c records' ∧
      LanesSafe records' created c.header.height (payouts.reverse ++ log) ∧
      ∀ p ∈ payouts, p.height = c.header.height := by
  induction h generalizing records log with
  | stop => exact ⟨records, hstores, hsafe, fun _ h => absurd h List.not_mem_nil⟩
  | paid hcode hrun hsuccess _ ih =>
    obtain ⟨records₁, hstores₁, hall⟩ := paid_applyNestedWith hreads hcode hstores hrun hsuccess
    obtain ⟨records', hstores', hsafe', hheights⟩ := ih hstores₁ (hsafe.paidAll hall)
    rw [List.reverse_append, List.append_assoc]
    refine ⟨records', hstores', hsafe', fun p hp => ?_⟩
    exact (List.mem_append.mp hp).elim (hall.height p) (hheights p)
  | other hsame _ ih => exact ih (hstores.of_same hsame) hsafe

/-- A run of contracts that makes some payouts. -/
def PaysNested (c : Ctx) (l l' : Ledger) : Prop := ∃ payouts, Nested c l payouts l'

instance : IsPreorder Ledger (PaysNested c) where
  refl l := ⟨[], .stop l⟩
  trans _ _ _ := fun ⟨payouts, h⟩ ⟨payouts₁, h₁⟩ => ⟨payouts ++ payouts₁, h.trans h₁⟩

theorem pays_of_storage {α : Type} {m : Stateful Ledger α} (hm : KeepsStorageAt c m) :
    Keeps (PaysNested c) m :=
  fun l => ⟨[], .other (hm l) (.stop _)⟩

/-- `applyNested`, stopped at a transaction that goes through and is neither a storage payment nor
a call of another contract. -/
def applyPayments (c : Ctx) (blockBloomKeys : List Bytes) : Nat → NestedApply
  | 0 => fun _ _ => .raise .outOfFuel
  | n + 1 => fun t transactionHash => do
    let o ← applyNestedWith c blockBloomKeys (applyPayments c blockBloomKeys n) t transactionHash
    if o.status = .success ∧ t.code ≠ .storagePayment ∧
        (t.code ≠ .codeAccountCall ∨ t.recipient = storageAddress) then .raise .outOfFuel
    else return o

section Contracts

variable {call : Call} {apply : NestedApply}

theorem storage_accPut (hto : call.tx.recipient ≠ storageAddress) (key value : Bytes) (e : Expr) :
    KeepsStorageAt call.ctx (accPut call key value e) := by
  refine (storage_getAccount _).bind fun _ => (Keeps.when (.raise _)).bind fun _ => ?_
  refine (storage_getAccount _).bind fun sender => ?_
  rcases sender with _ | sender
  · exact .raise _
  refine (storage_getAccount _).bind fun _ => (Keeps.ofExcept _).bind fun _ => ?_
  refine (Keeps.when (.raise _)).bind fun _ => (storage_addBalance _ _).bind fun _ => ?_
  refine (storage_addBalance _ _).bind fun _ => (keeps_held _).bind fun _ => ?_
  refine (Keeps.ofExcept _).bind fun _ => Keeps.bind (storage_mutate_other hto _) fun _ => ?_
  exact (storage_involve _).bind fun _ => (storage_involve _).bind fun _ => storage_involve _

theorem storage_takeCounter : KeepsStorageAt call.ctx (takeCounter call) := by
  refine (storage_getAccount _).bind fun account => ?_
  rcases account with _ | account
  · exact .raise _
  · have hcounted := storage_mutate (c := call.ctx) call.tx.recipient
      (f := fun account => { account with counter := account.counter + 1 }) fun _ => rfl
    exact hcounted.bind fun _ => (storage_involve _).bind fun _ => .pure _

theorem within_paysNested (hto : call.tx.recipient ≠ storageAddress)
    (happly : apply.Within Uncaught (PaysNested call.ctx)) :
    call.Within apply Uncaught (PaysNested call.ctx) where
  uncaught _ he := he
  read a := (pays_of_storage (storage_getAccount a)).unless
  put key value e := (pays_of_storage (storage_accPut hto key value e)).unless
  counter := (pays_of_storage storage_takeCounter).unless
  apply := happly

/-- A contract that goes through has only made the payouts of its nested payments. -/
theorem pays_handleExpressionAccountCall (hto : call.tx.recipient ≠ storageAddress)
    (happly : apply.Within Uncaught (PaysNested call.ctx)) {r : CallResult}
    (hrun : handleExpressionAccountCall call apply l = (.ok r, l')) (hsuccess : r.status = .success) :
    PaysNested call.ctx l l' := by
  have hnoRun : ∀ {l₁ : Ledger}, (pure (noRun call.tx) : Stateful Ledger CallResult) l₁ =
      (.ok r, l') → False := by
    intro l₁ h
    obtain ⟨hr, -⟩ := Prod.mk.inj h
    cases hr
    cases hsuccess
  obtain ⟨account, l₁, h₁, hrun⟩ := bind_eq_ok.mp hrun
  have hread := (pays_of_storage (storage_getAccount (c := call.ctx) _)).of_ok h₁
  rcases account with _ | account
  · exact (hnoRun hrun).elim
  dsimp only at hrun
  split at hrun
  · exact (hnoRun hrun).elim
  obtain ⟨program, -, hrun⟩ := ofExcept_bind_eq_ok.mp hrun
  rcases program with _ | program
  · exact (hnoRun hrun).elim
  change callProgram call apply program l₁ = _ at hrun
  rw [callProgram, read_bind] at hrun
  obtain ⟨_, l₂, h₂, hrun⟩ := bind_eq_ok.mp hrun
  obtain ⟨_, l₃, h₃, hrun⟩ := bind_eq_ok.mp hrun
  have hcredited := (pays_of_storage (storage_addBalance (c := call.ctx) _ _)).of_ok h₂
  have hinvolved := (pays_of_storage (storage_involve (c := call.ctx) _)).of_ok h₃
  have hbefore := trans_of (PaysNested call.ctx) (trans_of (PaysNested call.ctx) hread hcredited)
    hinvolved
  -- a run that succeeds has ended
  have hwithin := within_evaluation (within_paysNested hto happly) call.ctx.node.fuel
    (link call.tx.data program) (newMachine l₃ call.tx.costLimit call.tx)
  simp only [runContract] at hrun
  rcases hr : evaluation call apply call.ctx.node.fuel (link call.tx.data program)
    (newMachine l₃ call.tx.costLimit call.tx) with ⟨e | _, m⟩ <;> rw [hr] at hwithin hrun
  · cases e with
    | meterExceeded =>
      obtain ⟨hcon, -⟩ := Prod.mk.inj hrun
      rw [← Except.ok.inj hcon] at hsuccess
      cases hsuccess
    | runtimeError =>
      obtain ⟨hcon, -⟩ := Prod.mk.inj hrun
      rw [← Except.ok.inj hcon] at hsuccess
      cases hsuccess
    | _ => cases hrun
  · obtain ⟨-, rfl⟩ := Prod.mk.inj hrun
    exact trans_of (PaysNested call.ctx) hbefore hwithin

end Contracts

section Calls

variable {t : Transaction} {g : Guarded} {h : Handled} {keys : List Bytes} {apply : NestedApply}
  {transactionHash : Bytes}

theorem pays_applyCodeAccountCall (hto : t.recipient ≠ storageAddress)
    (happly : apply.Within Uncaught (PaysNested c))
    (hrun : applyCodeAccountCall c t g keys apply l = (.ok h, l')) (hsuccess : h.status = .success) :
    PaysNested c l l' := by
  rw [applyCodeAccountCall] at hrun
  split at hrun
  · obtain ⟨hh, -⟩ := Prod.mk.inj hrun
    cases hh
    exact absurd hsuccess ‹_›
  obtain ⟨r, l₁, h₁, hrun⟩ := bind_eq_ok.mp hrun
  dsimp only at hrun
  split at hrun
  · obtain ⟨hh, -⟩ := Prod.mk.inj hrun
    cases hh
    exact absurd hsuccess ‹_›
  have hr : r.status = .success := not_not.mp ‹_›
  have hcalled := @pays_handleExpressionAccountCall l l₁ ⟨c, t, keys⟩ apply hto happly r h₁ hr
  obtain ⟨_, l₂, h₂, hrun⟩ := bind_eq_ok.mp hrun
  obtain ⟨_, l₃, h₃, hrun⟩ := bind_eq_ok.mp hrun
  obtain ⟨_, l₄, h₄, hrun⟩ := bind_eq_ok.mp hrun
  obtain ⟨-, rfl⟩ := Prod.mk.inj hrun
  have hread₂ := (storage_getAccount (c := c) _).of_ok h₂
  have hread₃ := (storage_getAccount (c := c) _).of_ok h₃
  have hread₄ := (storage_getAccount (c := c) _).of_ok h₄
  exact trans_of (PaysNested c) hcalled
    ⟨[], .other ((hread₄.trans hread₃).trans hread₂) (.stop _)⟩

theorem storageAt_entered {nested : Bool} {l₁ : Ledger} (h : (l.entered nested).Read c l₁) :
    l₁.storageAt c = l.storageAt c :=
  storageAt_of_account (congrArg _ (h.account storageAddress))

/-- Stopped at everything else that could change the records, the nested transactions only pay. -/
theorem within_applyPayments (keys : List Bytes) (n : Nat) :
    (applyPayments c keys n).Within Uncaught (PaysNested c) := by
  induction n with
  | zero => exact fun _ _ _ => .inr (.inl rfl)
  | succ n ih =>
    intro t transactionHash l
    have herror : ∀ {e : PyError} {l'}, e.isException ∨ Uncaught e ∨ PaysNested c l l' :=
      fun {e l'} => (isException_or_uncaught e).imp_right .inl
    dsimp only [applyPayments]
    rcases hr : applyNestedWith c keys (applyPayments c keys n) t transactionHash l with ⟨e | o, l'⟩
    · rw [bind_of_error hr]
      exact herror
    rw [bind_of_ok hr]
    split_ifs with hstop
    · exact herror
    · intro hsuccess
      by_cases hcode : t.code = .storagePayment
      · exact ⟨_, .paid hcode hr hsuccess (.stop _)⟩
      · have hcall : t.code = .codeAccountCall ∧ t.recipient ≠ storageAddress := by
          by_contra hcon
          exact hstop ⟨hsuccess, hcode, not_and_or.mp hcon |>.imp_right not_not.mp⟩
        obtain ⟨g, l₁, h, l₂, h₁, h₂, hs, hsame⟩ := applyNestedWith_eq_ok hr hsuccess
        obtain ⟨-, hread, -⟩ := enter_eq_ok h₁
        rw [runHandler, hcall.1] at h₂
        obtain ⟨payouts, hpays⟩ := pays_applyCodeAccountCall hcall.2 ih h₂ hs
        refine ⟨payouts ++ [], .other (storageAt_entered hread) (hpays.trans ?_)⟩
        exact .other hsame (.stop _)

end Calls

end Nested

section TopLevel

variable {t : Transaction} {transactionHash : Bytes} {node : Node} {b b' : Block} {o : Outcome}
  {records : RecordMap}

/-- What the tree of the storage account holds in a block. -/
def Block.storageAt (b : Block) (node : Node) (id : Bytes) : Option TreeValue :=
  b.ledger.storageAt (b.ctx node) id

theorem storageAt_next (hrun : applyTxEffects t transactionHash node b = (.ok o, b')) :
    b'.storageAt node = b'.ledger.storageAt (b.ctx node) := by
  have hheader : b'.header = b.header := (header_applyTxEffects node).of_ok hrun
  have hctx : b'.ctx node = b.ctx node := by rw [Block.ctx, Block.ctx, hheader]
  funext id
  rw [Block.storageAt, hctx]

/-- A transaction that fails mints nothing and leaves the records. -/
theorem receipt_of_failed (hrun : applyTxEffects t transactionHash node b = (.ok o, b'))
    (hfail : o.status = .failed) {receipt : Receipt} (hreceipt : b'.receipts = b.receipts ++ [receipt]) :
    receipt.mint = 0 ∧ b'.storageAt node = b.storageAt node := by
  obtain ⟨_, _, receipt', -, -, hmint, -, hfrom⟩ := failedFrom_of_failed hrun hfail
  obtain rfl : receipt' = receipt :=
    List.singleton_inj.mp (List.append_cancel_left (hfrom.receipts.symm.trans hreceipt))
  refine ⟨hmint, (storageAt_next hrun).trans (storageAt_of_account ?_)⟩
  rw [hfrom.account, Option.map_map]
  rfl

/-- A transaction that succeeds has the mint of its handler in its receipt, and leaves the records
as the handler does. -/
theorem receipt_of_success (hrun : applyTxEffects t transactionHash node b = (.ok o, b'))
    (hok : o.status = .success) {receipt : Receipt}
    (hreceipt : b'.receipts = b.receipts ++ [receipt]) :
    ∃ g l₀ h l₁, enter (b.ctx node) false t b.ledger = (.ok g, l₀) ∧
      runHandler (b.ctx node) t false b.pendingBloomKeys (b.nestedApply node) transactionHash g l₀ =
        (.ok h, l₁) ∧ h.status = .success ∧ receipt.mint = h.minted ∧
      b'.storageAt node = l₁.storageAt (b.ctx node) := by
  obtain ⟨g, l₀, h, l₁, e₀, e₁, hf⟩ := applyTxEffects_eq_ok hrun
  obtain ⟨h₁, b₁, balance, priced, b₂, inserted, account, -, -, -, -, hcase⟩ := finish_eq_ok hf
  rcases hcase with ⟨hsuccess, -, -, -, -, -, hc⟩ | ⟨-, hc⟩
  · have hfresh := fresh_runHandler _ _ _ _ l₀ trivial h l₁ e₁
    have hlast := List.singleton_inj.mp
      (List.append_cancel_left (hc.receipts.symm.trans hreceipt))
    refine ⟨g, l₀, h, l₁, e₀, e₁, hsuccess, ?_, ?_⟩
    · rw [← hlast]
      rfl
    · rw [storageAt_next hrun]
      refine storageAt_of_account ?_
      have hafter := account_of_deduct (c := b.ctx node) (a := storageAddress) hc.deducted
        fun account hr => (hfresh account hr).2.1
      rw [hafter, Option.map_map]
      rfl
  · rw [hc.outcome] at hok
    cases hok

/-- The payouts that a top-level storage payment makes. -/
def Block.payouts (b : Block) (node : Node) (t : Transaction) (o : Outcome) : List Payout :=
  if o.status = .success then paymentPayouts (b.ctx node) t false b.ledger else []

/-- A top-level storage payment has its payouts as the mint of its receipt. -/
theorem paid_applyTxEffects (hreads : node.ReadsRecords) (hcode : t.code = .storagePayment)
    (hstores : b.ledger.Stores (b.ctx node) records)
    (hrun : applyTxEffects t transactionHash node b = (.ok o, b')) {receipt : Receipt}
    (hreceipt : b'.receipts = b.receipts ++ [receipt]) :
    receipt.mint = paidTotal (b.payouts node t o) ∧
    ∃ records', (∀ id, b'.storageAt node id = (records' id).map fun record => .expr record.expr) ∧
      PaysAll b.header t.sender records (b.payouts node t o) records' := by
  cases hstatus : o.status with
  | failed =>
    obtain ⟨hmint, hsame⟩ := receipt_of_failed hrun hstatus hreceipt
    have hnone : b.payouts node t o = [] := by
      rw [Block.payouts, hstatus]
      rfl
    rw [hnone, hsame]
    exact ⟨hmint, records, hstores, .none⟩
  | success =>
    obtain ⟨g, l₀, h, l₁, e₀, e₁, hs, hmint, hsame⟩ := receipt_of_success hrun hstatus hreceipt
    obtain ⟨-, hread, -⟩ := enter_eq_ok e₀
    rw [runHandler, hcode] at e₁
    obtain ⟨hminted, records', hstores', hall⟩ :=
      applyStoragePayment_ok hreads (stores_of_entered hstores hread) e₁ hs
    have hpayouts : b.payouts node t o = handlerPayouts (b.ctx node) t l₀ := by
      rw [Block.payouts, if_pos hstatus, paymentPayouts, e₀]
    rw [hpayouts, hsame]
    exact ⟨hmint.trans hminted, records', hstores', hall⟩

/-- A call of a contract mints nothing at the top level. -/
theorem mint_of_call (hcode : t.code = .codeAccountCall)
    (hrun : applyTxEffects t transactionHash node b = (.ok o, b')) {receipt : Receipt}
    (hreceipt : b'.receipts = b.receipts ++ [receipt]) : receipt.mint = 0 := by
  cases hstatus : o.status with
  | failed => exact (receipt_of_failed hrun hstatus hreceipt).1
  | success =>
    obtain ⟨g, l₀, h, l₁, -, e₁, -, hmint, -⟩ := receipt_of_success hrun hstatus hreceipt
    rw [hmint]
    by_contra hminted
    have honly := minted_runHandler _ _ _ _ l₀ trivial h l₁ e₁ hminted
    rw [hcode] at honly
    cases honly.1

/-- The nested transactions of the contract that the transaction calls are storage payments, and
calls that make such: the call runs as it does where it would be stopped at the others. -/
def Block.CallPaysOnly (b : Block) (node : Node) (t : Transaction) (transactionHash : Bytes) :
    Prop :=
  ∀ g l, enter (b.ctx node) false t b.ledger = (.ok g, l) →
    runHandler (b.ctx node) t false b.pendingBloomKeys (b.nestedApply node) transactionHash g l =
      runHandler (b.ctx node) t false b.pendingBloomKeys
        (applyPayments (b.ctx node) b.pendingBloomKeys node.fuel) transactionHash g l

/-- All that such a call does to the records is what its nested payments do. -/
theorem nested_of_call (hcode : t.code = .codeAccountCall) (hto : t.recipient ≠ storageAddress)
    (hpays : b.CallPaysOnly node t transactionHash)
    (hrun : applyTxEffects t transactionHash node b = (.ok o, b')) (hok : o.status = .success)
    {receipt : Receipt} (hreceipt : b'.receipts = b.receipts ++ [receipt]) :
    ∃ payouts, Nested (b.ctx node) b.ledger payouts b'.ledger := by
  obtain ⟨g, l₀, h, l₁, e₀, e₁, hs, -, hsame⟩ := receipt_of_success hrun hok hreceipt
  obtain ⟨-, hread, -⟩ := enter_eq_ok e₀
  rw [hpays g l₀ e₀, runHandler, hcode] at e₁
  obtain ⟨payouts, hnested⟩ := pays_applyCodeAccountCall hto (within_applyPayments _ _) e₁ hs
  rw [storageAt_next hrun] at hsame
  exact ⟨payouts ++ [], .other (storageAt_entered hread) (hnested.trans (.other hsame (.stop _)))⟩

end TopLevel

section Runs

/-- A top-level transaction of a run: its block's height, its receipt, and what it paid. -/
structure PaidEntry where
  height : Int
  receipt : Receipt
  payouts : List Payout
  nested : Bool

/-- All payouts, the last one first. -/
def payoutLog (entries : List PaidEntry) : List Payout :=
  entries.flatMap fun e => e.payouts.reverse

/-- Storage payments, at the top level and nested in calls of contracts, over any blocks. Between
them may be whatever else leaves the records or opens a new one. `created` has the heights that the
lanes of the records started from. -/
inductive StorageRun (node : Node) : Block → (Bytes → Int) → List PaidEntry → Prop
  | start {b : Block} {created : Bytes → Int} (hnone : ∀ id, b.storageAt node id = none) :
      StorageRun node b created []
  | between {b b' : Block} {created : Bytes → Int} {entries : List PaidEntry}
      (run : StorageRun node b created entries) (hsame : b'.storageAt node = b.storageAt node)
      (hheight : b.header.height ≤ b'.header.height) : StorageRun node b' created entries
  | opened {b b' : Block} {created : Bytes → Int} {entries : List PaidEntry}
      {id slotsRoot : Bytes} {newSize newCount : Int} (run : StorageRun node b created entries)
      (hnew : b.storageAt node id = none) (hsize : 0 ≤ newSize)
      (hopened : b'.storageAt node = Function.update (b.storageAt node) id
        (some (.expr (initialStorageRecord b'.header newSize newCount slotsRoot).expr)))
      (hheight : b.header.height ≤ b'.header.height) :
      StorageRun node b' (Function.update created id (b'.header.height - 1)) entries
  | payment {b b' : Block} {created : Bytes → Int} {entries : List PaidEntry} {t : Transaction}
      {transactionHash : Bytes} {o : Outcome} {receipt : Receipt}
      (run : StorageRun node b created entries) (hcode : t.code = .storagePayment)
      (hrun : applyTxEffects t transactionHash node b = (.ok o, b'))
      (hreceipt : b'.receipts = b.receipts ++ [receipt]) :
      StorageRun node b' created
        (⟨b.header.height, receipt, b.payouts node t o, false⟩ :: entries)
  | call {b b' : Block} {created : Bytes → Int} {entries : List PaidEntry} {t : Transaction}
      {transactionHash : Bytes} {o : Outcome} {receipt : Receipt} {payouts : List Payout}
      (run : StorageRun node b created entries) (hcode : t.code = .codeAccountCall)
      (hrun : applyTxEffects t transactionHash node b = (.ok o, b'))
      (hreceipt : b'.receipts = b.receipts ++ [receipt])
      (hnested : Nested (b.ctx node) b.ledger payouts b'.ledger) :
      StorageRun node b' created (⟨b.header.height, receipt, payouts, true⟩ :: entries)

/-- What holds after a run of storage payments. -/
structure StorageSafe (node : Node) (b : Block) (created : Bytes → Int) (entries : List PaidEntry)
    (records : RecordMap) : Prop where
  stores : ∀ id, b.storageAt node id = (records id).map fun record => .expr record.expr
  lanes : LanesSafe records created b.header.height (payoutLog entries)
  heights : ∀ e ∈ entries, ∀ p ∈ e.payouts, p.height = e.height
  topLevel : ∀ e ∈ entries, e.nested = false → e.receipt.mint = paidTotal e.payouts
  nested : ∀ e ∈ entries, e.nested = true → e.receipt.mint = 0

variable {node : Node} {b : Block} {created : Bytes → Int} {entries : List PaidEntry}

theorem storage_safe (hreads : node.ReadsRecords) (run : StorageRun node b created entries) :
    ∃ records, StorageSafe node b created entries records := by
  induction run with
  | @start b created hnone =>
    exact ⟨fun _ => none, hnone, .start _ _, nofun, nofun, nofun⟩
  | between run hsame hheight ih =>
    obtain ⟨records, hsafe⟩ := ih
    refine ⟨records, fun id => ?_, hsafe.lanes.later hheight, hsafe.heights, hsafe.topLevel,
      hsafe.nested⟩
    rw [hsame, hsafe.stores]
  | @opened b b' created entries id slotsRoot newSize newCount run hnew hsize hopened hheight ih =>
    obtain ⟨records, hsafe⟩ := ih
    have hfree : records id = none := by
      have hstored := hsafe.stores id
      rw [hnew] at hstored
      exact Option.map_eq_none_iff.mp hstored.symm
    refine ⟨_, fun a => ?_, hsafe.lanes.opened hfree hheight hsize newCount slotsRoot,
      hsafe.heights, hsafe.topLevel, hsafe.nested⟩
    rw [hopened]
    by_cases ha : a = id
    · subst ha
      rw [Function.update_self, Function.update_self]
      rfl
    · rw [Function.update_of_ne ha, Function.update_of_ne ha]
      exact hsafe.stores a
  | @payment b b' created entries t transactionHash o receipt run hcode hrun hreceipt ih =>
    obtain ⟨records, hsafe⟩ := ih
    obtain ⟨hmint, records', hstores', hall⟩ :=
      paid_applyTxEffects hreads hcode hsafe.stores hrun hreceipt
    have hheader : b'.header = b.header := (header_applyTxEffects node).of_ok hrun
    refine ⟨records', hstores', ?_, ?_, ?_, ?_⟩
    · rw [hheader]
      exact hsafe.lanes.paidAll hall
    · exact List.forall_mem_cons.mpr ⟨hall.height, hsafe.heights⟩
    · exact List.forall_mem_cons.mpr ⟨fun _ => hmint, hsafe.topLevel⟩
    · exact List.forall_mem_cons.mpr ⟨nofun, hsafe.nested⟩
  | @call b b' created entries t transactionHash o receipt payouts run hcode hrun hreceipt hnested ih =>
    obtain ⟨records, hsafe⟩ := ih
    obtain ⟨records', hstores', hlanes, hheights⟩ :=
      hnested.safe hreads hsafe.stores hsafe.lanes
    have hheader : b'.header = b.header := (header_applyTxEffects node).of_ok hrun
    refine ⟨records', fun id => ?_, ?_, ?_, ?_, ?_⟩
    · rw [storageAt_next hrun]
      exact hstores' id
    · rw [hheader]
      exact hlanes
    · exact List.forall_mem_cons.mpr ⟨hheights, hsafe.heights⟩
    · exact List.forall_mem_cons.mpr ⟨nofun, hsafe.topLevel⟩
    · exact List.forall_mem_cons.mpr ⟨fun _ => mint_of_call hcode hrun hreceipt, hsafe.nested⟩

/-- What was paid on a lane, the last payout first: the whole of the time since the record was
created, each block once. -/
structure PaidOnce (size created height laneHeight : Int) (payouts : List Payout) : Prop where
  amount : ∀ p ∈ payouts, p.since < p.height ∧ p.amount = size * (p.height - p.since)
  last : ∀ p ∈ payouts.head?, laneHeight = p.height
  disjoint : payouts.Pairwise fun later earlier => earlier.height ≤ later.since
  total : paidTotal payouts = size * (laneHeight - created)
  bound : paidTotal payouts ≤ size * (height - created)

theorem Covers.paidOnce {size created height laneHeight : Int} {payouts : List Payout}
    (h : Covers size created payouts laneHeight) (hsize : 0 ≤ size) (hle : laneHeight ≤ height) :
    PaidOnce size created height laneHeight payouts where
  amount p hp := (h.amount_eq p hp).2
  last := by
    cases h with
    | none => exact nofun
    | paid => simp
  disjoint := h.disjoint
  total := h.total
  bound := by
    rw [h.total]
    exact Int.mul_le_mul_of_nonneg_left (by omega) hsize

/-- Payouts that sum up to nothing are none. -/
theorem paidTotal_eq_zero {payouts : List Payout} (h : ∀ p ∈ payouts, 0 < p.amount) :
    paidTotal payouts = 0 ↔ payouts = [] := by
  constructor
  · intro htotal
    cases payouts with
    | nil => rfl
    | cons p payouts =>
      have hfirst := h p List.mem_cons_self
      have hrest : 0 ≤ paidTotal payouts :=
        List.sum_nonneg fun n hn => by
          obtain ⟨q, hq, rfl⟩ := List.mem_map.mp hn
          exact (h q (List.mem_cons_of_mem _ hq)).le
      have hcons : paidTotal (p :: payouts) = p.amount + paidTotal payouts := by simp [paidTotal]
      omega
  · rintro rfl
    rfl

end Runs

section Samples

theorem readsRecords_bareNode : bareNode.ReadsRecords := by
  intro record record' hash _ h
  have hnil : StorageRecord.fromExpr bareNode (some .nil) = .ok none := rfl
  have hsymbol : ∀ s, StorageRecord.fromExpr bareNode (some (.symbol s)) = .ok none := fun s => rfl
  rw [getExpr] at h
  split at h
  · cases hnil.symm.trans h
  · have hnone : StorageRecord.fromExpr bareNode none = .ok none := rfl
    change StorageRecord.fromExpr bareNode ((builtinTypeOfHash id hash).map .symbol) = _ at h
    generalize builtinTypeOfHash id hash = found at h
    rcases found with _ | s
    · cases hnone.symm.trans h
    · cases (hsymbol s).symm.trans h

def digestNode : Node := { bareNode with blake3 := sampleDigest }

/-- The record of a block with one slot, which holds the byte 5. -/
def slotRecord : StorageRecord :=
  initialStorageRecord firstHeader 10 1 (sampleDigest (0 :: digestNode.hash (.bytes [5])))

def slotRecordId : Bytes := List.replicate 32 8

/-- The slot, its proof, a nonce and a lane. -/
def slotClaim : Expr :=
  link (.bytes slotRecordId) <| link (.bytes [2, 5]) <| link .nil <| link (int_ 0) <|
    link (int_ 0) .nil

/-- A program that makes a storage payment with the claim. -/
def claimingProgram : Expr :=
  link (int_ TransactionCode.storagePayment.value) <| link (.bytes storageAddress) <|
    link (int_ 0) <| link (link (.symbol "'") (link (link slotClaim .nil) .nil)) (.symbol "tx.new")

def claimingNode : Node :=
  { digestNode with
    stored := fun h => if h = digestNode.hash slotRecord.expr then some slotRecord.expr
      else if h = digestNode.hash claimingProgram then some claimingProgram else none }

def contractAddress : Bytes := List.replicate 32 4

def claimingBlock : Block :=
  blockOf [(aliceAddress, createAccount 10000 zero32),
    (contractAddress, { createAccount 0 zero32 with codeHash := digestNode.hash claimingProgram }),
    (storageAddress, { createAccount 0 zero32 with
      data := Dict.empty.insert slotRecordId (.expr slotRecord.expr) })]

end Samples

end Astreum
