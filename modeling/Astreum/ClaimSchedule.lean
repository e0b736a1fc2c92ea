import Astreum.StorageContract
import Astreum.StoragePayments
import Astreum.Cells
import Astreum.HashTree

namespace Astreum

section Planning

def holderDue (laneHeight : Int) (fairInterval : Option Int) (inclusionDelay : Int) : Int :=
  match fairInterval with
  | none => laneHeight
  | some fair => laneHeight + fair - inclusionDelay

def takeoverDue (laneHeight storageDifficulty delta affordable : Int) : Int :=
  laneHeight + 2 ^ (max 0 (storageDifficulty - delta - affordable)).toNat

structure LaneChoice where
  lane : Nat
  bits : Int
  deriving DecidableEq

/-- What `plan_record` is called with, but for the record and the height of the head. -/
structure ClaimTerms where
  me : Bytes
  storageId : Bytes
  storageDifficulty : Int
  fairInterval : Option Int
  inclusionDelay : Int
  affordable : Int
  minElapsed : Int

namespace ClaimTerms

variable (t : ClaimTerms)

def bits (headHeight : Int) (lane : StorageLane) : Int :=
  requiredBits t.me lane.winner t.storageId (headHeight + 1 - lane.height) t.storageDifficulty

def heldDue (lane : StorageLane) : Int :=
  max (holderDue lane.height t.fairInterval t.inclusionDelay) (lane.height + t.minElapsed)

def laneDue (lane : StorageLane) : Int :=
  max (takeoverDue lane.height t.storageDifficulty
    (distanceDelta t.me lane.winner t.storageId) t.affordable) (lane.height + t.minElapsed)

end ClaimTerms

/-- The order of the keys `(bits, -elapsed, index)`. -/
def keyLt (k k' : Int × Int × Nat) : Bool :=
  decide (k.1 < k'.1 ∨ k.1 = k'.1 ∧ (k.2.1 < k'.2.1 ∨ k.2.1 = k'.2.1 ∧ k.2.2 < k'.2.2))

/-- The loop of `plan_record` over the lanes: the best key, and the least height due. -/
def planLanes (t : ClaimTerms) (headHeight : Int) :
    Nat → List StorageLane → Option (Int × Int × Nat) × Option Int →
      Option (Int × Int × Nat) × Option Int
  | _, [], found => found
  | index, lane :: lanes, (best, due) =>
    let key := (t.bits headHeight lane, -(headHeight + 1 - lane.height), index)
    let best := if t.bits headHeight lane ≤ t.affordable ∧
        t.minElapsed ≤ headHeight - lane.height then
      if best.all (keyLt key) then some key else best else best
    planLanes t headHeight (index + 1) lanes
      (best, some (due.elim (t.laneDue lane) fun due => min due (t.laneDue lane)))

def planRecord (t : ClaimTerms) (record : StorageRecord) (headHeight : Int) :
    Option LaneChoice × Option Int :=
  match record.lanes.zipIdx.find? (fun p => decide (p.1.winner = t.me)) with
  | some (lane, index) =>
    (if t.heldDue lane ≤ headHeight then some ⟨index, 0⟩ else none, some (t.heldDue lane))
  | none =>
    let (best, due) := planLanes t headHeight 0 record.lanes (none, none)
    (best.map fun key => ⟨key.2.2, key.1⟩, due)

theorem log2_max_one (elapsed : Int) :
    (Python.bitLength (max 1 elapsed) : Int) - 1 = Nat.log2 (max 1 elapsed).natAbs := by
  have hpos : max 1 elapsed ≠ 0 := by omega
  rw [Python.bitLength, if_neg hpos]
  omega

/-- A lane can be taken over once enough blocks have gone by. -/
theorem requiredBits_le_iff {sender winner storageId : Bytes} {elapsed difficulty affordable : Int}
    (hne : sender ≠ winner) (haffordable : 0 ≤ affordable) :
    requiredBits sender winner storageId elapsed difficulty ≤ affordable ↔
      2 ^ (max 0 (difficulty - distanceDelta sender winner storageId - affordable)).toNat ≤
        max 1 elapsed := by
  have hpos : (max 1 elapsed).natAbs ≠ 0 := by omega
  rw [requiredBits, if_neg hne, log2_max_one]
  set k := (max 0 (difficulty - distanceDelta sender winner storageId - affordable)).toNat with hk
  have hlog : k ≤ Nat.log2 (max 1 elapsed).natAbs ↔ 2 ^ k ≤ (max 1 elapsed).natAbs :=
    Nat.le_log2 hpos
  have hcast : ((2 ^ k : Nat) : Int) = 2 ^ k := by push_cast; rfl
  have hone : 1 ≤ max 1 elapsed := le_max_left _ _
  rw [← hcast]
  omega

theorem requiredBits_mono {sender winner storageId : Bytes} {elapsed elapsed' d d' : Int}
    (he : elapsed ≤ elapsed') (hd : d' ≤ d) :
    requiredBits sender winner storageId elapsed' d' ≤
      requiredBits sender winner storageId elapsed d := by
  by_cases hw : sender = winner
  · rw [requiredBits, if_pos hw, requiredBits, if_pos hw]
  · have hpos : (max 1 elapsed).natAbs ≠ 0 := by omega
    have hpos' : (max 1 elapsed').natAbs ≠ 0 := by omega
    have hle : (max 1 elapsed).natAbs ≤ (max 1 elapsed').natAbs := by omega
    have hlog : Nat.log2 (max 1 elapsed).natAbs ≤ Nat.log2 (max 1 elapsed').natAbs :=
      (Nat.le_log2 hpos').mpr ((Nat.log2_self_le hpos).trans hle)
    rw [requiredBits, if_neg hw, requiredBits, if_neg hw, log2_max_one, log2_max_one]
    omega

variable {t : ClaimTerms} {headHeight : Int}

/-- A lane that is not ready is due later. -/
theorem lt_laneDue {lane : StorageLane} (hne : t.me ≠ lane.winner) (haffordable : 0 ≤ t.affordable)
    (h : ¬(t.bits headHeight lane ≤ t.affordable ∧ t.minElapsed ≤ headHeight - lane.height)) :
    headHeight < t.laneDue lane := by
  rw [ClaimTerms.bits, requiredBits_le_iff hne haffordable] at h
  rw [ClaimTerms.laneDue, takeoverDue]
  omega

/-- A lane is ready when it is due. -/
theorem ready_of_laneDue_le {lane : StorageLane} (hne : t.me ≠ lane.winner)
    (haffordable : 0 ≤ t.affordable) (h : t.laneDue lane ≤ headHeight) :
    t.bits headHeight lane ≤ t.affordable ∧ t.minElapsed ≤ headHeight - lane.height := by
  rw [ClaimTerms.laneDue, takeoverDue] at h
  rw [ClaimTerms.bits, requiredBits_le_iff hne haffordable]
  omega

/-- The best key is that of a lane. -/
theorem planLanes_best {index : Nat} {lanes : List StorageLane}
    {found : Option (Int × Int × Nat) × Option Int} {key : Int × Int × Nat}
    (h : (planLanes t headHeight index lanes found).1 = some key) :
    found.1 = some key ∨ ∃ k lane, lanes[k]? = some lane ∧ key.2.2 = index + k ∧
      key.1 = t.bits headHeight lane := by
  induction lanes generalizing index found with
  | nil => exact .inl h
  | cons lane lanes ih =>
    obtain ⟨best, due⟩ := found
    rcases ih h with hbest | ⟨k, other, hother, hindex, hbits⟩
    · dsimp only at hbest
      split at hbest
      · split at hbest
        · obtain rfl := Option.some.inj hbest
          exact .inr ⟨0, lane, rfl, rfl, rfl⟩
        · exact .inl hbest
      · exact .inl hbest
    · refine .inr ⟨k + 1, other, ?_, by omega, hbits⟩
      rwa [List.getElem?_cons_succ]

/-- A lane that is ready gives a key. -/
theorem planLanes_eq_none {index : Nat} {lanes : List StorageLane}
    {found : Option (Int × Int × Nat) × Option Int}
    (h : (planLanes t headHeight index lanes found).1 = none) :
    found.1 = none ∧ ∀ lane ∈ lanes, ¬(t.bits headHeight lane ≤ t.affordable ∧
      t.minElapsed ≤ headHeight - lane.height) := by
  induction lanes generalizing index found with
  | nil => exact ⟨h, fun _ hl => absurd hl List.not_mem_nil⟩
  | cons lane lanes ih =>
    obtain ⟨best, due⟩ := found
    obtain ⟨hbest, hrest⟩ := ih h
    dsimp only at hbest
    by_cases hready : t.bits headHeight lane ≤ t.affordable ∧
        t.minElapsed ≤ headHeight - lane.height
    · rw [if_pos hready] at hbest
      split at hbest
      · cases hbest
      · rename_i hall
        rw [hbest] at hall
        exact absurd rfl hall
    · rw [if_neg hready] at hbest
      refine ⟨hbest, fun l hl => ?_⟩
      rcases List.mem_cons.mp hl with rfl | hl
      · exact hready
      · exact hrest l hl

/-- The height due is that of a lane. -/
theorem planLanes_due {index : Nat} {lanes : List StorageLane}
    {found : Option (Int × Int × Nat) × Option Int} (hsome : lanes ≠ [] ∨ found.2 ≠ none) :
    ∃ due, (planLanes t headHeight index lanes found).2 = some due ∧
      (found.2 = some due ∨ ∃ lane ∈ lanes, t.laneDue lane = due) := by
  induction lanes generalizing index found with
  | nil =>
    rcases hdue : found.2 with - | due
    · exact absurd hdue (hsome.resolve_left fun h => h rfl)
    · exact ⟨due, hdue, .inl rfl⟩
  | cons lane lanes ih =>
    obtain ⟨best, due⟩ := found
    obtain ⟨d, hd, hfrom⟩ := @ih (index + 1) (_, _) (.inr (Option.some_ne_none _))
    refine ⟨d, hd, ?_⟩
    rcases hfrom with hfrom | ⟨other, hother, hdue⟩
    · have hmin := Option.some.inj hfrom
      rcases due with - | due
      · exact .inr ⟨lane, List.mem_cons_self, hmin⟩
      · rcases min_choice due (t.laneDue lane) with h | h
        · exact .inl (congrArg some (h.symm.trans hmin))
        · exact .inr ⟨lane, List.mem_cons_self, h.symm.trans hmin⟩
    · exact .inr ⟨other, List.mem_cons_of_mem _ hother, hdue⟩

/-- The record is one that the chain holds: one lane to a provider, and no more slots than a proof
can reach. -/
structure StorageRecord.OnChain (record : StorageRecord) (headHeight : Int) : Prop where
  lanes : record.lanes.length = providersPerRecord
  winners : ∀ (i j : Nat) (lane lane' : StorageLane), record.lanes[i]? = some lane →
    record.lanes[j]? = some lane' → lane.winner = lane'.winner → lane.winner ≠ zero32 → i = j
  heights : ∀ lane ∈ record.lanes, lane.height ≤ headHeight
  newSize : 0 < record.newSize
  newCount : record.newCount ≤ 2 ^ maxProofLen

variable {record : StorageRecord}

/-- A planned lane can be claimed with the bits planned, and no other is held. -/
theorem planRecord_choice {choice : LaneChoice} (hchain : record.OnChain headHeight)
    (hme : t.me ≠ zero32) (h : (planRecord t record headHeight).1 = some choice) :
    ∃ lane, record.lanes[choice.lane]? = some lane ∧ t.bits headHeight lane ≤ choice.bits ∧
      ∀ (i : Nat) (other : StorageLane), record.lanes[i]? = some other → i ≠ choice.lane →
        other.winner ≠ t.me := by
  rw [planRecord] at h
  rcases hheld : record.lanes.zipIdx.find? (fun p => decide (p.1.winner = t.me)) with
    - | ⟨lane, index⟩
  · rw [hheld] at h
    obtain ⟨key, hkey, hchoice⟩ := Option.map_eq_some_iff.mp h
    have hother : ∀ (i : Nat) (other : StorageLane), record.lanes[i]? = some other →
        other.winner ≠ t.me := by
      intro i other hi hwinner
      have hmem : (other, i) ∈ record.lanes.zipIdx := List.mem_zipIdx_iff_getElem?.mpr hi
      have hnot := List.find?_eq_none.mp hheld _ hmem
      exact hnot (decide_eq_true hwinner)
    rcases planLanes_best hkey with hnone | ⟨k, lane, hlane, hindex, hbits⟩
    · cases hnone
    · rw [← hchoice]
      refine ⟨lane, ?_, hbits.ge, fun i other hi _ => hother i other hi⟩
      rw [hindex, Nat.zero_add]
      exact hlane
  · rw [hheld] at h
    dsimp only at h
    split at h
    · obtain rfl := Option.some.inj h
      have hlane : record.lanes[index]? = some lane :=
        List.mem_zipIdx_iff_getElem?.mp (List.mem_of_find?_eq_some hheld)
      have hwinner : lane.winner = t.me := by
        have hfound := List.find?_some hheld
        exact of_decide_eq_true hfound
      refine ⟨lane, hlane, ?_, fun i other hi hne hother => hne ?_⟩
      · rw [ClaimTerms.bits, requiredBits, if_pos hwinner.symm]
      · have hwinner' : other.winner = lane.winner := hother.trans hwinner.symm
        exact hchain.winners i index other lane hi hlane hwinner' (hother ▸ hme)
    · cases h

/-- A record without a lane to claim is due later, and then it has one. -/
theorem planRecord_due (hlanes : record.lanes ≠ []) (haffordable : 0 ≤ t.affordable)
    (h : (planRecord t record headHeight).1 = none) :
    ∃ due, (planRecord t record headHeight).2 = some due ∧ headHeight < due ∧
      ∃ choice, (planRecord t record due).1 = some choice := by
  simp only [planRecord] at h ⊢
  rcases hheld : record.lanes.zipIdx.find? (fun p => decide (p.1.winner = t.me)) with
    - | ⟨lane, index⟩
  · simp only [hheld, Option.map_eq_none_iff] at h ⊢
    have hne : ∀ lane ∈ record.lanes, t.me ≠ lane.winner := by
      intro lane hlane hwinner
      obtain ⟨i, hi⟩ := List.getElem?_of_mem hlane
      have hmem : (lane, i) ∈ record.lanes.zipIdx := List.mem_zipIdx_iff_getElem?.mpr hi
      exact List.find?_eq_none.mp hheld _ hmem (decide_eq_true hwinner.symm)
    obtain ⟨-, hnone⟩ := planLanes_eq_none h
    obtain ⟨due, hdue, hfrom⟩ := @planLanes_due t headHeight 0 _ (none, none) (.inl hlanes)
    rcases hfrom with hfrom | ⟨lane, hlane, rfl⟩
    · cases hfrom
    · refine ⟨_, hdue, lt_laneDue (hne lane hlane) haffordable (hnone lane hlane), ?_⟩
      rcases hbest : (planLanes t (t.laneDue lane) 0 record.lanes (none, none)).1 with - | key
      · have hready := ready_of_laneDue_le (hne lane hlane) haffordable le_rfl
        exact absurd hready ((planLanes_eq_none hbest).2 lane hlane)
      · exact ⟨_, rfl⟩
  · simp only [hheld] at h ⊢
    split at h
    · cases h
    · rename_i hlate
      exact ⟨_, rfl, not_le.mp hlate, ⟨index, 0⟩, if_pos le_rfl⟩

end Planning

end Astreum
