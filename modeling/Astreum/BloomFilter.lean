import Astreum.Python
import Mathlib.Algebra.Order.Ring.Nat
import Mathlib.Data.Nat.Bitwise
import Mathlib.Data.List.Count
import Mathlib.Data.List.Nodup
import Mathlib.Tactic.Ring

namespace Astreum.Bloom

section Bits

/-- `tier[pos // 8] >> (pos % 8) & 1`. -/
def bitAt (tier : Bytes) (pos : Nat) : Bool := (tier.getD (pos / 8) 0).toNat.testBit (pos % 8)

/-- `tier[pos // 8] |= 1 << (pos % 8)`. -/
def setBit (tier : Bytes) (pos : Nat) : Bytes :=
  tier.set (pos / 8) (UInt8.ofNat ((tier.getD (pos / 8) 0).toNat ||| 2 ^ (pos % 8)))

/-- How many bits of a tier are set. -/
def load (tier : Bytes) : Nat := (List.range (8 * tier.length)).countP (bitAt tier)

theorem length_setBit (tier : Bytes) (pos : Nat) : (setBit tier pos).length = tier.length := by
  simp [setBit]

theorem bitAt_setBit {tier : Bytes} {pos other : Nat} (hpos : pos < 8 * tier.length) :
    bitAt (setBit tier pos) other = (bitAt tier other || decide (other = pos)) := by
  have hbyte : pos / 8 < tier.length := by omega
  by_cases hsame : other / 8 = pos / 8
  · have hlt : (tier.getD (pos / 8) 0).toNat ||| 2 ^ (pos % 8) < 2 ^ 8 := by
      apply Nat.or_lt_two_pow
      · exact (tier.getD (pos / 8) 0).toNat_lt
      · exact Nat.pow_lt_pow_right (by decide) (Nat.mod_lt _ (by decide))
    have hnat : (UInt8.ofNat ((tier.getD (pos / 8) 0).toNat ||| 2 ^ (pos % 8))).toNat =
        (tier.getD (pos / 8) 0).toNat ||| 2 ^ (pos % 8) := by
      rw [UInt8.toNat_ofNat']
      exact Nat.mod_eq_of_lt hlt
    have hget : (setBit tier pos).getD (pos / 8) 0 =
        UInt8.ofNat ((tier.getD (pos / 8) 0).toNat ||| 2 ^ (pos % 8)) := by
      simp [setBit, List.getD_eq_getElem?_getD, List.getElem?_set_self hbyte]
    have hbit : decide (other = pos) = decide (pos % 8 = other % 8) := by
      apply decide_eq_decide.mpr
      omega
    rw [bitAt, bitAt, hsame, hget, hnat, Nat.testBit_or, Nat.testBit_two_pow, hbit]
  · have hget : (setBit tier pos).getD (other / 8) 0 = tier.getD (other / 8) 0 := by
      simp [setBit, List.getD_eq_getElem?_getD, List.getElem?_set_ne (Ne.symm hsame)]
    have hne : other ≠ pos := fun h => hsame (by rw [h])
    rw [bitAt, bitAt, hget]
    simp [hne]

theorem load_setBit_le {tier : Bytes} {pos : Nat} (hpos : pos < 8 * tier.length) :
    load (setBit tier pos) ≤ load tier + 1 := by
  have hor : ∀ l : List Nat, l.Nodup →
      l.countP (fun other => bitAt tier other || decide (other = pos)) ≤
        l.countP (bitAt tier) + 1 := by
    intro l hl
    have hsum : ∀ l : List Nat,
        l.countP (fun other => bitAt tier other || decide (other = pos)) ≤
          l.countP (bitAt tier) + l.count pos := by
      intro l
      induction l with
      | nil => simp
      | cons a l ih =>
        simp only [List.countP_cons, List.count_cons]
        by_cases ha : a = pos
        · simp [ha]
          omega
        · simp [ha]
          omega
    have hone : l.count pos ≤ 1 := List.nodup_iff_count_le_one.mp hl pos
    have := hsum l
    omega
  have hfun : bitAt (setBit tier pos) = fun other => bitAt tier other || decide (other = pos) := by
    funext other
    exact bitAt_setBit hpos
  rw [load, length_setBit, hfun]
  exact hor _ List.nodup_range

/-- Setting bits of a tier keeps the bits that are set, sets these and no more. -/
theorem setBits {positions : List Nat} {tier : Bytes}
    (h : ∀ pos ∈ positions, pos < 8 * tier.length) :
    (positions.foldl setBit tier).length = tier.length ∧
      (∀ other, bitAt tier other = true → bitAt (positions.foldl setBit tier) other = true) ∧
      (∀ pos ∈ positions, bitAt (positions.foldl setBit tier) pos = true) ∧
      load (positions.foldl setBit tier) ≤ load tier + positions.length := by
  induction positions generalizing tier with
  | nil => simp
  | cons pos positions ih =>
    obtain ⟨hpos, hrest⟩ := List.forall_mem_cons.mp h
    obtain ⟨hlength, hkept, hset, hload⟩ :=
      @ih (setBit tier pos) (by simpa [length_setBit] using hrest)
    rw [length_setBit] at hlength
    have hmore := load_setBit_le hpos
    refine ⟨hlength, fun other hother => ?_, List.forall_mem_cons.mpr ⟨?_, hset⟩, ?_⟩
    · apply hkept
      rw [bitAt_setBit hpos, hother]
      rfl
    · apply hkept
      rw [bitAt_setBit hpos]
      simp
    · rw [List.foldl_cons, List.length_cons]
      omega

end Bits

section Filter

/-- `BloomFilter`. -/
structure Filter where
  count : Int := 0
  tiers : List Bytes := []
  startHash : Option Bytes := none
  deriving DecidableEq

/-- The positions for an element in a tier, `K`. -/
def hashPositions : Nat := 11

/-- `_bloom_positions`. -/
def bloomPositions (digest : Bytes) (bits : Nat) : Py (List Nat) :=
  if bits = 0 then .error .zeroDivisionError
  else .ok ((List.range hashPositions).map fun i =>
    Python.fromBytesBig ((digest.drop (8 * i)).take 8) % bits)

/-- The first loop of `_ensure_tier` from a tier on, with the elements that fit the tiers before. -/
def tierFrom (count : Int) : Nat → Int → Nat → Nat
  | 0, _, tierIdx => tierIdx
  | fuel + 1, cum, tierIdx =>
    if cum + 2 ^ tierIdx ≤ count then tierFrom count fuel (cum + 2 ^ tierIdx) (tierIdx + 1)
    else tierIdx

/-- The tier that takes the next element. -/
def tierIndex (count : Int) : Nat := tierFrom count (count.toNat + 1) 0 0

/-- A new tier, with sixteen bits for each element that it takes. -/
def newTier (tierIdx : Nat) : Bytes := List.replicate ((2 ^ tierIdx * 16 + 7) / 8) 0

/-- `_ensure_tier`, as the tiers it leaves. -/
def ensureTier (tiers : List Bytes) (tierIdx : Nat) : List Bytes :=
  tiers ++ (List.range' tiers.length (tierIdx + 1 - tiers.length)).map newTier

variable (digest : Bytes → Bytes)

/-- `bloom_insert`, with `bloom_digest` as a parameter. -/
def bloomInsert (bf : Filter) (element : Bytes) : Py Filter := do
  let tierIdx := tierIndex bf.count
  let tiers := ensureTier bf.tiers tierIdx
  let tier := tiers.getD tierIdx []
  let positions ← bloomPositions (digest element) (tier.length * 8)
  return { bf with
    tiers := tiers.set tierIdx (positions.foldl setBit tier)
    count := bf.count + 1 }

def testTiers (digested : Bytes) : List Bytes → Py Bool
  | [] => .ok false
  | tier :: tiers => do
    let positions ← bloomPositions digested (tier.length * 8)
    if positions.all (bitAt tier) then return true
    else testTiers digested tiers

/-- `bloom_test`. -/
def bloomTest (bf : Filter) (element : Bytes) : Py Bool := testTiers (digest element) bf.tiers

end Filter

section Tiers

theorem tierFrom_eq {count : Nat} {fuel idx : Nat} (hidx : 2 ^ idx ≤ count + 1)
    (hfuel : (count + 1).log2 < idx + fuel) :
    tierFrom count fuel ((2 : Int) ^ idx - 1) idx = (count + 1).log2 := by
  have hne : count + 1 ≠ 0 := Nat.succ_ne_zero count
  induction fuel generalizing idx with
  | zero =>
    have := (Nat.le_log2 hne).mpr hidx
    omega
  | succ fuel ih =>
    rw [tierFrom]
    have hcast : ((2 : Int) ^ idx) = ((2 ^ idx : Nat) : Int) := by push_cast; rfl
    have hnext : (2 : Int) ^ idx - 1 + 2 ^ idx = 2 ^ (idx + 1) - 1 := by ring
    have hcast' : ((2 : Int) ^ (idx + 1)) = ((2 ^ (idx + 1) : Nat) : Int) := by push_cast; rfl
    rw [hnext]
    by_cases hmore : 2 ^ (idx + 1) ≤ count + 1
    · rw [if_pos (by rw [hcast']; omega)]
      exact ih hmore (by omega)
    · rw [if_neg (by rw [hcast']; omega)]
      have hge := (Nat.le_log2 hne).mpr hidx
      have hlt := (Nat.log2_lt hne).mpr (Nat.not_le.mp hmore)
      omega

/-- Tier `i` takes `2 ^ i` elements, after those of the tiers before. -/
theorem tierIndex_eq (count : Nat) : tierIndex count = (count + 1).log2 := by
  have h := @tierFrom_eq count (count + 1) 0 (by omega)
    (by
      rw [Nat.zero_add]
      exact (Nat.log2_lt (Nat.succ_ne_zero count)).mpr Nat.lt_two_pow_self)
  simpa [tierIndex] using h

theorem length_newTier (tierIdx : Nat) : (newTier tierIdx).length = 2 * 2 ^ tierIdx := by
  rw [newTier, List.length_replicate]
  omega

theorem load_newTier (tierIdx : Nat) : load (newTier tierIdx) = 0 := by
  rw [load, List.countP_eq_zero]
  intro pos _
  have hzero : (newTier tierIdx).getD (pos / 8) 0 = 0 := by
    rw [newTier, List.getD_eq_getElem?_getD, List.getElem?_replicate]
    split <;> rfl
  rw [bitAt, hzero]
  simp

theorem bloomPositions_spec {digest : Bytes} {bits : Nat} (hbits : 0 < bits) :
    ∃ positions, bloomPositions digest bits = .ok positions ∧ positions.length = hashPositions ∧
      ∀ pos ∈ positions, pos < bits := by
  refine ⟨_, if_neg (Nat.ne_of_gt hbits), by simp, fun pos hpos => ?_⟩
  obtain ⟨i, -, rfl⟩ := List.mem_map.mp hpos
  exact Nat.mod_lt _ hbits

end Tiers

section Inserting

variable {digest : Bytes → Bytes} {elements : List Bytes} {bf : Filter}

/-- An element has all its bits in a tier. -/
def Marks (digest : Bytes → Bytes) (element tier : Bytes) : Prop :=
  ∃ positions, bloomPositions (digest element) (tier.length * 8) = .ok positions ∧
    ∀ pos ∈ positions, bitAt tier pos = true

/-- What holds of a filter after some elements were inserted: the tiers that these need and no more,
each with sixteen bits for an element that it takes, at most eleven of them set for each element
that it took, and every element in its tier. -/
structure Holding (digest : Bytes → Bytes) (elements : List Bytes) (bf : Filter) : Prop where
  count : bf.count = elements.length
  tiers : bf.tiers.length = Python.bitLength elements.length
  sized : ∀ i tier, bf.tiers[i]? = some tier → tier.length = 2 * 2 ^ i
  loaded : ∀ i tier, bf.tiers[i]? = some tier →
    load tier + 11 * 2 ^ i ≤ 11 * (min (elements.length + 1) (2 * 2 ^ i))
  marked : ∀ element ∈ elements, ∃ tier ∈ bf.tiers, Marks digest element tier

theorem bitLength_succ (n : Nat) : Python.bitLength ((n + 1 : Nat) : Int) = (n + 1).log2 + 1 := by
  rw [Python.bitLength, if_neg (by exact_mod_cast Nat.succ_ne_zero n), Int.natAbs_natCast]

theorem holding_empty (digest : Bytes → Bytes) : Holding digest [] {} := by
  constructor
  · rfl
  · rfl
  · intro i tier h
    simp at h
  · intro i tier h
    simp at h
  · intro element h
    cases h

/-- The tiers that are there already reach to the active one, or end just before it. -/
theorem tiers_reach (n : Nat) :
    Python.bitLength n = (n + 1).log2 ∧ n + 1 = 2 ^ (n + 1).log2 ∨
      Python.bitLength n = (n + 1).log2 + 1 := by
  cases n with
  | zero => exact .inl ⟨rfl, rfl⟩
  | succ n =>
    have hlow : 2 ^ (n + 1).log2 ≤ n + 1 := Nat.log2_self_le (Nat.succ_ne_zero n)
    have hhigh : n + 1 < 2 ^ ((n + 1).log2 + 1) := Nat.lt_log2_self
    rw [bitLength_succ]
    by_cases hnext : n + 1 + 1 = 2 ^ ((n + 1).log2 + 1)
    · left
      have hlog : (n + 1 + 1).log2 = (n + 1).log2 + 1 := by
        rw [hnext]
        exact Nat.log2_two_pow
      rw [hlog]
      exact ⟨rfl, hnext⟩
    · right
      have hne : n + 1 + 1 ≠ 0 := Nat.succ_ne_zero _
      have hge : (n + 1).log2 ≤ (n + 1 + 1).log2 := (Nat.le_log2 hne).mpr (by omega)
      have hlt : (n + 1 + 1).log2 < (n + 1).log2 + 1 := (Nat.log2_lt hne).mpr (by omega)
      omega

/-- What holds of the tiers once the active one is there. -/
structure Ready (digest : Bytes → Bytes) (elements tiers : List Bytes) : Prop where
  count : tiers.length = (elements.length + 1).log2 + 1
  sized : ∀ i tier, tiers[i]? = some tier → tier.length = 2 * 2 ^ i
  loaded : ∀ i tier, tiers[i]? = some tier →
    load tier + 11 * 2 ^ i ≤ 11 * (min (elements.length + 1) (2 * 2 ^ i))
  marked : ∀ element ∈ elements, ∃ tier ∈ tiers, Marks digest element tier

theorem ready_ensureTier (h : Holding digest elements bf) :
    Ready digest elements (ensureTier bf.tiers (tierIndex bf.count)) := by
  rw [h.count, tierIndex_eq]
  cases tiers_reach elements.length with
  | inr hreach =>
    have hsame : ensureTier bf.tiers (elements.length + 1).log2 = bf.tiers := by
      rw [ensureTier, h.tiers, hreach, Nat.sub_self]
      simp
    rw [hsame]
    exact ⟨h.tiers.trans hreach, h.sized, h.loaded, h.marked⟩
  | inl hreach =>
    obtain ⟨hlength, hpow⟩ := hreach
    have htiers := h.tiers
    rw [hlength] at htiers
    have hnew : ensureTier bf.tiers (elements.length + 1).log2 =
        bf.tiers ++ [newTier (elements.length + 1).log2] := by
      rw [ensureTier, htiers, Nat.add_sub_cancel_left]
      rfl
    rw [hnew]
    have hcases : ∀ i tier, (bf.tiers ++ [newTier (elements.length + 1).log2])[i]? = some tier →
        bf.tiers[i]? = some tier ∨ i = (elements.length + 1).log2 ∧ tier = newTier i := by
      intro i tier htier
      by_cases hi : i < bf.tiers.length
      · rw [List.getElem?_append_left hi] at htier
        exact .inl htier
      · rw [List.getElem?_append_right (Nat.not_lt.mp hi), htiers] at htier
        have hzero : i - (elements.length + 1).log2 = 0 := by
          by_contra hne
          obtain ⟨k, hk⟩ := Nat.exists_eq_succ_of_ne_zero hne
          rw [hk] at htier
          simp at htier
        rw [hzero] at htier
        have hi' : i = (elements.length + 1).log2 := by omega
        refine .inr ⟨hi', ?_⟩
        rw [hi']
        simpa using htier.symm
    constructor
    · rw [List.length_append, htiers]
      rfl
    · intro i tier htier
      cases hcases i tier htier with
      | inl hold => exact h.sized i tier hold
      | inr hlast =>
        rw [hlast.2]
        exact length_newTier i
    · intro i tier htier
      cases hcases i tier htier with
      | inl hold => exact h.loaded i tier hold
      | inr hlast =>
        rw [hlast.2, load_newTier, hlast.1, ← hpow]
        omega
    · intro element helement
      obtain ⟨tier, htier, hmarks⟩ := h.marked element helement
      exact ⟨tier, List.mem_append_left _ htier, hmarks⟩

/-- A tier that gets more bits keeps the elements that it marks. -/
theorem Marks.mono {element tier tier' : Bytes} (h : Marks digest element tier)
    (hlength : tier'.length = tier.length)
    (hbits : ∀ pos, bitAt tier pos = true → bitAt tier' pos = true) :
    Marks digest element tier' := by
  obtain ⟨positions, hpositions, hset⟩ := h
  refine ⟨positions, ?_, fun pos hpos => hbits pos (hset pos hpos)⟩
  rw [hlength]
  exact hpositions

/-- An insert never raises on such a filter, and keeps it one. -/
theorem holding_insert (h : Holding digest elements bf) (element : Bytes) :
    ∃ bf', bloomInsert digest bf element = .ok bf' ∧
      Holding digest (elements ++ [element]) bf' := by
  have hready := ready_ensureTier h
  have hindex : tierIndex bf.count = (elements.length + 1).log2 := by
    rw [h.count, tierIndex_eq]
  generalize htiers : ensureTier bf.tiers (tierIndex bf.count) = tiers at hready
  generalize hidx : (elements.length + 1).log2 = idx at hready hindex
  rw [hindex] at htiers
  have hlt : idx < tiers.length := by
    rw [hready.count, hidx]
    exact Nat.lt_succ_self idx
  have hactive : tiers[idx]? = some tiers[idx] := List.getElem?_eq_getElem hlt
  have hsize := hready.sized idx _ hactive
  have hbits : 0 < tiers[idx].length * 8 := by
    rw [hsize]
    exact Nat.mul_pos (Nat.mul_pos Nat.two_pos (Nat.two_pow_pos idx)) (by decide)
  obtain ⟨positions, hpositions, hcount, hbelow⟩ := @bloomPositions_spec (digest element) _ hbits
  obtain ⟨hlength, hkept, hset, hload⟩ := @setBits positions tiers[idx] fun pos hpos => by
    have := hbelow pos hpos
    omega
  refine ⟨{ bf with
    tiers := tiers.set idx (positions.foldl setBit tiers[idx])
    count := bf.count + 1 }, ?_, ?_⟩
  · simp only [bloomInsert, hindex, htiers, List.getD_eq_getElem?_getD, hactive, Option.getD_some,
      hpositions]
    rfl
  have hpow := Nat.log2_self_le (Nat.succ_ne_zero elements.length)
  have hnext : elements.length + 1 < 2 ^ (idx + 1) := by
    rw [← hidx]
    exact Nat.lt_log2_self
  have hnext' : elements.length + 1 < 2 * 2 ^ idx := by
    rw [Nat.pow_succ] at hnext
    omega
  have hcases : ∀ i tier, (tiers.set idx (positions.foldl setBit tiers[idx]))[i]? = some tier →
      i = idx ∧ tier = positions.foldl setBit tiers[idx] ∨ i ≠ idx ∧ tiers[i]? = some tier := by
    intro i tier htier
    by_cases hi : i = idx
    · subst hi
      rw [List.getElem?_set_self hlt] at htier
      exact .inl ⟨rfl, (Option.some.inj htier).symm⟩
    · rw [List.getElem?_set_ne (Ne.symm hi)] at htier
      exact .inr ⟨hi, htier⟩
  constructor
  · change bf.count + 1 = _
    rw [h.count, List.length_append]
    rfl
  · rw [List.length_set, hready.count, List.length_append, List.length_singleton, bitLength_succ]
  · intro i tier htier
    cases hcases i tier htier with
    | inl hhere => rw [hhere.1, hhere.2, hlength, hsize]
    | inr hthere => exact hready.sized i tier hthere.2
  · intro i tier htier
    rw [List.length_append, List.length_singleton]
    cases hcases i tier htier with
    | inl hhere =>
      have hold := hready.loaded idx _ hactive
      rw [hhere.1, hhere.2]
      simp only [hashPositions] at hcount
      omega
    | inr hthere =>
      have hold := hready.loaded i tier hthere.2
      omega
  · intro other hother
    rw [List.mem_append, List.mem_singleton] at hother
    have hnew : positions.foldl setBit tiers[idx] ∈
        tiers.set idx (positions.foldl setBit tiers[idx]) :=
      List.mem_iff_getElem?.mpr ⟨idx, List.getElem?_set_self hlt⟩
    cases hother with
    | inr hsame =>
      refine ⟨_, hnew, positions, ?_, hset⟩
      rw [hsame, hlength]
      exact hpositions
    | inl hbefore =>
      obtain ⟨tier, htier, hmarks⟩ := hready.marked other hbefore
      obtain ⟨i, hi⟩ := List.mem_iff_getElem?.mp htier
      by_cases hsame : i = idx
      · subst hsame
        rw [hactive] at hi
        obtain rfl := Option.some.inj hi
        exact ⟨_, hnew, hmarks.mono hlength hkept⟩
      · refine ⟨tier, List.mem_iff_getElem?.mpr ⟨i, ?_⟩, hmarks⟩
        rw [List.getElem?_set_ne (Ne.symm hsame)]
        exact hi

/-- Some elements one after another. -/
theorem holding_inserts (h : Holding digest elements bf) (more : List Bytes) :
    ∃ bf', more.foldlM (bloomInsert digest) bf = .ok bf' ∧
      Holding digest (elements ++ more) bf' := by
  induction more generalizing elements bf with
  | nil =>
    refine ⟨bf, rfl, ?_⟩
    rwa [List.append_nil]
  | cons element more ih =>
    obtain ⟨bf₁, hinsert, h₁⟩ := holding_insert h element
    obtain ⟨bf₂, hmore, h₂⟩ := ih h₁
    refine ⟨bf₂, ?_, by simpa using h₂⟩
    rw [List.foldlM_cons, hinsert]
    exact hmore

theorem startHash_inserts {bf' : Filter} {more : List Bytes}
    (h : more.foldlM (bloomInsert digest) bf = .ok bf') : bf'.startHash = bf.startHash := by
  induction more generalizing bf with
  | nil =>
    cases h
    rfl
  | cons element more ih =>
    rw [List.foldlM_cons] at h
    cases hinsert : bloomInsert digest bf element with
    | error e =>
      rw [hinsert] at h
      cases h
    | ok next =>
      rw [hinsert] at h
      rw [ih h]
      simp only [bloomInsert] at hinsert
      generalize (ensureTier bf.tiers (tierIndex bf.count)).getD (tierIndex bf.count) [] = tier
        at hinsert
      cases hpositions : bloomPositions (digest element) (tier.length * 8) with
      | error e =>
        rw [hpositions] at hinsert
        cases hinsert
      | ok positions =>
        rw [hpositions] at hinsert
        cases hinsert
        rfl

/-- A tier that marks an element makes the test say so, whatever the tiers before it say. -/
theorem testTiers_of_marks {element : Bytes} {tiers : List Bytes}
    (hsized : ∀ tier ∈ tiers, tier ≠ []) (h : ∃ tier ∈ tiers, Marks digest element tier) :
    testTiers (digest element) tiers = .ok true := by
  induction tiers with
  | nil =>
    obtain ⟨tier, htier, -⟩ := h
    cases htier
  | cons first tiers ih =>
    obtain ⟨hfirst, hrest⟩ := List.forall_mem_cons.mp hsized
    have hbits : 0 < first.length * 8 := Nat.mul_pos (List.length_pos_iff.mpr hfirst) (by decide)
    obtain ⟨positions, hpositions, -, -⟩ := @bloomPositions_spec (digest element) _ hbits
    rw [testTiers, hpositions]
    change (if positions.all (bitAt first) = true then _ else _) = _
    by_cases hall : positions.all (bitAt first) = true
    · rw [if_pos hall]
      rfl
    · rw [if_neg hall]
      refine ih hrest ?_
      obtain ⟨tier, htier, hmarks⟩ := h
      cases List.mem_cons.mp htier with
      | inr htail => exact ⟨tier, htail, hmarks⟩
      | inl hhead =>
        subst hhead
        obtain ⟨positions', hpositions', hset⟩ := hmarks
        rw [hpositions] at hpositions'
        cases hpositions'
        exact absurd (List.all_eq_true.mpr hset) hall

theorem testTiers_total {tiers : List Bytes} (hsized : ∀ tier ∈ tiers, tier ≠ [])
    (element : Bytes) :
    ∃ found, testTiers (digest element) tiers = .ok found := by
  induction tiers with
  | nil => exact ⟨false, rfl⟩
  | cons first tiers ih =>
    obtain ⟨hfirst, hrest⟩ := List.forall_mem_cons.mp hsized
    have hbits : 0 < first.length * 8 := Nat.mul_pos (List.length_pos_iff.mpr hfirst) (by decide)
    obtain ⟨positions, hpositions, -, -⟩ := @bloomPositions_spec (digest element) _ hbits
    rw [testTiers, hpositions]
    change ∃ found, (if positions.all (bitAt first) = true then _ else _) = _
    by_cases hall : positions.all (bitAt first) = true
    · rw [if_pos hall]
      exact ⟨true, rfl⟩
    · rw [if_neg hall]
      exact ih hrest

/-- The tiers of such a filter have bits. -/
theorem Holding.tier_ne_nil (h : Holding digest elements bf) : ∀ tier ∈ bf.tiers, tier ≠ [] := by
  intro tier htier
  obtain ⟨i, hi⟩ := List.mem_iff_getElem?.mp htier
  have hsize := h.sized i tier hi
  have hpos : 0 < 2 ^ i := Nat.two_pow_pos i
  rintro rfl
  rw [List.length_nil] at hsize
  omega

theorem bloomTest_total (h : Holding digest elements bf) (element : Bytes) :
    ∃ found, bloomTest digest bf element = .ok found :=
  testTiers_total h.tier_ne_nil element

theorem bloomTest_of_holding (h : Holding digest elements bf) {element : Bytes}
    (helement : element ∈ elements) : bloomTest digest bf element = .ok true :=
  testTiers_of_marks h.tier_ne_nil (h.marked element helement)

/-- Any elements can be inserted one after another into an empty filter. It finds each of them, has
as many tiers as their number has bits, and of the sixteen bits that a tier has for each element it
takes no more than eleven are ever set. -/
theorem inserted_elements_are_found (digest : Bytes → Bytes) (elements : List Bytes) :
    ∃ bf, elements.foldlM (bloomInsert digest) {} = .ok bf ∧ bf.count = elements.length ∧
      bf.tiers.length = Python.bitLength elements.length ∧
      (∀ i tier, bf.tiers[i]? = some tier → 8 * tier.length = 16 * 2 ^ i ∧
        load tier ≤ 11 * 2 ^ i ∧ load tier ≤ 11 * (elements.length + 1 - 2 ^ i)) ∧
      ∀ element ∈ elements, bloomTest digest bf element = .ok true := by
  obtain ⟨bf, hbf, h⟩ := holding_inserts (holding_empty digest) elements
  rw [List.nil_append] at h
  refine ⟨bf, hbf, h.count, h.tiers, fun i tier htier => ?_, fun element => bloomTest_of_holding h⟩
  have hsize := h.sized i tier htier
  have hloaded := h.loaded i tier htier
  omega

end Inserting

end Astreum.Bloom
