import Astreum.BloomEra

namespace Astreum

open Bloom

section Finding

variable (node : Node)

/-- `get_previous_block` of a block that is not linked to its parent. -/
def getPreviousBlock (block : DecodedBlock) : Option DecodedBlock :=
  if block.fields.previousBlockHash = [] ∨ block.fields.previousBlockHash = zero32 then none
  else (getBlockFromStorage node block.fields.previousBlockHash).toOption

/-- The loops of `find_block_by_height`: back from a block while some condition holds. -/
def backWhile (goes : DecodedBlock → Bool) :
    Nat → Option DecodedBlock → Py (Option DecodedBlock)
  | _, none => .ok none
  | 0, some block => if goes block then .error .outOfFuel else .ok (some block)
  | fuel + 1, some block =>
    if goes block then backWhile goes fuel (getPreviousBlock node block) else .ok (some block)

/-- `find_block_by_height` in the target era, from the highest block there. -/
def findInEra (fuel : Nat) (targetHeight : Int) (current : DecodedBlock) :
    Py (Option DecodedBlock) :=
  let back := backWhile node (fun block => targetHeight < block.fields.height) fuel (some current)
  if current.fields.height = targetHeight then .ok (some current)
  else if current.fields.height % 1024 < targetHeight % 1024 then .ok none
  else if current.fields.bloomHash = [] ∨ current.fields.bloomHash = zero32 then back
  else do
    let leafHash ← storageFindLeaf node current.fields.bloomHash (targetHeight % 1024).toNat
      (some current.exprId)
    match leafHash with
    | some leafHash => return some (← getBlockFromStorage node leafHash)
    | none => back

/-- `find_block_by_height`. -/
def findBlockByHeight (fuel : Nat) (startingBlock : Option DecodedBlock) (targetHeight : Int) :
    Py (Option DecodedBlock) :=
  match startingBlock with
  | none => .ok none
  | some starting =>
    if starting.fields.height < targetHeight then .ok none
    else do
      let current ← backWhile node
        (fun block => targetHeight / 1024 < block.fields.height / 1024) fuel (some starting)
      match current with
      | none => return none
      | some current =>
        if current.fields.height / 1024 ≠ targetHeight / 1024 then return none
        else findInEra node fuel targetHeight current

end Finding

/-- What the tree of a block holds: the blocks of its era up to it. -/
structure EraOf (digest : Bytes → Bytes) (node : Node) (chain : List DecodedBlock) (i : Nat)
    (root : Bytes) (era : List EraBlock) : Prop where
  run : ∃ written, EraRun digest node.blake3 era written root ∧
    Bloom.Reads node.blake3 written node
  length : era.length = i % 1024 + 1
  hash : ∀ (k : Nat) (entry : EraBlock), era[k]? = some entry →
    chain[i / 1024 * 1024 + k]?.map DecodedBlock.exprId = some entry.hash

/-- A chain from its first block on that a node holds, with the bloom trees that its blocks were
given by their eras. -/
structure IndexedChain (digest : Bytes → Bytes) (node : Node) (chain : List DecodedBlock) :
    Prop where
  height : ∀ (i : Nat) (block : DecodedBlock), chain[i]? = some block → block.fields.height = i
  stored : ∀ block ∈ chain, getBlockFromStorage node block.exprId = .ok block
  named : ∀ block ∈ chain, block.exprId.length = 32 ∧ block.exprId ≠ zero32
  first : ∀ block : DecodedBlock, chain[0]? = some block → block.fields.previousBlockHash = zero32
  linked : ∀ (i : Nat) (block next : DecodedBlock), chain[i]? = some block →
    chain[i + 1]? = some next → next.fields.previousBlockHash = block.exprId
  tree : ∀ (i : Nat) (block : DecodedBlock), chain[i]? = some block →
    ∃ era, EraOf digest node chain i block.fields.bloomHash era

section Chains

variable {digest : Bytes → Bytes} {node : Node} {chain : List DecodedBlock}
  {block target : DecodedBlock} {goes : DecodedBlock → Bool} {fuel i j : Nat}

theorem getPreviousBlock_chain (h : IndexedChain digest node chain)
    (hblock : chain[i + 1]? = some block) :
    getPreviousBlock node block = chain[i]? := by
  obtain ⟨hi, -⟩ := List.getElem?_eq_some_iff.mp hblock
  have hbefore : chain[i]? = some chain[i] := List.getElem?_eq_getElem (by omega)
  have hmem : chain[i] ∈ chain := List.getElem_mem _
  have hname := h.linked i _ _ hbefore hblock
  obtain ⟨hlength, hzero⟩ := h.named _ hmem
  have hne : ¬ (chain[i].exprId = [] ∨ chain[i].exprId = zero32) := by
    rintro (hnil | hz)
    · rw [hnil] at hlength
      cases hlength
    · exact hzero hz
  rw [getPreviousBlock, hname, if_neg hne, h.stored _ hmem, hbefore]
  rfl

/-- A walk back ends at the first block where it stops. -/
theorem backWhile_stops (h : IndexedChain digest node chain) (hblock : chain[i]? = some block)
    (htarget : chain[j]? = some target) (hji : j ≤ i) (hstop : goes target = false)
    (hgoes : ∀ k other, j < k → k ≤ i → chain[k]? = some other → goes other = true)
    (hfuel : i < fuel) : backWhile node goes fuel (some block) = .ok (some target) := by
  induction i generalizing block fuel with
  | zero =>
    have hzero : j = 0 := Nat.le_zero.mp hji
    rw [hzero, hblock] at htarget
    cases htarget
    cases fuel with
    | zero => exact absurd hfuel (Nat.lt_irrefl 0)
    | succ fuel => simp [backWhile, hstop]
  | succ i ih =>
    obtain ⟨fuel, rfl⟩ := Nat.exists_eq_succ_of_ne_zero (Nat.ne_of_gt (Nat.zero_lt_of_lt hfuel))
    by_cases hsame : j = i + 1
    · rw [hsame, hblock] at htarget
      cases htarget
      simp [backWhile, hstop]
    · have hgo := hgoes (i + 1) block (by omega) (Nat.le_refl _) hblock
      obtain ⟨hi, -⟩ := List.getElem?_eq_some_iff.mp hblock
      have hbefore : chain[i]? = some chain[i] := List.getElem?_eq_getElem (by omega)
      rw [backWhile, if_pos hgo, getPreviousBlock_chain h hblock, hbefore]
      exact ih hbefore (by omega) (fun k other hk hki => hgoes k other hk (by omega)) (by omega)

/-- A walk back that never stops goes past the first block. -/
theorem backWhile_none (h : IndexedChain digest node chain) (hblock : chain[i]? = some block)
    (hgoes : ∀ other ∈ chain, goes other = true) (hfuel : i < fuel) :
    backWhile node goes fuel (some block) = .ok none := by
  have hgo := hgoes block (List.mem_of_getElem? hblock)
  induction i generalizing block fuel with
  | zero =>
    obtain ⟨fuel, rfl⟩ := Nat.exists_eq_succ_of_ne_zero (Nat.ne_of_gt hfuel)
    rw [backWhile, if_pos hgo, getPreviousBlock, if_pos (.inr (h.first block hblock))]
    cases fuel <;> rfl
  | succ i ih =>
    obtain ⟨fuel, rfl⟩ := Nat.exists_eq_succ_of_ne_zero (Nat.ne_of_gt (Nat.zero_lt_of_lt hfuel))
    obtain ⟨hi, -⟩ := List.getElem?_eq_some_iff.mp hblock
    have hbefore : chain[i]? = some chain[i] := List.getElem?_eq_getElem (by omega)
    rw [backWhile, if_pos hgo, getPreviousBlock_chain h hblock, hbefore]
    exact ih hbefore (by omega) (hgoes _ (List.getElem_mem _))

/-- The bloom tree names the block of an offset of the era, or nothing. -/
theorem storageFindLeaf_chain (hdigest : ∀ x, (node.blake3 x).length = 32)
    (h : IndexedChain digest node chain) (hblock : chain[i]? = some block)
    (htarget : chain[j]? = some target) (hera : j / 1024 = i / 1024) (hlt : j < i)
    (hroot : block.fields.bloomHash ≠ zero32) :
    storageFindLeaf node block.fields.bloomHash (j % 1024) (some block.exprId) =
        .ok (some target.exprId) ∨
      storageFindLeaf node block.fields.bloomHash (j % 1024) (some block.exprId) = .ok none := by
  obtain ⟨era, ⟨written, hrun, hnode⟩, hlength, hhashes⟩ := h.tree i block hblock
  obtain ⟨⟨index, hstands, hcovers⟩, -, -⟩ := hrun.covers hdigest
  have hheld : ∀ b, some block.exprId = some b → b.length = 32 := by
    intro b hb
    cases hb
    exact (h.named block (List.mem_of_getElem? hblock)).1
  cases hstands with
  | inl hnone => exact absurd hnone.1 hroot
  | inr hsome =>
    have hfind := storageFindLeaf_denotes hnode hheld hsome (j % 1024)
    rw [hfind]
    cases Index.covers_startAt hcovers (Nat.zero_le (j % 1024))
        (by simpa using Nat.mod_lt j (by decide : 0 < 1024)) with
    | inr hnone => exact .inr (by rw [hnone.1])
    | inl hstart =>
      have hinside : j % 1024 + 1 < era.length := by omega
      have hentry : era[j % 1024]? = some era[j % 1024] := List.getElem?_eq_getElem (by omega)
      have hplace : i / 1024 * 1024 + j % 1024 = j := by omega
      have hhash := hhashes _ _ hentry
      rw [hplace, htarget] at hhash
      left
      rw [hstart, startsOf, if_pos hinside, hentry, Option.map_some]
      exact congrArg Except.ok hhash.symm

/-- The search by the bloom tree of an era finds the same block as the walk back. -/
theorem findInEra_chain (hdigest : ∀ x, (node.blake3 x).length = 32)
    (h : IndexedChain digest node chain) (hblock : chain[i]? = some block)
    (htarget : chain[j]? = some target) (hera : j / 1024 = i / 1024) (hji : j ≤ i)
    (hfuel : i < fuel) : findInEra node fuel j block = .ok (some target) := by
  have hheight := h.height i block hblock
  have hback : backWhile node (fun other => decide ((j : Int) < other.fields.height)) fuel
      (some block) = .ok (some target) := by
    refine backWhile_stops h hblock htarget hji ?_ (fun k other hk _ hother => ?_) hfuel
    · simp [h.height j target htarget]
    · rw [h.height k other hother]
      simpa using hk
  rw [findInEra, hheight]
  by_cases hsame : j = i
  · rw [hsame, hblock] at htarget
    cases htarget
    rw [hsame, if_pos rfl]
  · have hne : ¬ ((i : Int) = j) := by omega
    have hmod : ¬ ((i : Int) % 1024 < (j : Int) % 1024) := by omega
    rw [if_neg hne, if_neg hmod]
    by_cases hroot : block.fields.bloomHash = [] ∨ block.fields.bloomHash = zero32
    · rw [if_pos hroot]
      exact hback
    · rw [if_neg hroot]
      have hnat : ((j : Int) % 1024).toNat = j % 1024 := by omega
      have hstored := h.stored target (List.mem_of_getElem? htarget)
      rw [hnat]
      cases storageFindLeaf_chain hdigest h hblock htarget hera (by omega)
          (fun hz => hroot (.inr hz)) with
      | inl hfound =>
        rw [hfound]
        change (getBlockFromStorage node target.exprId >>= _) = _
        rw [hstored]
        rfl
      | inr hnone =>
        rw [hnone]
        exact hback

/-- Whatever the bloom trees hold, and whether they are there or not, a block of a chain is found
by its height from every later one, and nothing is found at a height that the chain does not have
below the block where the search starts. -/
theorem block_is_found_by_height (hdigest : ∀ x, (node.blake3 x).length = 32)
    (h : IndexedChain digest node chain) (hblock : chain[i]? = some block) (hfuel : i < fuel)
    (targetHeight : Int) :
    findBlockByHeight node fuel (some block) targetHeight =
      .ok (if 0 ≤ targetHeight ∧ targetHeight ≤ i then chain[targetHeight.toNat]? else none) := by
  have hheight := h.height i block hblock
  obtain ⟨hi, -⟩ := List.getElem?_eq_some_iff.mp hblock
  simp only [findBlockByHeight, hheight]
  by_cases habove : (i : Int) < targetHeight
  · rw [if_pos habove, if_neg (by omega)]
  · rw [if_neg habove]
    by_cases hneg : targetHeight < 0
    · rw [if_neg (by omega)]
      have hnone : backWhile node
          (fun other => decide (targetHeight / 1024 < other.fields.height / 1024)) fuel
          (some block) = .ok none := by
        refine backWhile_none h hblock (fun other hother => ?_) hfuel
        obtain ⟨k, hk⟩ := List.mem_iff_getElem?.mp hother
        rw [h.height k other hk]
        simp
        omega
      rw [hnone]
      rfl
    · rw [if_pos (by omega)]
      obtain ⟨j, rfl⟩ := Int.eq_ofNat_of_zero_le (Int.not_lt.mp hneg)
      have hj : chain[j]? = some chain[j] := List.getElem?_eq_getElem (by omega)
      -- the highest block of the era that is not above the starting one
      have hc : chain[min i (j / 1024 * 1024 + 1023)]? =
          some chain[min i (j / 1024 * 1024 + 1023)] := List.getElem?_eq_getElem (by omega)
      have hcurrent : backWhile node
          (fun other => decide ((j : Int) / 1024 < other.fields.height / 1024)) fuel
          (some block) = .ok (some chain[min i (j / 1024 * 1024 + 1023)]) := by
        refine backWhile_stops h hblock hc (Nat.min_le_left _ _) ?_
          (fun k other hk hki hother => ?_) hfuel
        · rw [h.height _ _ hc]
          simp
          omega
        · rw [h.height k other hother]
          simp
          omega
      have hera : j / 1024 = min i (j / 1024 * 1024 + 1023) / 1024 := by omega
      have hfound := findInEra_chain hdigest h hc hj hera (by omega) (by omega : _ < fuel)
      rw [hcurrent]
      change (if (chain[min i (j / 1024 * 1024 + 1023)]).fields.height / 1024 ≠ (j : Int) / 1024
        then _ else _) = _
      rw [h.height _ _ hc, if_neg (by push_cast; omega), hfound]
      simp [hj]

end Chains

section Samples

/-- A block after the genesis block, which like it has no transactions. -/
def childBlock : BlockFields :=
  { genesisBlock with
    height := 1
    previousBlockHash := genesisBlock.expr.hash sampleDigest
    timestamp := 1700000060 }

def chainCells : List Expr := (genesisBlock.expr.cells ++ childBlock.expr.cells).dedup

def decodedSample (b : BlockFields) : DecodedBlock :=
  ⟨b, b.expr.hash sampleDigest, b.body.hash sampleDigest⟩

theorem chainCells_apart : (chainCells.map fun c => c.hash sampleDigest).Nodup ∧
    (∀ c ∈ chainCells, c.hash sampleDigest = zero32 → c = .nil) ∧
    ∀ c ∈ chainCells, ∀ tag ∈ builtinTypeNames,
      c.hash sampleDigest = terminalHash sampleDigest 1 (utf8 tag) → c = .symbol tag := by
  decide +kernel

def sampleChain : List DecodedBlock := [decodedSample genesisBlock, decodedSample childBlock]

theorem sampleChain_indexed :
    IndexedChain sampleDigest ((sampleNode 40).storing chainCells) sampleChain := by
  have hdigest : ∀ x, (sampleDigest x).length = 32 := fun x => by simp [sampleDigest]
  have hgenesis : genesisBlock.Created :=
    ⟨by decide, by decide, by decide,
      fun total h => updateStatistics_totals 0 [] 1 1 0 total h⟩
  have hhash : ∀ e : Expr, e.Writable → (e.hash sampleDigest).length = 32 :=
    fun e => length_hash_of_writable hdigest
  have hchild : childBlock.Created := by
    refine ⟨?_, by decide, by decide, fun total h => updateStatistics_totals 0 [] 1 1 0 total h⟩
    intro h hh
    have hcases : h = genesisBlock.expr.hash sampleDigest ∨
        h ∈ [List.replicate 32 5, zero32, zero32, zero32, zero32] := List.mem_cons.mp hh
    cases hcases with
    | inl hfirst =>
      rw [hfirst]
      exact hhash _ (writable_block hgenesis)
    | inr hrest => exact (by decide : ∀ h ∈ [List.replicate 32 (5 : UInt8), zero32, zero32, zero32,
        zero32], h.length = 32) h hrest
  have hwritable : ∀ b : BlockFields, b.Created → ∀ c ∈ b.expr.cells, c.Writable :=
    fun b hb => Expr.cells_writable _ (writable_block hb)
  have hcells : ∀ c ∈ chainCells, c.Writable := fun c hc =>
    (List.mem_append.mp (List.mem_dedup.mp hc)).elim (hwritable _ hgenesis c)
      (hwritable _ hchild c)
  obtain ⟨hnodup, hzero, htype⟩ := chainCells_apart
  have hapart : DistinctHashes sampleDigest chainCells :=
    ⟨fun c hc c' hc' h => by rw [List.inj_on_of_nodup_map hnodup hc hc' h], hzero, htype⟩
  have hread : ∀ b : BlockFields, b.Created → b.expr.cells ⊆ chainCells →
      b.statistics.length < 40 → getBlockFromStorage ((sampleNode 40).storing chainCells)
        (decodedSample b).exprId = .ok (decodedSample b) := by
    intro b hb hsub hstatistics
    have hbody : b.body.Writable := (writable_block hb).elim
      (fun h => h.2.1.elim (fun h => h.2.1) fun h => by cases h.1) fun h => by cases h.1
    have hne : ∀ e : Expr, e.Writable → e.hash sampleDigest ≠ [] := fun e he hnil => by
      have hlength := hhash e he
      rw [hnil] at hlength
      cases hlength
    have hholds : ((sampleNode 40).storing chainCells).Holds b.expr :=
      holds_storing hdigest hcells hapart hsub
    have hfuel : 19 < ((sampleNode 40).storing chainCells).fuel := (by decide : 19 < 40)
    have hget := getBlock_stored hholds hb hfuel hstatistics (hne _ (writable_block hb))
      (hne _ hbody)
    exact hget
  have hsubs : genesisBlock.expr.cells ⊆ chainCells ∧ childBlock.expr.cells ⊆ chainCells :=
    ⟨fun c hc => List.mem_dedup.mpr (List.mem_append_left _ hc),
      fun c hc => List.mem_dedup.mpr (List.mem_append_right _ hc)⟩
  have hnonzero : ∀ b : BlockFields, b.expr.cells ⊆ chainCells →
      b.expr.hash sampleDigest ≠ zero32 := fun b hsub hz => by
    have hnil := hzero b.expr (hsub (Expr.mem_cells _)) hz
    simp [BlockFields.expr, link] at hnil
  have hempty : Bloom.Reads sampleDigest [] ((sampleNode 40).storing chainCells) :=
    ⟨rfl, fun e he => absurd he List.not_mem_nil, fun e he => absurd he List.not_mem_nil⟩
  have hera : EraRun sampleDigest sampleDigest [⟨(decodedSample genesisBlock).exprId, []⟩] []
      zero32 :=
    @EraRun.next _ _ [] [] _ _ ⟨_, []⟩ none .start hempty (by decide)
      (hhash _ (writable_block hgenesis)) rfl
  have hera' : EraRun sampleDigest sampleDigest [⟨(decodedSample genesisBlock).exprId, []⟩,
      ⟨(decodedSample childBlock).exprId, []⟩] [] zero32 :=
    @EraRun.next _ _ [⟨(decodedSample genesisBlock).exprId, []⟩] [] _ _ ⟨_, []⟩ none hera hempty
      (by decide) (hhash _ (writable_block hchild)) rfl
  have hplaces : ∀ (i : Nat) (block : DecodedBlock),
      sampleChain[i]? = some block →
      i = 0 ∧ block = decodedSample genesisBlock ∨ i = 1 ∧ block = decodedSample childBlock := by
    intro i block h
    cases i with
    | zero => exact .inl ⟨rfl, (Option.some.inj h).symm⟩
    | succ i =>
      cases i with
      | zero => exact .inr ⟨rfl, (Option.some.inj h).symm⟩
      | succ i => cases h
  constructor
  · intro i block h
    obtain ⟨rfl, rfl⟩ | ⟨rfl, rfl⟩ := hplaces i block h
    · rfl
    · rfl
  · rw [sampleChain, List.forall_mem_cons, List.forall_mem_singleton]
    exact ⟨hread _ hgenesis hsubs.1 (by decide), hread _ hchild hsubs.2 (by decide)⟩
  · rw [sampleChain, List.forall_mem_cons, List.forall_mem_singleton]
    exact ⟨⟨hhash _ (writable_block hgenesis), hnonzero _ hsubs.1⟩,
      hhash _ (writable_block hchild), hnonzero _ hsubs.2⟩
  · intro block h
    cases h
    rfl
  · intro i block next h h'
    obtain ⟨rfl, rfl⟩ | ⟨rfl, rfl⟩ := hplaces i block h
    · cases h'
      rfl
    · cases h'
  · intro i block h
    obtain ⟨rfl, rfl⟩ | ⟨rfl, rfl⟩ := hplaces i block h
    · refine ⟨_, ⟨[], hera, hempty⟩, rfl, fun k entry hk => ?_⟩
      cases k with
      | zero => cases hk; rfl
      | succ k => cases hk
    · refine ⟨_, ⟨[], hera', hempty⟩, rfl, fun k entry hk => ?_⟩
      cases k with
      | zero => cases hk; rfl
      | succ k =>
        cases k with
        | zero => cases hk; rfl
        | succ k => cases hk

theorem sample_block_is_found : ∃ node,
    findBlockByHeight node 2 (some (decodedSample childBlock)) 0 =
    .ok (some (decodedSample genesisBlock)) := by
  have hdigest : ∀ x, (sampleDigest x).length = 32 := fun x => by simp [sampleDigest]
  have hlast : sampleChain[1]? = some (decodedSample childBlock) := rfl
  exact ⟨_, block_is_found_by_height hdigest sampleChain_indexed hlast (by decide) 0⟩

end Samples

end Astreum
