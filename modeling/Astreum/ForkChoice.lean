import Astreum.HeadPointer
import Astreum.Selection

namespace Astreum

/-- `_select_latest_block`. The pointer read first is `currentHead`, its height is read with
`latestBlock`, and `head` is what the lock finds at the end. -/
def selectLatestBlock (window : SelectionWindow) (load : Bytes → Option BlockHeader)
    (currentHead : Option Bytes) (latestBlock : Option BlockHeader) (forks : Forks) (head : Head) :
    Head :=
  match (selectBest window load currentHead (currentHeadHeight load currentHead latestBlock)
    forks).found with
  | none => head
  | some (bestHead, bestBlock) => selectHead currentHead bestHead bestBlock head

/-- A fork that may become the head, with its block. -/
structure EligibleFork (window : SelectionWindow) (load : Bytes → Option BlockHeader)
    (currentHeight : Option Int) (forks : Forks) (head : Bytes) (block : BlockHeader) : Prop where
  listed : ∃ fork, (head, fork) ∈ forks.pairs ∧ isCandidate fork = true
  loads : load head = some block
  timely : ∃ timestamp, block.timestamp = some timestamp ∧ window.admits timestamp = true
  high : ∀ height, currentHeight = some height → height ≤ block.height

/-- The choice among the eligible blocks: the greatest height, then the current head, then the
smallest hash. -/
structure ChosenFork (eligible : Bytes → BlockHeader → Prop) (currentHead : Option Bytes)
    (best : Bytes) (block : BlockHeader) : Prop where
  isEligible : eligible best block
  highest : ∀ head other, eligible head other → other.height ≤ block.height
  current : ∀ head other, eligible head other → other.height = block.height →
    currentHead = some head → best = head
  smallest : ∀ head other, eligible head other → other.height = block.height →
    currentHead ≠ some best → head = best ∨ best < head

/-- The order in which one pass of the selection compares heads. -/
def Preferred (height : Bytes → Int) (currentHead : Option Bytes) (x y : Bytes) : Prop :=
  height y < height x ∨ (height x = height y ∧
    ((currentHead = some x ∧ x ≠ y) ∨ (currentHead ≠ some y ∧ x < y)))

instance (height : Bytes → Int) (currentHead : Option Bytes) :
    DecidableRel (Preferred height currentHead) :=
  fun _ _ => inferInstanceAs (Decidable (_ ∨ _))

section Order

variable {height : Bytes → Int} {currentHead : Option Bytes}

instance : IsTrans Bytes (Preferred height currentHead) where
  trans x y z hxy hyz := by
    rcases hxy with hxy | ⟨hxy, hties⟩
    · refine .inl ?_
      rcases hyz with hyz | ⟨hyz, -⟩
      · exact lt_trans hyz hxy
      · rwa [← hyz]
    · rcases hyz with hyz | ⟨hyz, hties'⟩
      · exact .inl (by rwa [hxy])
      · refine .inr ⟨hxy.trans hyz, ?_⟩
        rcases hties with ⟨hcur, hne⟩ | ⟨hcur, hlt⟩
        · refine .inl ⟨hcur, ?_⟩
          rintro rfl
          rcases hties' with ⟨hcur', -⟩ | ⟨hcur', -⟩
          · exact hne (Option.some.inj (hcur.symm.trans hcur'))
          · exact hcur' hcur
        · rcases hties' with ⟨hcur', -⟩ | ⟨hcur', hlt'⟩
          · exact absurd hcur' hcur
          · exact .inr ⟨hcur', Std.lt_trans hlt hlt'⟩

instance : Std.Asymm (Preferred height currentHead) where
  asymm x y hxy hyx := by
    rcases hxy with hxy | ⟨hxy, hties⟩
    · rcases hyx with hyx | ⟨hyx, -⟩
      · exact lt_asymm hxy hyx
      · exact hxy.ne hyx
    · rcases hyx with hyx | ⟨-, hties'⟩
      · exact hyx.ne hxy
      · rcases hties with ⟨hcur, hne⟩ | ⟨hcur, hlt⟩
        · rcases hties' with ⟨hcur', -⟩ | ⟨hcur', -⟩
          · exact hne (Option.some.inj (hcur.symm.trans hcur'))
          · exact hcur' hcur
        · rcases hties' with ⟨hcur', -⟩ | ⟨-, hlt'⟩
          · exact hcur hcur'
          · exact Std.lt_irrefl (Std.lt_trans hlt hlt')

instance : Std.Trichotomous (Preferred height currentHead) where
  trichotomous x y hxy hyx := by
    rw [Preferred, not_or, not_lt] at hxy hyx
    have hheight : height x = height y := le_antisymm hxy.1 hyx.1
    by_contra hne
    by_cases hx : currentHead = some x
    · exact hxy.2 ⟨hheight, .inl ⟨hx, hne⟩⟩
    by_cases hy : currentHead = some y
    · exact hyx.2 ⟨hheight.symm, .inl ⟨hy, Ne.symm hne⟩⟩
    rcases Std.lt_trichotomy x y with hlt | heq | hlt
    · exact hxy.2 ⟨hheight, .inr ⟨hy, hlt⟩⟩
    · exact hne heq
    · exact hyx.2 ⟨hheight.symm, .inr ⟨hx, hlt⟩⟩

end Order

section Choice

variable (window : SelectionWindow) (load : Bytes → Option BlockHeader) (currentHead : Option Bytes)
  (currentHeight : Option Int)

/-- The height of a block that loads. -/
def loadedHeight (head : Bytes) : Int := ((load head).map BlockHeader.height).getD (-1)

/-- The block of a fork that passes the checks of the loop. -/
def admitted (head : Bytes) (fork : Fork) : Option BlockHeader := do
  guard (isCandidate fork)
  let block ← load head
  let timestamp ← block.timestamp
  guard (window.admits timestamp)
  guard (!currentHeight.any fun height => decide (block.height < height))
  return block

/-- The comparison at the end of the loop. -/
def compareFork (best : Best) (head : Bytes) (block : BlockHeader) : Best :=
  if best.height < block.height then ⟨some (head, block), block.height⟩
  else if block.height = best.height then breakTie currentHead best head block
  else best

/-- A fork that the comparison can take. The loop starts below height zero, and at its start height
it takes the current head only. -/
def counted (p : Bytes × Fork) : Option Bytes := do
  let block ← admitted window load currentHeight p.1 p.2
  guard (0 ≤ block.height ∨ (block.height = -1 ∧ currentHead = some p.1))
  return p.1

/-- The running best that stands for a head that was picked. -/
def bestOf (picked : Option Bytes) : Best :=
  match picked with
  | none => Best.none
  | some head =>
    match load head with
    | none => Best.none
    | some block => ⟨some (head, block), block.height⟩

variable {window load currentHead currentHeight}

theorem admitted_eq_some {head : Bytes} {fork : Fork} {block : BlockHeader} :
    admitted window load currentHeight head fork = some block ↔
      isCandidate fork = true ∧ load head = some block ∧
      (∃ timestamp, block.timestamp = some timestamp ∧ window.admits timestamp = true) ∧
      ∀ height, currentHeight = some height → height ≤ block.height := by
  have hhigh : ∀ block : BlockHeader,
      (currentHeight.any fun height => decide (block.height < height)) = false ↔
        ∀ height, currentHeight = some height → height ≤ block.height := by
    intro block
    cases currentHeight <;> simp
  simp only [admitted, Option.bind_eq_bind, Option.bind_eq_some_iff, Option.guard_eq_some',
    Bool.not_eq_true', hhigh, exists_const, Option.pure_def, Option.some.injEq]
  constructor
  · rintro ⟨hfork, _, hload, timestamp, htime, hadmits, hle, rfl⟩
    exact ⟨hfork, hload, ⟨timestamp, htime, hadmits⟩, hle⟩
  · rintro ⟨hfork, hload, ⟨timestamp, htime, hadmits⟩, hle⟩
    exact ⟨hfork, block, hload, timestamp, htime, hadmits, hle, rfl⟩

theorem considerFork_eq (best : Best) (head : Bytes) (fork : Fork) :
    considerFork window load currentHead currentHeight best head fork =
      match admitted window load currentHeight head fork with
      | none => best
      | some block => compareFork currentHead best head block := by
  rw [considerFork, admitted]
  by_cases hfork : isCandidate fork = true
  · rw [if_pos hfork, hfork]
    rcases hload : load head with _ | block
    · rfl
    rcases htime : block.timestamp with _ | timestamp
    · simp [htime]
    by_cases hadmits : window.admits timestamp = true
    · by_cases hlow : (currentHeight.any fun height => decide (block.height < height)) = true
      · simp [htime, hadmits, hlow]
      · simp [htime, hadmits, hlow, compareFork]
    · simp [htime, hadmits]
  · simp [hfork]

/-- What was picked has loaded and counts. -/
def Counts (load : Bytes → Option BlockHeader) (currentHead picked : Option Bytes) : Prop :=
  ∀ head, picked = some head → ∃ block, load head = some block ∧
    (0 ≤ block.height ∨ (block.height = -1 ∧ currentHead = some head))

theorem counted_eq_some {p : Bytes × Fork} {head : Bytes} :
    counted window load currentHead currentHeight p = some head ↔ p.1 = head ∧
      ∃ block, admitted window load currentHeight head p.2 = some block ∧
        (0 ≤ block.height ∨ (block.height = -1 ∧ currentHead = some head)) := by
  simp only [counted, Option.bind_eq_bind, Option.bind_eq_some_iff, Option.guard_eq_some',
    exists_const, Option.pure_def, Option.some.injEq]
  constructor
  · rintro ⟨block, hblock, hcounts, rfl⟩
    exact ⟨rfl, block, hblock, hcounts⟩
  · rintro ⟨rfl, block, hblock, hcounts⟩
    exact ⟨block, hblock, hcounts, rfl⟩

theorem loadedHeight_of_load {head : Bytes} {block : BlockHeader} (h : load head = some block) :
    loadedHeight load head = block.height := by
  rw [loadedHeight, h]
  rfl

theorem bestOf_some {head : Bytes} {block : BlockHeader} (h : load head = some block) :
    bestOf load (some head) = ⟨some (head, block), block.height⟩ := by
  simp only [bestOf, h]

/-- The comparison of the loop keeps the better head. -/
theorem compareFork_bestOf {picked : Option Bytes} {head : Bytes} {block : BlockHeader}
    (hload : load head = some block) (hpicked : Counts load currentHead picked)
    (hcounts : 0 ≤ block.height ∨ (block.height = -1 ∧ currentHead = some head)) :
    compareFork currentHead (bestOf load picked) head block =
      bestOf load (Selection.keep (Preferred (loadedHeight load) currentHead) picked head) := by
  rw [compareFork]
  rcases picked with _ | best
  · have hkeep : Selection.keep (Preferred (loadedHeight load) currentHead) none head =
        some head := rfl
    rw [hkeep, bestOf_some hload]
    rcases hcounts with hzero | ⟨hheight, hcur⟩
    · exact if_pos (by simp only [bestOf, Best.none]; omega)
    · rw [if_neg (by simp only [bestOf, Best.none]; omega),
        if_pos (by simpa only [bestOf, Best.none] using hheight), breakTie, if_pos hcur]
  · obtain ⟨bestBlock, hbest, -⟩ := hpicked best rfl
    rw [bestOf_some hbest, Selection.keep]
    have hiff : Preferred (loadedHeight load) currentHead head best ↔
        bestBlock.height < block.height ∨ (block.height = bestBlock.height ∧
          ((currentHead = some head ∧ head ≠ best) ∨ (currentHead ≠ some best ∧ head < best))) := by
      rw [Preferred, loadedHeight_of_load hload, loadedHeight_of_load hbest]
    by_cases hhigher : bestBlock.height < block.height
    · rw [if_pos hhigher, if_pos (hiff.mpr (.inl hhigher)), bestOf_some hload]
    rw [if_neg hhigher]
    by_cases hequal : block.height = bestBlock.height
    · rw [if_pos hequal, breakTie]
      by_cases hcur : currentHead = some head
      · rw [if_pos hcur]
        by_cases hsame : head = best
        · subst hsame
          rw [ite_self, bestOf_some hload]
        · rw [if_pos (hiff.mpr (.inr ⟨hequal, .inl ⟨hcur, hsame⟩⟩)), bestOf_some hload]
      · rw [if_neg hcur]
        by_cases htie : currentHead ≠ some best ∧ head < best
        · rw [if_pos (hiff.mpr (.inr ⟨hequal, .inr htie⟩)), bestOf_some hload]
          exact if_pos htie
        · rw [if_neg, bestOf_some hbest]
          · exact if_neg htie
          · rw [hiff]
            rintro (hlt | ⟨-, ⟨hcur', -⟩ | htie'⟩)
            · exact hhigher hlt
            · exact hcur hcur'
            · exact htie htie'
    · rw [if_neg hequal, if_neg, bestOf_some hbest]
      rw [hiff]
      rintro (hlt | ⟨heq, -⟩)
      · exact hhigher hlt
      · exact hequal heq

/-- A fork that does not count leaves the running best as it is. -/
theorem compareFork_of_not {picked : Option Bytes} {head : Bytes} {block : BlockHeader}
    (hpicked : Counts load currentHead picked)
    (hcounts : ¬(0 ≤ block.height ∨ (block.height = -1 ∧ currentHead = some head))) :
    compareFork currentHead (bestOf load picked) head block = bestOf load picked := by
  obtain ⟨hneg, hstart⟩ := not_or.mp hcounts
  have hheight : -1 ≤ (bestOf load picked).height := by
    rcases picked with _ | best
    · exact le_refl _
    · obtain ⟨bestBlock, hbest, hzero | ⟨heq, -⟩⟩ := hpicked best rfl
      · rw [bestOf_some hbest]
        dsimp only
        omega
      · rw [bestOf_some hbest]
        exact heq.ge
  rw [compareFork, if_neg (by omega)]
  by_cases hequal : block.height = (bestOf load picked).height
  · have hcur : currentHead ≠ some head := fun hcur => hstart ⟨by omega, hcur⟩
    rw [if_pos hequal, breakTie, if_neg hcur]
    rcases picked with _ | best
    · rfl
    · obtain ⟨bestBlock, hbest, hzero | ⟨heq, hbestCur⟩⟩ := hpicked best rfl
      · rw [bestOf_some hbest] at hequal
        dsimp only at hequal
        omega
      · rw [bestOf_some hbest]
        exact if_neg fun htie => htie.1 hbestCur
  · exact if_neg hequal

theorem Counts.keep {picked : Option Bytes} {head : Bytes} {block : BlockHeader}
    (hload : load head = some block) (hpicked : Counts load currentHead picked)
    (hcounts : 0 ≤ block.height ∨ (block.height = -1 ∧ currentHead = some head)) :
    Counts load currentHead
      (Selection.keep (Preferred (loadedHeight load) currentHead) picked head) := by
  have hhead : Counts load currentHead (some head) := by
    rintro _ ⟨⟩
    exact ⟨block, hload, hcounts⟩
  rcases picked with _ | best
  · exact hhead
  · rw [Selection.keep]
    by_cases hbetter : Preferred (loadedHeight load) currentHead head best
    · rwa [if_pos hbetter]
    · rwa [if_neg hbetter]

/-- The loop picks the best of the heads that count. -/
theorem foldl_considerFork (pairs : List (Bytes × Fork)) {picked : Option Bytes}
    (hpicked : Counts load currentHead picked) :
    pairs.foldl (fun best p => considerFork window load currentHead currentHeight best p.1 p.2)
        (bestOf load picked) =
      bestOf load ((pairs.filterMap (counted window load currentHead currentHeight)).foldl
        (Selection.keep (Preferred (loadedHeight load) currentHead)) picked) := by
  induction pairs generalizing picked with
  | nil => rfl
  | cons p ps ih =>
    rw [List.foldl_cons, considerFork_eq, List.filterMap_cons]
    rcases hadmitted : admitted window load currentHeight p.1 p.2 with _ | block
    · have hnone : counted window load currentHead currentHeight p = none := by
        rw [counted, hadmitted]
        rfl
      rw [hnone]
      exact ih hpicked
    · have hload : load p.1 = some block := (admitted_eq_some.mp hadmitted).2.1
      by_cases hcounts : 0 ≤ block.height ∨ (block.height = -1 ∧ currentHead = some p.1)
      · have hsome : counted window load currentHead currentHeight p = some p.1 :=
          counted_eq_some.mpr ⟨rfl, block, hadmitted, hcounts⟩
        rw [hsome, List.foldl_cons]
        dsimp only
        rw [compareFork_bestOf hload hpicked hcounts]
        exact ih (hpicked.keep hload hcounts)
      · have hnone : counted window load currentHead currentHeight p = none := by
          rcases hcounted : counted window load currentHead currentHeight p with _ | head
          · rfl
          · obtain ⟨rfl, block', hblock', hcounts'⟩ := counted_eq_some.mp hcounted
            rw [Option.some.inj (hadmitted.symm.trans hblock')] at hcounts
            exact absurd hcounts' hcounts
        rw [hnone]
        dsimp only
        rw [compareFork_of_not hpicked hcounts]
        exact ih hpicked

theorem selectBest_eq (forks : Forks) :
    selectBest window load currentHead currentHeight forks =
      bestOf load (Selection.pick (Preferred (loadedHeight load) currentHead)
        (forks.pairs.filterMap (counted window load currentHead currentHeight))) := by
  have hnone : Counts load currentHead none := nofun
  exact foldl_considerFork forks.pairs hnone

theorem selectBest_perm {forks other : Forks} (h : other.pairs.Perm forks.pairs) :
    selectBest window load currentHead currentHeight other =
      selectBest window load currentHead currentHeight forks := by
  rw [selectBest_eq, selectBest_eq, Selection.pick_perm (h.filterMap _)]

theorem eligibleFork_iff {forks : Forks} {head : Bytes} {block : BlockHeader} :
    EligibleFork window load currentHeight forks head block ↔
      ∃ fork, (head, fork) ∈ forks.pairs ∧
        admitted window load currentHeight head fork = some block := by
  constructor
  · rintro ⟨⟨fork, hmem, hfork⟩, hloads, htimely, hhigh⟩
    exact ⟨fork, hmem, admitted_eq_some.mpr ⟨hfork, hloads, htimely, hhigh⟩⟩
  · rintro ⟨fork, hmem, hadmitted⟩
    obtain ⟨hfork, hloads, htimely, hhigh⟩ := admitted_eq_some.mp hadmitted
    exact ⟨⟨fork, hmem, hfork⟩, hloads, htimely, hhigh⟩

theorem mem_filterMap_counted {forks : Forks} {head : Bytes} :
    head ∈ forks.pairs.filterMap (counted window load currentHead currentHeight) ↔
      ∃ block, EligibleFork window load currentHeight forks head block ∧
        (0 ≤ block.height ∨ (block.height = -1 ∧ currentHead = some head)) := by
  rw [List.mem_filterMap]
  constructor
  · rintro ⟨p, hmem, hcounted⟩
    obtain ⟨rfl, block, hadmitted, hcounts⟩ := counted_eq_some.mp hcounted
    exact ⟨block, eligibleFork_iff.mpr ⟨p.2, hmem, hadmitted⟩, hcounts⟩
  · rintro ⟨block, heligible, hcounts⟩
    obtain ⟨fork, hmem, hadmitted⟩ := eligibleFork_iff.mp heligible
    exact ⟨(head, fork), hmem, counted_eq_some.mpr ⟨rfl, block, hadmitted, hcounts⟩⟩

/-- The best of the heads that count is the choice among all eligible forks. -/
theorem chosenFork_of_best {forks : Forks} {best : Bytes} {block : BlockHeader}
    (hload : load best = some block) (hzero : 0 ≤ block.height)
    (hbest : Selection.Best (Preferred (loadedHeight load) currentHead)
      {head | head ∈ forks.pairs.filterMap (counted window load currentHead currentHeight)} best) :
    ChosenFork (EligibleFork window load currentHeight forks) currentHead best block := by
  obtain ⟨block', heligible, -⟩ := mem_filterMap_counted.mp hbest.mem
  obtain rfl : block = block' := Option.some.inj (hload.symm.trans heligible.loads)
  have hpreferred : ∀ head other, EligibleFork window load currentHeight forks head other →
      0 ≤ other.height → head ≠ best →
      other.height < block.height ∨ (block.height = other.height ∧
        ((currentHead = some best ∧ best ≠ head) ∨ (currentHead ≠ some head ∧ best < head))) := by
    intro head other hother hpos hne
    have h := hbest.beats head (mem_filterMap_counted.mpr ⟨other, hother, .inl hpos⟩) hne
    rwa [Preferred, loadedHeight_of_load hload, loadedHeight_of_load hother.loads] at h
  refine ⟨heligible, ?_, ?_, ?_⟩
  · intro head other hother
    by_contra hlt
    rw [not_le] at hlt
    by_cases hsame : head = best
    · subst hsame
      rw [Option.some.inj (hload.symm.trans hother.loads)] at hlt
      exact lt_irrefl _ hlt
    · rcases hpreferred head other hother (by omega) hsame with h | ⟨h, -⟩
      · omega
      · omega
  · intro head other hother hequal hcur
    by_contra hne
    rcases hpreferred head other hother (by omega) (Ne.symm hne) with
      h | ⟨-, ⟨hcur', -⟩ | ⟨hcur', -⟩⟩
    · omega
    · exact hne (Option.some.inj (hcur'.symm.trans hcur))
    · exact hcur' hcur
  · intro head other hother hequal hcur
    by_cases hsame : head = best
    · exact .inl hsame
    · rcases hpreferred head other hother (by omega) hsame with h | ⟨-, ⟨hcur', -⟩ | ⟨-, hlt⟩⟩
      · omega
      · exact absurd hcur' hcur
      · exact .inr hlt

theorem selectHead_self (head : Head) (best : Bytes) (block : BlockHeader) :
    selectHead (some best) best block head = head := by
  rw [selectHead]
  by_cases h : head.hash = some best
  · exact if_pos h
  · rw [if_neg h, swapHead, if_neg h]

end Choice

/-- The selector chooses the same head in every order of the table: the highest of the eligible
forks, the current head among equals, or else the smallest hash. -/
theorem fork_choice_is_order_free (window : SelectionWindow) (load : Bytes → Option BlockHeader)
    (currentHead : Option Bytes) (latestBlock : Option BlockHeader) (forks : Forks) (head : Head) :
    (∀ other : Forks, other.pairs.Perm forks.pairs →
      selectLatestBlock window load currentHead latestBlock other head =
        selectLatestBlock window load currentHead latestBlock forks head) ∧
    ((∃ best block, EligibleFork window load (currentHeadHeight load currentHead latestBlock) forks
        best block ∧ 0 ≤ block.height) →
      ∃ best block, ChosenFork (EligibleFork window load
          (currentHeadHeight load currentHead latestBlock) forks) currentHead best block ∧
        selectLatestBlock window load currentHead latestBlock forks head =
          selectHead currentHead best block head) ∧
    ((∀ best block, EligibleFork window load (currentHeadHeight load currentHead latestBlock) forks
        best block → block.height < 0) →
      selectLatestBlock window load currentHead latestBlock forks head = head) := by
  refine ⟨?_, ?_, ?_⟩
  · intro other hperm
    rw [selectLatestBlock, selectLatestBlock, selectBest_perm hperm]
  · rintro ⟨first, firstBlock, hfirst, hzero⟩
    have hmem : first ∈ forks.pairs.filterMap (counted window load currentHead
        (currentHeadHeight load currentHead latestBlock)) :=
      mem_filterMap_counted.mpr ⟨firstBlock, hfirst, .inl hzero⟩
    obtain ⟨best, hpick, hbest⟩ := Selection.exists_pick
      (Preferred (loadedHeight load) currentHead) (List.ne_nil_of_mem hmem)
    obtain ⟨block, heligible, -⟩ := mem_filterMap_counted.mp hbest.mem
    have hpos : 0 ≤ block.height := by
      by_cases hsame : first = best
      · subst hsame
        rwa [Option.some.inj (heligible.loads.symm.trans hfirst.loads)]
      · have h := hbest.beats first hmem hsame
        rw [Preferred, loadedHeight_of_load heligible.loads,
          loadedHeight_of_load hfirst.loads] at h
        omega
    refine ⟨best, block, chosenFork_of_best heligible.loads hpos hbest, ?_⟩
    rw [selectLatestBlock, selectBest_eq, hpick, bestOf_some heligible.loads]
  · intro hneg
    rw [selectLatestBlock, selectBest_eq]
    rcases hpick : Selection.pick (Preferred (loadedHeight load) currentHead) (forks.pairs.filterMap
      (counted window load currentHead (currentHeadHeight load currentHead latestBlock)))
      with _ | best
    · rfl
    · obtain ⟨block, heligible, hcounts⟩ :=
        mem_filterMap_counted.mp (Selection.pick_eq_some.mp hpick).mem
      rw [bestOf_some heligible.loads]
      rcases hcounts with hzero | ⟨-, hcur⟩
      · exact absurd hzero (not_le.mpr (hneg best block heligible))
      · dsimp only
        rw [hcur, selectHead_self]

section Below

/-- A block that states a height below zero. -/
def belowBlock : BlockHeader := ⟨[4], zero32, -2, some 0⟩

/-- A verified fork at `[4]` that one peer follows. -/
def belowFork : Forks :=
  Dict.empty.insert [4]
    { head := [4]
      headerVerifiedUpTo := some zero32
      transactionsVerifiedUpTo := some zero32
      peers := {[9]} }

def loadBelow (hash : Bytes) : Option BlockHeader := if hash = [4] then some belowBlock else none

/-- An eligible fork whose block states a height below zero is not chosen. -/
theorem fork_below_zero_is_left_out :
    (∃ best block, ChosenFork (EligibleFork ⟨0, 0, 0⟩ loadBelow
      (currentHeadHeight loadBelow none none) belowFork) none best block) ∧
    selectLatestBlock ⟨0, 0, 0⟩ loadBelow none none belowFork ⟨none, none⟩ = ⟨none, none⟩ := by
  have honly : ∀ head block, EligibleFork ⟨0, 0, 0⟩ loadBelow none belowFork head block →
      head = [4] ∧ block = belowBlock := by
    intro head block h
    have hload := h.loads
    rw [loadBelow] at hload
    by_cases heq : head = [4]
    · rw [if_pos heq] at hload
      exact ⟨heq, (Option.some.inj hload).symm⟩
    · rw [if_neg heq] at hload
      cases hload
  refine ⟨⟨[4], belowBlock, ?_, ?_, ?_, ?_⟩, by decide⟩
  · exact ⟨⟨_, List.mem_singleton_self _, by decide⟩, rfl, ⟨0, rfl, by decide⟩, nofun⟩
  · intro head other h
    rw [(honly head other h).2]
  · intro head other h _ hcur
    cases hcur
  · intro head other h _ _
    exact .inl (honly head other h).1

end Below

end Astreum
