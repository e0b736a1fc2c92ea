import Astreum.Forks
import Mathlib.Data.Finset.Card
import Mathlib.Logic.Relation

namespace Astreum

/-- The heads `_merge_forks` starts from: fully verified forks whose root is a head too. -/
def mergeCandidates (forks : Forks) : List (Bytes × Fork) :=
  forks.pairs.filter fun p => decide (p.2.root ∈ forks.keys) && isFullyVerified p.2

def rootCount (forks : Forks) (root : Bytes) : Nat :=
  ((mergeCandidates forks).filter fun p => decide (p.2.root = root)).length

/-- The heads a pass merges into their roots, chosen before the table changes. -/
def mergeHeads (forks : Forks) : List Bytes :=
  (((mergeCandidates forks).filter fun p => decide (rootCount forks p.2.root = 1)).filter fun p =>
    (forks.get? p.2.root).elim false isFullyVerified).map Prod.fst

/-- `del forks[head]`. -/
def delFork (head : Bytes) : Stateful Forks Unit := do
  let forks ← Eff.read
  if head ∈ forks.keys then .write (forks.erase head) else .raise .keyError

/-- The fork that stands at `head` once its root fork is merged into it. -/
def unifiedFork (head : Bytes) (rootFork childFork : Fork) : Fork where
  head := head
  root := rootFork.root
  headerVerifiedUpTo := some rootFork.root
  transactionsVerifiedUpTo := some rootFork.root
  peers := rootFork.peers ∪ childFork.peers

/-- The body of the loop of `_merge_forks`. True when the head was merged. -/
def mergeHead (head : Bytes) : Stateful Forks Bool := do
  let forks ← Eff.read
  match forks.get? head with
  | none => return false
  | some childFork =>
    match forks.get? childFork.root with
    | none => return false
    | some rootFork => do
      delFork childFork.root
      delFork head
      .update fun forks => forks.insert head (unifiedFork head rootFork childFork)
      return true

def mergeEach : List Bytes → Bool → Stateful Forks Bool
  | [], merged => return merged
  | head :: heads, merged => do
    let done ← mergeHead head
    mergeEach heads (merged || done)

/-- `_merge_forks`. -/
def mergeForks : Stateful Forks Bool := do
  let forks ← Eff.read
  mergeEach (mergeHeads forks) false

/-- `while _merge_forks(node): continue`. -/
def mergeAllForks : Nat → Stateful Forks Unit
  | 0 => .raise .outOfFuel
  | fuel + 1 => do
    let merged ← mergeForks
    if merged then mergeAllForks fuel else return ()

/-- The fork at `child` is fully verified and extends the head `root`. -/
def Extends (forks : Forks) (child root : Bytes) : Prop :=
  ∃ fork, forks.get? child = some fork ∧ isFullyVerified fork = true ∧ fork.root = root

/-- `child` is the only fully verified fork that extends `root`. -/
def SoleChild (forks : Forks) (root child : Bytes) : Prop :=
  ∀ other, Extends forks other root ↔ other = child

theorem Extends.unique {forks : Forks} {child root root' : Bytes}
    (h : Extends forks child root) (h' : Extends forks child root') : root = root' := by
  obtain ⟨fork, hfork, -, rfl⟩ := h
  obtain ⟨fork', hfork', -, rfl⟩ := h'
  rw [hfork] at hfork'
  cases hfork'
  rfl

theorem SoleChild.extends {forks : Forks} {child root : Bytes} (h : SoleChild forks root child) :
    Extends forks child root :=
  (h child).mpr rfl

/-- The root of `head` and `head` become one fork: what one turn of the loop does. -/
structure Contracts (forks forks' : Forks) (head root : Bytes) (child rootFork : Fork) : Prop where
  head_ne_root : head ≠ root
  child_at : forks.get? head = some child
  root_at : forks.get? root = some rootFork
  child_root : child.root = root
  child_verified : isFullyVerified child = true
  root_verified : isFullyVerified rootFork = true
  sole : SoleChild forks root head
  after : ∀ a, forks'.get? a =
    if a = head then some (unifiedFork head rootFork child)
    else if a = root then none else forks.get? a

theorem isFullyVerified_unifiedFork (head : Bytes) (rootFork childFork : Fork) :
    isFullyVerified (unifiedFork head rootFork childFork) = true := by
  simp [isFullyVerified, unifiedFork]

namespace Contracts

variable {forks forks' : Forks} {head root : Bytes} {child rootFork : Fork}

theorem get?_head (hc : Contracts forks forks' head root child rootFork) :
    forks'.get? head = some (unifiedFork head rootFork child) := by
  rw [hc.after, if_pos rfl]

theorem get?_root (hc : Contracts forks forks' head root child rootFork) :
    forks'.get? root = none := by
  rw [hc.after, if_neg hc.head_ne_root.symm, if_pos rfl]

theorem get?_of_ne (hc : Contracts forks forks' head root child rootFork) {a : Bytes}
    (hhead : a ≠ head) (hroot : a ≠ root) : forks'.get? a = forks.get? a := by
  rw [hc.after, if_neg hhead, if_neg hroot]

theorem head_extends (hc : Contracts forks forks' head root child rootFork) :
    Extends forks head root :=
  ⟨child, hc.child_at, hc.child_verified, hc.child_root⟩

theorem root_extends (hc : Contracts forks forks' head root child rootFork) :
    Extends forks root rootFork.root :=
  ⟨rootFork, hc.root_at, hc.root_verified, rfl⟩

/-- The root does not extend itself: `head` is its only extension. -/
theorem root_ne (hc : Contracts forks forks' head root child rootFork) : rootFork.root ≠ root := by
  intro h
  exact hc.head_ne_root ((hc.sole root).mp (h ▸ hc.root_extends)).symm

/-- What extends a head after the step: `head` in the place of `root`, the others as before. -/
theorem extends_iff (hc : Contracts forks forks' head root child rootFork) {a b : Bytes} :
    Extends forks' a b ↔ (a = head ∧ Extends forks root b) ∨
      (a ≠ head ∧ a ≠ root ∧ Extends forks a b) := by
  by_cases hhead : a = head
  · subst hhead
    constructor
    · rintro ⟨fork, hfork, -, rfl⟩
      rw [hc.get?_head] at hfork
      cases hfork
      exact .inl ⟨rfl, hc.root_extends⟩
    · rintro (⟨-, hroot⟩ | ⟨h, -⟩)
      · refine ⟨_, hc.get?_head, isFullyVerified_unifiedFork .., ?_⟩
        exact hc.root_extends.unique hroot
      · exact absurd rfl h
  · by_cases hroot : a = root
    · subst hroot
      constructor
      · rintro ⟨fork, hfork, -⟩
        rw [hc.get?_root] at hfork
        cases hfork
      · rintro (⟨h, -⟩ | ⟨-, h, -⟩)
        · exact absurd h hhead
        · exact absurd rfl h
    · rw [Extends, hc.get?_of_ne hhead hroot]
      exact ⟨fun h => .inr ⟨hhead, hroot, h⟩, fun h => (h.resolve_left fun h => hhead h.1).2.2⟩

/-- A head that `head` does not extend has the same only extension after the step, but for `root`,
whose place `head` takes. -/
theorem sole_of_sole (hc : Contracts forks forks' head root child rootFork) {a b : Bytes}
    (ha : a ≠ root) (hsole : SoleChild forks a b) :
    SoleChild forks' a (if b = root then head else b) := by
  have hhead : ¬Extends forks head a := fun h => ha (h.unique hc.head_extends)
  intro other
  rw [hc.extends_iff]
  by_cases hb : b = root
  · subst hb
    rw [if_pos rfl]
    constructor
    · rintro (⟨h, -⟩ | ⟨-, hne, h⟩)
      · exact h
      · exact absurd ((hsole other).mp h) hne
    · rintro rfl
      exact .inl ⟨rfl, hsole.extends⟩
  · rw [if_neg hb]
    constructor
    · rintro (⟨-, h⟩ | ⟨-, -, h⟩)
      · exact absurd ((hsole root).mp h).symm hb
      · exact (hsole other).mp h
    · rintro rfl
      refine .inr ⟨?_, hb, hsole.extends⟩
      rintro rfl
      exact hhead hsole.extends

theorem sole_before (hc : Contracts forks forks' head root child rootFork) {a b : Bytes}
    (ha : a ≠ root) (hsole : SoleChild forks' a b) :
    SoleChild forks a (if b = head then root else b) := by
  have hhead : ¬Extends forks head a := fun h => ha (h.unique hc.head_extends)
  have hb := hc.extends_iff.mp hsole.extends
  intro other
  constructor
  · intro h
    by_cases hroot : other = root
    · subst hroot
      have hto : head = b := (hsole head).mp (hc.extends_iff.mpr (.inl ⟨rfl, h⟩))
      rw [if_pos hto.symm]
    · have hne : other ≠ head := by
        rintro rfl
        exact hhead h
      have hto : other = b := (hsole other).mp (hc.extends_iff.mpr (.inr ⟨hne, hroot, h⟩))
      rw [if_neg (hto ▸ hne), hto]
  · rintro rfl
    rcases hb with ⟨rfl, h⟩ | ⟨hne, -, h⟩
    · rwa [if_pos rfl]
    · rwa [if_neg hne]

end Contracts

theorem mem_mergeCandidates {forks : Forks} {p : Bytes × Fork} :
    p ∈ mergeCandidates forks ↔
      forks.get? p.1 = some p.2 ∧ p.2.root ∈ forks.keys ∧ isFullyVerified p.2 = true := by
  simp [mergeCandidates, Dict.get?_eq_some]

/-- The count of a candidate's root is one when no other fully verified fork extends it. -/
theorem rootCount_eq_one {forks : Forks} {p : Bytes × Fork} (hp : p ∈ mergeCandidates forks) :
    rootCount forks p.2.root = 1 ↔ SoleChild forks p.2.root p.1 := by
  obtain ⟨hfork, hroot, hfull⟩ := mem_mergeCandidates.mp hp
  have hmem : p ∈ (mergeCandidates forks).filter fun q => decide (q.2.root = p.2.root) :=
    List.mem_filter.mpr ⟨hp, by simp⟩
  constructor
  · intro hone
    obtain ⟨q, hq⟩ := List.length_eq_one_iff.mp hone
    have hpq : p = q := List.mem_singleton.mp (hq ▸ hmem)
    intro other
    constructor
    · rintro ⟨fork, hother, hverified, hto⟩
      have hcandidate : (other, fork) ∈ mergeCandidates forks :=
        mem_mergeCandidates.mpr ⟨hother, hto ▸ hroot, hverified⟩
      have hin : (other, fork) ∈ [q] := hq ▸ List.mem_filter.mpr ⟨hcandidate, by simpa using hto⟩
      rw [← hpq] at hin
      rw [← List.mem_singleton.mp hin]
    · rintro rfl
      exact ⟨p.2, hfork, hfull, rfl⟩
  · intro hsole
    have hsub : ((mergeCandidates forks).filter fun q => decide (q.2.root = p.2.root)) ⊆ [p] := by
      intro q hq
      obtain ⟨hcandidate, hto⟩ := List.mem_filter.mp hq
      obtain ⟨hother, -, hverified⟩ := mem_mergeCandidates.mp hcandidate
      have hkey : q.1 = p.1 := (hsole q.1).mp ⟨q.2, hother, hverified, of_decide_eq_true hto⟩
      rw [hkey, hfork] at hother
      exact List.mem_singleton.mpr (Prod.ext hkey (Option.some.inj hother).symm)
    have hnodup : forks.pairs.Nodup := forks.nodup.of_map
    have hle := ((hnodup.filter _).filter _).subperm hsub |>.length_le
    exact Nat.le_antisymm hle (List.length_pos_of_mem hmem)

theorem mem_mergeHeads {forks : Forks} {head : Bytes} :
    head ∈ mergeHeads forks ↔ ∃ child rootFork, forks.get? head = some child ∧
      forks.get? child.root = some rootFork ∧ isFullyVerified child = true ∧
      isFullyVerified rootFork = true ∧ SoleChild forks child.root head := by
  constructor
  · intro h
    obtain ⟨p, hp, rfl⟩ := List.mem_map.mp h
    obtain ⟨hp, hroot⟩ := List.mem_filter.mp hp
    obtain ⟨hp, hcount⟩ := List.mem_filter.mp hp
    obtain ⟨hfork, -, hfull⟩ := mem_mergeCandidates.mp hp
    rcases hget : forks.get? p.2.root with _ | rootFork
    · simp [hget] at hroot
    · rw [hget] at hroot
      exact ⟨p.2, rootFork, hfork, hget, hfull, hroot,
        (rootCount_eq_one hp).mp (of_decide_eq_true hcount)⟩
  · rintro ⟨child, rootFork, hfork, hget, hfull, hroot, hsole⟩
    have hkey : child.root ∈ forks.keys := by
      by_contra hnot
      rw [Dict.get?_eq_none.mpr hnot] at hget
      cases hget
    have hp : (head, child) ∈ mergeCandidates forks := mem_mergeCandidates.mpr ⟨hfork, hkey, hfull⟩
    refine List.mem_map.mpr ⟨(head, child), List.mem_filter.mpr ⟨List.mem_filter.mpr ⟨hp, ?_⟩, ?_⟩, rfl⟩
    · exact decide_eq_true ((rootCount_eq_one hp).mpr hsole)
    · simpa [hget] using hroot

theorem nodup_mergeHeads (forks : Forks) : (mergeHeads forks).Nodup := by
  refine forks.nodup.sublist (List.Sublist.map _ ?_)
  exact List.filter_sublist.trans (List.filter_sublist.trans List.filter_sublist)

/-- What is known of a head the pass has still to merge, if it is still there. -/
def Ready (forks : Forks) (head : Bytes) : Prop :=
  ∀ child, forks.get? head = some child → isFullyVerified child = true ∧
    SoleChild forks child.root head ∧
    ∀ rootFork, forks.get? child.root = some rootFork → isFullyVerified rootFork = true

theorem ready_of_mem_mergeHeads {forks : Forks} {head : Bytes} (h : head ∈ mergeHeads forks) :
    Ready forks head := by
  obtain ⟨child, rootFork, hfork, hroot, hfull, hrootFull, hsole⟩ := mem_mergeHeads.mp h
  intro child' hfork'
  rw [hfork] at hfork'
  cases hfork'
  refine ⟨hfull, hsole, ?_⟩
  intro rootFork' hroot'
  rw [hroot] at hroot'
  cases hroot'
  exact hrootFull

/-- A step leaves the heads that are still to merge as ready as they were. -/
theorem Contracts.ready {forks forks' : Forks} {head root : Bytes} {child rootFork : Fork}
    (hc : Contracts forks forks' head root child rootFork) {a : Bytes} (ha : a ≠ head)
    (hready : Ready forks a) : Ready forks' a := by
  intro fork hfork
  by_cases hroot : a = root
  · subst hroot
    rw [hc.get?_root] at hfork
    cases hfork
  rw [hc.get?_of_ne ha hroot] at hfork
  obtain ⟨hfull, hsole, hrootFull⟩ := hready fork hfork
  have hne : fork.root ≠ root := by
    intro h
    exact ha ((hc.sole a).mp ⟨fork, hfork, hfull, h⟩)
  have hsole' := hc.sole_of_sole hne hsole
  rw [if_neg hroot] at hsole'
  refine ⟨hfull, hsole', ?_⟩
  intro fork' hfork'
  by_cases hhead : fork.root = head
  · rw [hhead, hc.get?_head] at hfork'
    cases hfork'
    exact isFullyVerified_unifiedFork ..
  · rw [hc.get?_of_ne hhead hne] at hfork'
    exact hrootFull fork' hfork'

/-- The three ends of one turn of the loop: nothing to merge, one step, or a raise for a fork that
is its own root and has no other extension. -/
theorem mergeHead_cases {forks : Forks} {head : Bytes} (hready : Ready forks head) :
    mergeHead head forks = (.ok false, forks) ∧
      (∀ child, forks.get? head = some child → forks.get? child.root = none) ∨
    (∃ forks' root child rootFork, mergeHead head forks = (.ok true, forks') ∧
      Contracts forks forks' head root child rootFork) ∨
    ((mergeHead head forks).1 = .error .keyError ∧ SoleChild forks head head ∧
      Extends forks head head) := by
  rw [mergeHead, Eff.read_bind]
  rcases hchild : forks.get? head with _ | child
  · exact .inl ⟨rfl, nofun⟩
  obtain ⟨hfull, hsole, hrootFull⟩ := hready child hchild
  rcases hroot : forks.get? child.root with _ | rootFork
  · refine .inl ⟨by simp [hroot], ?_⟩
    intro child' hchild'
    cases hchild'
    exact hroot
  have hroot_mem : child.root ∈ forks.keys := by
    by_contra hnot
    rw [Dict.get?_eq_none.mpr hnot] at hroot
    cases hroot
  have hdel : delFork child.root forks = (.ok (), forks.erase child.root) := by
    rw [delFork, Eff.read_bind, if_pos hroot_mem, Eff.write_apply]
  simp only [hroot, Eff.bind_of_ok hdel]
  have herased := Dict.get?_erase forks child.root head
  by_cases hself : head = child.root
  · have hnot : head ∉ (forks.erase child.root).keys := by
      rw [← Dict.get?_eq_none, herased, if_pos hself]
    have hraise : delFork head (forks.erase child.root) =
        (.error .keyError, forks.erase child.root) := by
      rw [delFork, Eff.read_bind, if_neg hnot, Eff.raise_apply]
    rw [Eff.bind_of_error hraise]
    rw [← hself] at hsole
    exact .inr (.inr ⟨rfl, hsole, hsole.extends⟩)
  · have hmem : head ∈ (forks.erase child.root).keys := by
      by_contra hnot
      rw [← Dict.get?_eq_none, herased, if_neg hself, hchild] at hnot
      cases hnot
    have hdel' : delFork head (forks.erase child.root) =
        (.ok (), (forks.erase child.root).erase head) := by
      rw [delFork, Eff.read_bind, if_pos hmem, Eff.write_apply]
    rw [Eff.bind_of_ok hdel', Eff.update_bind]
    refine .inr (.inl ⟨_, child.root, child, rootFork, rfl, hself, hchild, hroot, rfl, hfull,
      hrootFull rootFork hroot, hsole, ?_⟩)
    intro a
    rw [Dict.get?_insert, Dict.get?_erase, Dict.get?_erase]
    by_cases ha : a = head
    · rw [if_pos ha.symm, if_pos ha]
    · rw [if_neg (Ne.symm ha), if_neg ha, if_neg ha]

/-- The passes as steps, one contraction at a time. -/
def MergeStep (forks forks' : Forks) : Prop :=
  ∃ head root child rootFork, Contracts forks forks' head root child rootFork

abbrev Merges : Forks → Forks → Prop := Relation.ReflTransGen MergeStep

/-- Fully verified forks in a ring, each the only extension of the next. -/
structure ClosedCycle (forks : Forks) (cycle : Set Bytes) : Prop where
  nonempty : cycle.Nonempty
  sole : ∀ a ∈ cycle, ∃ b ∈ cycle, SoleChild forks a b
  extends_mem : ∀ b ∈ cycle, ∃ a ∈ cycle, Extends forks b a

def headSet (forks : Forks) : Finset Bytes := forks.keys.toFinset

theorem mem_headSet {forks : Forks} {a : Bytes} : a ∈ headSet forks ↔ forks.get? a ≠ none := by
  rw [headSet, List.mem_toFinset, ne_eq, Dict.get?_eq_none, not_not]

namespace Contracts

variable {forks forks' : Forks} {head root : Bytes} {child rootFork : Fork}

theorem headSet_eq (hc : Contracts forks forks' head root child rootFork) :
    headSet forks' = (headSet forks).erase root := by
  ext a
  rw [Finset.mem_erase, mem_headSet, mem_headSet, hc.after]
  by_cases hhead : a = head
  · subst hhead
    simp [hc.head_ne_root, hc.child_at]
  · by_cases hroot : a = root
    · simp [hroot, hc.head_ne_root.symm]
    · simp [hhead, hroot]

theorem card_lt (hc : Contracts forks forks' head root child rootFork) :
    (headSet forks').card < (headSet forks).card := by
  rw [hc.headSet_eq]
  apply Finset.card_erase_lt_of_mem
  rw [mem_headSet, hc.root_at]
  exact Option.some_ne_none rootFork

/-- A ring stays a ring, shorter by the root when the step is on it. -/
theorem cycle_after (hc : Contracts forks forks' head root child rootFork) {cycle : Set Bytes}
    (h : ClosedCycle forks cycle) : ClosedCycle forks' {a | a ∈ cycle ∧ a ≠ root} := by
  have hhead : root ∈ cycle → head ∈ cycle := by
    intro hroot
    obtain ⟨b, hb, hsole⟩ := h.sole root hroot
    rwa [← (hsole head).mp hc.head_extends] at hb
  have hroot : head ∈ cycle → root ∈ cycle := by
    intro hmem
    obtain ⟨a, ha, hext⟩ := h.extends_mem head hmem
    rwa [hext.unique hc.head_extends] at ha
  constructor
  · obtain ⟨a, ha⟩ := h.nonempty
    by_cases heq : a = root
    · exact ⟨head, hhead (heq ▸ ha), hc.head_ne_root⟩
    · exact ⟨a, ha, heq⟩
  · rintro a ⟨ha, hne⟩
    obtain ⟨b, hb, hsole⟩ := h.sole a ha
    refine ⟨_, ?_, hc.sole_of_sole hne hsole⟩
    by_cases heq : b = root
    · rw [if_pos heq]
      exact ⟨hhead (heq ▸ hb), hc.head_ne_root⟩
    · rw [if_neg heq]
      exact ⟨hb, heq⟩
  · rintro b ⟨hb, hne⟩
    by_cases heq : b = head
    · subst heq
      obtain ⟨a, ha, hext⟩ := h.extends_mem root (hroot hb)
      refine ⟨a, ⟨ha, ?_⟩, hc.extends_iff.mpr (.inl ⟨rfl, hext⟩)⟩
      rw [hext.unique hc.root_extends]
      exact hc.root_ne
    · obtain ⟨a, ha, hext⟩ := h.extends_mem b hb
      refine ⟨a, ⟨ha, ?_⟩, hc.extends_iff.mpr (.inr ⟨heq, hne, hext⟩)⟩
      rintro rfl
      exact heq ((hc.sole b).mp hext)

/-- No step makes a ring: with the root put back it was there before. -/
theorem cycle_before (hc : Contracts forks forks' head root child rootFork) {cycle : Set Bytes}
    (h : ClosedCycle forks' cycle) :
    ClosedCycle forks {a | a ∈ cycle ∨ (a = root ∧ head ∈ cycle)} := by
  have hne : ∀ a ∈ cycle, a ≠ root := by
    rintro a ha rfl
    obtain ⟨b, -, fork, hfork, -⟩ := h.extends_mem a ha
    rw [hc.get?_root] at hfork
    cases hfork
  constructor
  · obtain ⟨a, ha⟩ := h.nonempty
    exact ⟨a, .inl ha⟩
  · rintro a (ha | ⟨rfl, hhead⟩)
    · obtain ⟨b, hb, hsole⟩ := h.sole a ha
      refine ⟨_, ?_, hc.sole_before (hne a ha) hsole⟩
      by_cases heq : b = head
      · rw [if_pos heq]
        exact .inr ⟨rfl, heq ▸ hb⟩
      · rw [if_neg heq]
        exact .inl hb
    · exact ⟨head, .inl hhead, hc.sole⟩
  · rintro b (hb | ⟨rfl, hhead⟩)
    · obtain ⟨a, ha, hext⟩ := h.extends_mem b hb
      rcases hc.extends_iff.mp hext with ⟨rfl, -⟩ | ⟨-, -, hext⟩
      · exact ⟨root, .inr ⟨rfl, hb⟩, hc.head_extends⟩
      · exact ⟨a, .inl ha, hext⟩
    · obtain ⟨a, ha, hext⟩ := h.extends_mem head hhead
      rcases hc.extends_iff.mp hext with ⟨-, hext⟩ | ⟨hself, -⟩
      · exact ⟨a, .inl ha, hext⟩
      · exact absurd rfl hself

end Contracts

theorem closedCycle_self {forks : Forks} {head : Bytes} (hsole : SoleChild forks head head) :
    ClosedCycle forks {head} where
  nonempty := Set.singleton_nonempty head
  sole := by
    rintro a rfl
    exact ⟨a, rfl, hsole⟩
  extends_mem := by
    rintro b rfl
    exact ⟨b, rfl, hsole.extends⟩

/-- Without a ring the rest of a pass returns, having left the table as it is or taken steps that
leave fewer heads. -/
theorem mergeEach_returns {heads : List Bytes} {forks : Forks} (merged : Bool)
    (hnodup : heads.Nodup) (hready : ∀ a ∈ heads, Ready forks a)
    (hcycle : ∀ cycle, ¬ClosedCycle forks cycle) :
    ∃ forks' merged', mergeEach heads merged forks = (.ok merged', forks') ∧
      Merges forks forks' ∧ (merged' = merged ∧ forks' = forks ∨
        merged' = true ∧ (headSet forks').card < (headSet forks).card) := by
  induction heads generalizing merged forks with
  | nil => exact ⟨forks, merged, rfl, .refl, .inl ⟨rfl, rfl⟩⟩
  | cons head heads ih =>
    obtain ⟨hhead, hnodup⟩ := List.nodup_cons.mp hnodup
    obtain ⟨hfirst, hready⟩ := List.forall_mem_cons.mp hready
    rcases mergeHead_cases hfirst with
      ⟨hrun, -⟩ | ⟨forks₁, root, child, rootFork, hrun, hc⟩ | ⟨-, hsole, -⟩
    · obtain ⟨forks', merged', hrest, hsteps, hend⟩ := ih merged hnodup hready hcycle
      refine ⟨forks', merged', ?_, hsteps, hend⟩
      rw [mergeEach, Eff.bind_of_ok hrun, Bool.or_false]
      exact hrest
    · have hready₁ : ∀ a ∈ heads, Ready forks₁ a := by
        intro a ha
        refine hc.ready ?_ (hready a ha)
        rintro rfl
        exact hhead ha
      have hcycle₁ : ∀ cycle, ¬ClosedCycle forks₁ cycle := fun cycle h =>
        hcycle _ (hc.cycle_before h)
      obtain ⟨forks', merged', hrest, hsteps, hend⟩ := ih true hnodup hready₁ hcycle₁
      refine ⟨forks', merged', ?_, .head ⟨_, _, _, _, hc⟩ hsteps, .inr ?_⟩
      · rw [mergeEach, Eff.bind_of_ok hrun, Bool.or_true]
        exact hrest
      · rcases hend with ⟨rfl, rfl⟩ | ⟨rfl, hlt⟩
        · exact ⟨rfl, hc.card_lt⟩
        · exact ⟨rfl, hlt.trans hc.card_lt⟩
    · exact absurd (closedCycle_self hsole) (hcycle _)

/-- A ring outlives a pass that returns, and a pass that merged nothing found nothing to merge. -/
theorem mergeEach_ok {heads : List Bytes} {merged merged' : Bool} {forks forks' : Forks}
    (hnodup : heads.Nodup) (hready : ∀ a ∈ heads, Ready forks a)
    (hrun : mergeEach heads merged forks = (.ok merged', forks')) :
    ((∃ cycle, ClosedCycle forks cycle) → ∃ cycle, ClosedCycle forks' cycle) ∧
    (merged' = false → merged = false ∧ ∀ a ∈ heads, ∀ child, forks.get? a = some child →
      forks.get? child.root = none) := by
  induction heads generalizing merged forks with
  | nil =>
    obtain ⟨hr, rfl⟩ := Prod.mk.inj hrun
    cases hr
    exact ⟨id, fun h => ⟨h, nofun⟩⟩
  | cons head heads ih =>
    obtain ⟨hhead, hnodup⟩ := List.nodup_cons.mp hnodup
    obtain ⟨hfirst, hready⟩ := List.forall_mem_cons.mp hready
    obtain ⟨done, forks₁, hdone, hrest⟩ := Eff.bind_eq_ok.mp hrun
    rcases mergeHead_cases hfirst with
      ⟨hnone, habsent⟩ | ⟨forks₁', root, child, rootFork, hstep, hc⟩ | ⟨hraise, -⟩
    · rw [hnone] at hdone
      obtain ⟨hr, rfl⟩ := Prod.mk.inj hdone
      cases hr
      obtain ⟨hkeep, hfalse⟩ := ih hnodup hready hrest
      refine ⟨hkeep, fun h => ?_⟩
      obtain ⟨hmerged, hall⟩ := hfalse h
      rw [Bool.or_false] at hmerged
      exact ⟨hmerged, List.forall_mem_cons.mpr ⟨habsent, hall⟩⟩
    · rw [hstep] at hdone
      obtain ⟨hr, rfl⟩ := Prod.mk.inj hdone
      cases hr
      have hready₁ : ∀ a ∈ heads, Ready forks₁' a := by
        intro a ha
        refine hc.ready ?_ (hready a ha)
        rintro rfl
        exact hhead ha
      obtain ⟨hkeep, hfalse⟩ := ih hnodup hready₁ hrest
      refine ⟨?_, fun h => ?_⟩
      · rintro ⟨cycle, h⟩
        exact hkeep ⟨_, hc.cycle_after h⟩
      · have hmerged := (hfalse h).1
        rw [Bool.or_true] at hmerged
        cases hmerged
    · rw [hdone] at hraise
      cases hraise

/-- With a ring in the table a pass that returns has merged something and left a ring. -/
theorem mergeForks_of_cycle {forks forks' : Forks} {cycle : Set Bytes} {merged : Bool}
    (h : ClosedCycle forks cycle) (hrun : mergeForks forks = (.ok merged, forks')) :
    merged = true ∧ ∃ cycle', ClosedCycle forks' cycle' := by
  rw [mergeForks, Eff.read_bind] at hrun
  obtain ⟨hkeep, hfalse⟩ := mergeEach_ok (nodup_mergeHeads forks)
    (fun a ha => ready_of_mem_mergeHeads ha) hrun
  refine ⟨?_, hkeep ⟨cycle, h⟩⟩
  by_contra hmerged
  obtain ⟨b, hb⟩ := h.nonempty
  obtain ⟨a, ha, child, hchild, hfull, rfl⟩ := h.extends_mem b hb
  obtain ⟨_, -, rootFork, hroot, hrootFull, -⟩ := h.extends_mem _ ha
  obtain ⟨c, -, hsole⟩ := h.sole _ ha
  obtain rfl : b = c := (hsole b).mp ⟨child, hchild, hfull, rfl⟩
  have hmem : b ∈ mergeHeads forks :=
    mem_mergeHeads.mpr ⟨child, rootFork, hchild, hroot, hfull, hrootFull, hsole⟩
  have hnone := (hfalse (Bool.eq_false_of_not_eq_true hmerged)).2 b hmem child hchild
  rw [hroot] at hnone
  cases hnone

theorem mergeAllForks_of_cycle {fuel : Nat} {forks forks' : Forks} {cycle : Set Bytes}
    (h : ClosedCycle forks cycle) : mergeAllForks fuel forks ≠ (.ok (), forks') := by
  induction fuel generalizing forks cycle with
  | zero => nofun
  | succ fuel ih =>
    intro hrun
    obtain ⟨merged, forks₁, hpass, hrest⟩ := Eff.bind_eq_ok.mp hrun
    obtain ⟨rfl, cycle', h'⟩ := mergeForks_of_cycle h hpass
    exact ih h' hrest

theorem mergeAllForks_returns {fuel : Nat} {forks : Forks}
    (hcycle : ∀ cycle, ¬ClosedCycle forks cycle) (hfuel : (headSet forks).card < fuel) :
    ∃ forks', mergeAllForks fuel forks = (.ok (), forks') ∧ Merges forks forks' := by
  induction fuel generalizing forks with
  | zero => exact absurd hfuel (Nat.not_lt_zero _)
  | succ fuel ih =>
    obtain ⟨forks₁, merged, hpass, hsteps, hend⟩ := mergeEach_returns false
      (nodup_mergeHeads forks) (fun a ha => ready_of_mem_mergeHeads ha) hcycle
    have hforks : mergeForks forks = (.ok merged, forks₁) := by
      rw [mergeForks, Eff.read_bind]
      exact hpass
    rw [mergeAllForks, Eff.bind_of_ok hforks]
    rcases hend with ⟨rfl, rfl⟩ | ⟨rfl, hlt⟩
    · exact ⟨forks₁, rfl, hsteps⟩
    · have hcycle₁ : ∀ cycle, ¬ClosedCycle forks₁ cycle := by
        clear hpass hforks hlt ih
        induction hsteps with
        | refl => exact hcycle
        | tail _ hstep ih =>
          obtain ⟨_, _, _, _, hc⟩ := hstep
          exact fun cycle h => ih _ (hc.cycle_before h)
      obtain ⟨forks', hrun, hrest⟩ := ih hcycle₁ (by omega)
      exact ⟨forks', hrun, hsteps.trans hrest⟩

/-- The heads that may be merged under `head`: its root, the root of that, and so on down. -/
inductive Line (forks : Forks) : Bytes → List Bytes → Prop
  | single {head : Bytes} (hhead : forks.get? head ≠ none) : Line forks head [head]
  | cons {head : Bytes} {child : Fork} {line : List Bytes} (hchild : forks.get? head = some child)
      (hfull : isFullyVerified child = true) (hsole : SoleChild forks child.root head)
      (rest : Line forks child.root line) : Line forks head (head :: line)

/-- The fork that stands at `head` after the forks of its line were merged into it. -/
inductive MergedFrom (forks : Forks) : Bytes → List Bytes → Fork → Prop
  | single {head : Bytes} {fork : Fork} (hfork : forks.get? head = some fork) :
      MergedFrom forks head [head] fork
  | cons {head : Bytes} {child rootFork : Fork} {line : List Bytes}
      (hchild : forks.get? head = some child) (hfull : isFullyVerified child = true)
      (hsole : SoleChild forks child.root head) (rest : MergedFrom forks child.root line rootFork)
      (hroot : isFullyVerified rootFork = true) :
      MergedFrom forks head (head :: line) (unifiedFork head rootFork child)

theorem unifiedFork_unifiedFork (head root : Bytes) (oldest rootFork childFork : Fork) :
    unifiedFork head (unifiedFork root oldest rootFork) childFork =
      unifiedFork head oldest (unifiedFork head rootFork childFork) := by
  simp [unifiedFork, Finset.union_assoc]

/-- What was merged after a step was merged before it too, with the root among it where the head
is. -/
theorem Contracts.mergedFrom {forks forks' : Forks} {head root a : Bytes}
    {child rootFork fork : Fork} {line : List Bytes}
    (hc : Contracts forks forks' head root child rootFork) (h : MergedFrom forks' a line fork) :
    ∃ line', MergedFrom forks a line' fork ∧ (∀ b ∈ line, b ∈ line') ∧
      (head ∈ line → root ∈ line') := by
  obtain rfl : child.root = root := hc.child_root
  induction h with
  | @single a fork hfork =>
    by_cases hhead : a = head
    · subst hhead
      rw [hc.get?_head] at hfork
      cases hfork
      refine ⟨[a, child.root], .cons hc.child_at hc.child_verified hc.sole (.single hc.root_at)
        hc.root_verified, by simp, by simp⟩
    · have hroot : a ≠ child.root := by
        rintro rfl
        rw [hc.get?_root] at hfork
        cases hfork
      rw [hc.get?_of_ne hhead hroot] at hfork
      exact ⟨[a], .single hfork, by simp, by simp [Ne.symm hhead]⟩
  | @cons a child' rootFork' line hchild hfull hsole _ hroot ih =>
    obtain ⟨line', hline, hsub, hput⟩ := ih
    by_cases hhead : a = head
    · subst hhead
      rw [hc.get?_head] at hchild
      cases hchild
      have hsole' := hc.sole_before hc.root_ne hsole
      rw [if_pos rfl] at hsole'
      have hinner : MergedFrom forks child.root (child.root :: line')
          (unifiedFork child.root rootFork' rootFork) :=
        .cons hc.root_at hc.root_verified hsole' hline hroot
      refine ⟨a :: child.root :: line', ?_, ?_, by simp⟩
      · rw [← unifiedFork_unifiedFork a child.root]
        exact .cons hc.child_at hc.child_verified hc.sole hinner (isFullyVerified_unifiedFork ..)
      · intro b hb
        rcases List.mem_cons.mp hb with rfl | hb
        · exact List.mem_cons_self
        · exact List.mem_cons_of_mem _ (List.mem_cons_of_mem _ (hsub b hb))
    · have hne : a ≠ child.root := by
        rintro rfl
        rw [hc.get?_root] at hchild
        cases hchild
      rw [hc.get?_of_ne hhead hne] at hchild
      have hto : child'.root ≠ child.root := fun h =>
        hhead ((hc.sole a).mp ⟨child', hchild, hfull, h⟩)
      have hsole' := hc.sole_before hto hsole
      rw [if_neg hhead] at hsole'
      refine ⟨a :: line', .cons hchild hfull hsole' hline hroot, ?_, ?_⟩
      · intro b hb
        rcases List.mem_cons.mp hb with rfl | hb
        · exact List.mem_cons_self
        · exact List.mem_cons_of_mem _ (hsub b hb)
      · intro hb
        rcases List.mem_cons.mp hb with hb | hb
        · exact absurd hb.symm hhead
        · exact List.mem_cons_of_mem _ (hput hb)

namespace MergedFrom

variable {forks : Forks} {head : Bytes} {fork : Fork} {line : List Bytes}

theorem isLine (h : MergedFrom forks head line fork) : Line forks head line := by
  induction h with
  | single hfork =>
    refine .single ?_
    rw [hfork]
    exact Option.some_ne_none _
  | cons hchild hfull hsole _ _ ih => exact .cons hchild hfull hsole ih

theorem mem_peers (h : MergedFrom forks head line fork) (p : Bytes) :
    p ∈ fork.peers ↔ ∃ a ∈ line, ∃ g, forks.get? a = some g ∧ p ∈ g.peers := by
  induction h with
  | @single head fork hfork => simp [hfork]
  | @cons head child rootFork line hchild _ _ _ _ ih =>
    have hunion : p ∈ (unifiedFork head rootFork child).peers ↔
        p ∈ rootFork.peers ∨ p ∈ child.peers := Finset.mem_union
    rw [hunion, ih]
    simp [hchild, or_comm]

/-- The fork at the end of the line gives the merged fork its root. -/
theorem root_eq (h : MergedFrom forks head line fork) : ∃ last oldest,
    line.getLast? = some last ∧ forks.get? last = some oldest ∧ fork.root = oldest.root := by
  induction h with
  | @single head fork hfork => exact ⟨head, fork, rfl, hfork, rfl⟩
  | cons _ _ _ _ _ ih =>
    obtain ⟨last, oldest, hlast, holdest, hroot⟩ := ih
    exact ⟨last, oldest, by simp [List.getLast?_cons, hlast], holdest, hroot⟩

end MergedFrom

/-- How a fork of the table after the passes comes from the forks of a line of the table before:
it has their peers, and if it is not the fork of its head unchanged it is fully verified down to
the root of the last of them. -/
structure MergedAs (forks : Forks) (head : Bytes) (line : List Bytes) (fork : Fork) : Prop where
  isLine : Line forks head line
  peers : ∀ p, p ∈ fork.peers ↔ ∃ a ∈ line, ∃ g, forks.get? a = some g ∧ p ∈ g.peers
  result : line = [head] ∧ forks.get? head = some fork ∨
    isFullyVerified fork = true ∧ ∃ last oldest, line.getLast? = some last ∧
      forks.get? last = some oldest ∧ fork.root = oldest.root

theorem MergedFrom.mergedAs {forks : Forks} {head : Bytes} {fork : Fork} {line : List Bytes}
    (h : MergedFrom forks head line fork) : MergedAs forks head line fork where
  isLine := h.isLine
  peers := h.mem_peers
  result := by
    have hroot := h.root_eq
    cases h with
    | single hfork => exact .inl ⟨rfl, hfork⟩
    | cons => exact .inr ⟨isFullyVerified_unifiedFork .., hroot⟩

theorem merges_mergedFrom {forks forks' : Forks} (h : Merges forks forks') :
    (∀ head fork, forks'.get? head = some fork → ∃ line, MergedFrom forks head line fork) ∧
    (∀ a, forks.get? a ≠ none → ∃ head fork line, forks'.get? head = some fork ∧
      MergedFrom forks head line fork ∧ a ∈ line) := by
  induction h using Relation.ReflTransGen.head_induction_on with
  | refl =>
    refine ⟨fun head fork hfork => ⟨[head], .single hfork⟩, fun a ha => ?_⟩
    obtain ⟨fork, hfork⟩ := Option.ne_none_iff_exists'.mp ha
    exact ⟨a, fork, [a], hfork, .single hfork, List.mem_singleton_self a⟩
  | head hstep _ ih =>
    obtain ⟨head, root, child, rootFork, hc⟩ := hstep
    obtain ⟨hforks, hcover⟩ := ih
    constructor
    · intro a fork hfork
      obtain ⟨line, hline⟩ := hforks a fork hfork
      obtain ⟨line', hline', -⟩ := hc.mergedFrom hline
      exact ⟨line', hline'⟩
    · intro a ha
      by_cases hroot : a = root
      · have hhead := hcover head (by simp [hc.get?_head])
        obtain ⟨b, fork, line, hfork, hline, hmem⟩ := hhead
        obtain ⟨line', hline', -, hput⟩ := hc.mergedFrom hline
        exact ⟨b, fork, line', hfork, hline', hroot ▸ hput hmem⟩
      · have ha' := (Finset.mem_erase.mpr ⟨hroot, mem_headSet.mpr ha⟩)
        rw [← hc.headSet_eq, mem_headSet] at ha'
        obtain ⟨b, fork, line, hfork, hline, hmem⟩ := hcover a ha'
        obtain ⟨line', hline', hsub, -⟩ := hc.mergedFrom hline
        exact ⟨b, fork, line', hfork, hline', hsub a hmem⟩

/-- A head that is gone was the root of exactly one fully verified fork. -/
theorem merges_dropped {forks forks' : Forks} (h : Merges forks forks') {a : Bytes}
    (ha : forks.get? a ≠ none) (hgone : forks'.get? a = none) : ∃ b, SoleChild forks a b := by
  induction h using Relation.ReflTransGen.head_induction_on with
  | refl => exact absurd hgone ha
  | head hstep _ ih =>
    obtain ⟨head, root, child, rootFork, hc⟩ := hstep
    by_cases hroot : a = root
    · exact ⟨head, hroot ▸ hc.sole⟩
    · have ha' := (Finset.mem_erase.mpr ⟨hroot, mem_headSet.mpr ha⟩)
      rw [← hc.headSet_eq, mem_headSet] at ha'
      obtain ⟨b, hsole⟩ := ih ha'
      exact ⟨_, hc.sole_before hroot hsole⟩

/-- What merging may do to a table. -/
structure MergeOutcome (forks forks' : Forks) : Prop where
  kept : ∀ head, forks.get? head ≠ none → (∀ other, other ≠ head → ¬Extends forks other head) →
    forks'.get? head ≠ none
  dropped : ∀ head, forks.get? head ≠ none → forks'.get? head = none →
    ∃ other, SoleChild forks head other
  fork : ∀ head fork, forks'.get? head = some fork → ∃ line, MergedAs forks head line fork
  covered : ∀ a, forks.get? a ≠ none → ∃ head fork line, forks'.get? head = some fork ∧
    MergedAs forks head line fork ∧ a ∈ line

/-- Repeating the passes ends, without a raise and with the outcome it should have, exactly when no
ring of fully verified forks is closed off from the others. -/
theorem merge_all_forks_iff (forks : Forks) :
    (∃ fuel forks', mergeAllForks fuel forks = (.ok (), forks') ∧ MergeOutcome forks forks') ↔
      ¬∃ cycle, ClosedCycle forks cycle := by
  constructor
  · rintro ⟨fuel, forks', hrun, -⟩ ⟨cycle, h⟩
    exact mergeAllForks_of_cycle h hrun
  · intro hcycle
    have hcycle : ∀ cycle, ¬ClosedCycle forks cycle := not_exists.mp hcycle
    obtain ⟨forks', hrun, hsteps⟩ := mergeAllForks_returns hcycle (Nat.lt_succ_self _)
    obtain ⟨hforks, hcover⟩ := merges_mergedFrom hsteps
    refine ⟨_, forks', hrun, ?_, fun head h hgone => merges_dropped hsteps h hgone, ?_, ?_⟩
    · intro head hhead hno hgone
      obtain ⟨other, hsole⟩ := merges_dropped hsteps hhead hgone
      by_cases hself : other = head
      · subst hself
        exact hcycle _ (closedCycle_self hsole)
      · exact hno other hself hsole.extends
    · intro head fork hfork
      obtain ⟨line, hline⟩ := hforks head fork hfork
      exact ⟨line, hline.mergedAs⟩
    · intro a ha
      obtain ⟨head, fork, line, hfork, hline, hmem⟩ := hcover a ha
      exact ⟨head, fork, line, hfork, hline.mergedAs, hmem⟩

/-- A fully verified fork that names its own head as its root. -/
def selfRooted : Fork where
  head := List.replicate 32 7
  root := List.replicate 32 7
  headerVerifiedUpTo := some (List.replicate 32 7)
  transactionsVerifiedUpTo := some (List.replicate 32 7)

/-- A table that was imported with such a fork raises in its first pass. -/
theorem self_rooted_import_raises : ∃ forks,
    importForks selfRooted.toBytes Dict.empty = (.ok (), forks) ∧
    (mergeForks forks).1 = .error .keyError ∧
    ¬∃ fuel forks', mergeAllForks fuel forks = (.ok (), forks') ∧ MergeOutcome forks forks' := by
  have himport : (importForks selfRooted.toBytes Dict.empty).1 = .ok () := by decide +kernel
  have hraise : (mergeForks (importForks selfRooted.toBytes Dict.empty).2).1 = .error .keyError := by
    decide +kernel
  refine ⟨_, Eff.eq_of_fst himport, hraise, ?_⟩
  rintro ⟨fuel, forks', hrun, -⟩
  cases fuel with
  | zero => cases hrun
  | succ fuel =>
    rw [mergeAllForks, Eff.bind_of_error (Eff.eq_of_fst hraise)] at hrun
    cases hrun

end Astreum
