import Mathlib.Data.List.Basic
import Mathlib.Tactic.Ring

namespace Astreum

namespace HashTree

variable {α : Type} (f : α → α → α)

/-- The level above: pairs are joined, and an entry without a pair goes up as it is. -/
def pairUp : List α → List α
  | a :: b :: l => f a b :: pairUp l
  | l => l

/-- The levels from the leaves up to the root. -/
def levelsFrom : Nat → List α → List (List α)
  | 0, l => [l]
  | n + 1, l => if l.length ≤ 1 then [l] else l :: levelsFrom n (pairUp f l)

/-- The entry that stands beside another one. -/
def sibling (i : Nat) : Nat := if i % 2 = 1 then i - 1 else i + 1

/-- The siblings on the way from an entry to the root, in every level but the root's. -/
def proofOf : List (List α) → Nat → List α
  | level :: level' :: levels, i =>
    level[sibling i]?.toList ++ proofOf (level' :: levels) (i / 2)
  | _, _ => []

/-- The way up from an entry with the siblings of a proof: what is left of the proof, and the
root. -/
def climb : Nat → Nat → Nat → α → List α → Option (List α × α)
  | 0, _, _, r, proof => some (proof, r)
  | n + 1, i, last, r, proof =>
    if last = 0 then some (proof, r)
    else if i % 2 = 1 then match proof with
      | [] => none
      | s :: proof => climb n (i / 2) (last / 2) (f s r) proof
    else if i < last then match proof with
      | [] => none
      | s :: proof => climb n (i / 2) (last / 2) (f r s) proof
    else climb n (i / 2) (last / 2) r proof

def rootOf (levels : List (List α)) : Option α := levels.getLast?.bind List.head?

variable {f}

theorem length_pairUp (l : List α) : (pairUp f l).length = (l.length + 1) / 2 := by
  induction l using pairUp.induct with
  | case1 a b l ih =>
    rw [pairUp, List.length_cons, ih, List.length_cons, List.length_cons]
    omega
  | case2 l hl =>
    rcases l with - | ⟨a, - | ⟨b, l⟩⟩
    · simp [pairUp]
    · simp [pairUp]
    · exact absurd rfl (hl a b l)

/-- The entry above the pair `2 * k` and `2 * k + 1`. -/
theorem getElem?_pairUp (l : List α) (k : Nat) :
    (pairUp f l)[k]? = match l[2 * k]?, l[2 * k + 1]? with
      | some a, some b => some (f a b)
      | some a, none => some a
      | none, _ => none := by
  induction l using pairUp.induct generalizing k with
  | case1 a b l ih =>
    cases k with
    | zero => rfl
    | succ k => exact ih k
  | case2 l hl =>
    rcases l with - | ⟨a, - | ⟨b, l⟩⟩
    · rfl
    · cases k with
      | zero => rfl
      | succ k => rfl
    · exact absurd rfl (hl a b l)

theorem levelsFrom_ne_nil (n : Nat) (l : List α) : levelsFrom f n l ≠ [] := by
  cases n with
  | zero => exact List.cons_ne_nil _ _
  | succ n =>
    rw [levelsFrom]
    split
    · exact List.cons_ne_nil _ _
    · exact List.cons_ne_nil _ _

theorem proofOf_cons {level : List α} {levels : List (List α)} (h : levels ≠ []) (i : Nat) :
    proofOf (level :: levels) i = level[sibling i]?.toList ++ proofOf levels (i / 2) := by
  cases levels with
  | nil => exact absurd rfl h
  | cons level' levels => rfl

theorem rootOf_cons {level : List α} {levels : List (List α)} (h : levels ≠ []) :
    rootOf (level :: levels) = rootOf levels := by
  rw [rootOf, List.getLast?_cons_of_ne_nil h, rootOf]

theorem climb_root (n i : Nat) (r : α) (proof : List α) :
    climb f (n + 1) i 0 r proof = some (proof, r) := by
  simp [climb]

theorem climb_odd {n i last : Nat} {r s : α} {proof : List α} (hlast : last ≠ 0)
    (hodd : i % 2 = 1) :
    climb f (n + 1) i last r (s :: proof)
      = climb f n (i / 2) (last / 2) (f s r) proof := by
  simp [climb, hlast, hodd]

theorem climb_even {n i last : Nat} {r s : α} {proof : List α} (hlast : last ≠ 0)
    (hodd : ¬i % 2 = 1) (hbeside : i < last) :
    climb f (n + 1) i last r (s :: proof)
      = climb f n (i / 2) (last / 2) (f r s) proof := by
  simp [climb, hlast, hodd, hbeside]

theorem climb_up {n i last : Nat} {r : α} {proof : List α} (hlast : last ≠ 0)
    (hodd : ¬i % 2 = 1) (hbeside : ¬i < last) :
    climb f (n + 1) i last r proof = climb f n (i / 2) (last / 2) r proof := by
  simp [climb, hlast, hodd, hbeside]

/-- A root alone is its own proof. -/
theorem climb_single (m : Nat) {l : List α} {i : Nat} {r : α} (hr : l[i]? = some r)
    (hl : l.length ≤ 1) (hm : l.length ≤ m) :
    rootOf [l] = some r ∧ climb f m i (l.length - 1) r (proofOf [l] i) = some ([], r) := by
  have hi : i < l.length := (List.getElem?_eq_some_iff.mp hr).1
  have hlast : l.length - 1 = 0 := by omega
  obtain ⟨m, rfl⟩ : ∃ m', m = m' + 1 := ⟨m - 1, by omega⟩
  obtain ⟨x, rfl⟩ := List.length_eq_one_iff.mp (by omega : l.length = 1)
  have hi0 : i = 0 := by
    rw [List.length_singleton] at hi
    omega
  subst hi0
  cases hr
  exact ⟨rfl, climb_root m 0 r []⟩

/-- One level up: the sibling is taken from the proof where there is one. -/
theorem climb_step (m : Nat) {l : List α} {i : Nat} {r : α} (rest : List α)
    (hr : l[i]? = some r) (hl : 1 < l.length) :
    ∃ r', (pairUp f l)[i / 2]? = some r' ∧
      climb f (m + 1) i (l.length - 1) r (l[sibling i]?.toList ++ rest)
        = climb f m (i / 2) ((pairUp f l).length - 1) r' rest := by
  have hi : i < l.length := (List.getElem?_eq_some_iff.mp hr).1
  have hlast : l.length - 1 ≠ 0 := by omega
  have hhalf : (l.length - 1) / 2 = (pairUp f l).length - 1 := by
    rw [length_pairUp]
    omega
  by_cases hodd : i % 2 = 1
  · obtain ⟨s, hs⟩ : ∃ s, l[i - 1]? = some s := ⟨_, List.getElem?_eq_getElem (by omega)⟩
    have hleft : 2 * (i / 2) = i - 1 := by omega
    have hright : i - 1 + 1 = i := by omega
    refine ⟨f s r, ?_, ?_⟩
    · rw [getElem?_pairUp, hleft, hright, hs, hr]
    · rw [sibling, if_pos hodd, hs, ← hhalf]
      exact climb_odd hlast hodd
  · have hleft : 2 * (i / 2) = i := by omega
    by_cases hbeside : i < l.length - 1
    · obtain ⟨s, hs⟩ : ∃ s, l[i + 1]? = some s := ⟨_, List.getElem?_eq_getElem (by omega)⟩
      refine ⟨f r s, ?_, ?_⟩
      · rw [getElem?_pairUp, hleft, hr, hs]
      · rw [sibling, if_neg hodd, hs, ← hhalf]
        exact climb_even hlast hodd hbeside
    · have hs : l[i + 1]? = none := List.getElem?_eq_none (by omega)
      refine ⟨r, ?_, ?_⟩
      · rw [getElem?_pairUp, hleft, hr, hs]
      · rw [sibling, if_neg hodd, hs, ← hhalf]
        exact climb_up hlast hodd hbeside

/-- A proof leads from its entry to the root, and is used up on the way. -/
theorem climb_proofOf (n m : Nat) {l : List α} {i : Nat} {r : α} (hr : l[i]? = some r)
    (hn : l.length ≤ n + 1) (hm : l.length ≤ m) :
    ∃ root, rootOf (levelsFrom f n l) = some root ∧
      climb f m i (l.length - 1) r (proofOf (levelsFrom f n l) i) = some ([], root) := by
  induction n generalizing l i r m with
  | zero => exact ⟨r, climb_single m hr hn hm⟩
  | succ n ih =>
    by_cases hl : l.length ≤ 1
    · rw [levelsFrom, if_pos hl]
      exact ⟨r, climb_single m hr hl hm⟩
    · obtain ⟨m, rfl⟩ : ∃ m', m = m' + 1 := ⟨m - 1, by omega⟩
      have hne := levelsFrom_ne_nil (f := f) n (pairUp f l)
      have hlen := length_pairUp (f := f) l
      obtain ⟨r', hr', hstep⟩ := climb_step (f := f) m
        (proofOf (levelsFrom f n (pairUp f l)) (i / 2)) hr (by omega)
      obtain ⟨root, hroot, hclimb⟩ := ih m hr' (by omega) (by omega)
      rw [levelsFrom, if_neg hl, rootOf_cons hne, proofOf_cons hne, hstep]
      exact ⟨root, hroot, hclimb⟩

/-- A proof has at most as many entries as there are levels below the root. -/
theorem length_proofOf (k n : Nat) {l : List α} (i : Nat) (hl : l.length ≤ 2 ^ k) :
    (proofOf (levelsFrom f n l) i).length ≤ k := by
  induction k generalizing n l i with
  | zero =>
    have hone : l.length ≤ 1 := hl
    cases n with
    | zero => exact Nat.zero_le _
    | succ n =>
      rw [levelsFrom, if_pos hone]
      exact Nat.zero_le _
  | succ k ih =>
    cases n with
    | zero => exact Nat.zero_le _
    | succ n =>
      rw [levelsFrom]
      split
      · exact Nat.zero_le _
      · have hhalf : (pairUp f l).length ≤ 2 ^ k := by
          rw [length_pairUp]
          rw [Nat.pow_succ] at hl
          omega
        have hside : l[sibling i]?.toList.length ≤ 1 := by
          cases l[sibling i]? <;> simp
        have hrest := ih n (i / 2) hhalf
        rw [proofOf_cons (levelsFrom_ne_nil n _), List.length_append]
        omega

/-- One entry more than a power of two takes the longest proof there is. -/
theorem length_proofOf_succ (k n : Nat) {l : List α} {i : Nat} (hl : l.length = 2 ^ k + 1)
    (hi : i < 2 ^ k) (hn : l.length ≤ n + 1) :
    (proofOf (levelsFrom f n l) i).length = k + 1 := by
  have hpos : 0 < 2 ^ k := Nat.two_pow_pos k
  induction k generalizing n l i with
  | zero =>
    obtain ⟨n, rfl⟩ : ∃ n', n = n' + 1 := ⟨n - 1, by omega⟩
    obtain ⟨a, b, rfl⟩ := List.length_eq_two.mp hl
    have hi0 : i = 0 := Nat.lt_one_iff.mp hi
    have htop : levelsFrom f n (pairUp f [a, b]) = [[f a b]] := by
      cases n <;> simp [levelsFrom, pairUp]
    rw [levelsFrom, if_neg (by simp), htop, hi0]
    rfl
  | succ k ih =>
    rw [Nat.pow_succ] at hl hi
    have hpos' : 0 < 2 ^ k := Nat.two_pow_pos k
    obtain ⟨n, rfl⟩ : ∃ n', n = n' + 1 := ⟨n - 1, by omega⟩
    have hlen := length_pairUp (f := f) l
    have hrest := @ih n (pairUp f l) (i / 2) (by omega) (by omega) (by omega) hpos'
    have hside : sibling i < l.length := by
      rw [sibling]
      split <;> omega
    rw [levelsFrom, if_neg (by omega), proofOf_cons (levelsFrom_ne_nil n _), List.length_append,
      hrest, List.getElem?_eq_getElem hside]
    exact Nat.add_comm 1 _

variable {P : α → Prop}

theorem forall_pairUp (hf : ∀ a b, P (f a b)) {l : List α} (hl : ∀ a ∈ l, P a) :
    ∀ a ∈ pairUp f l, P a := by
  induction l using pairUp.induct with
  | case1 a b l ih =>
    intro x hx
    rcases List.mem_cons.mp hx with rfl | hx
    · exact hf a b
    · exact ih (fun y hy => hl y (List.mem_cons_of_mem _ (List.mem_cons_of_mem _ hy))) x hx
  | case2 l hshort =>
    rwa [pairUp]
    exact hshort

/-- What holds of the leaves and of every joined entry holds of a proof. -/
theorem forall_proofOf (hf : ∀ a b, P (f a b)) (n : Nat) {l : List α} (i : Nat)
    (hl : ∀ a ∈ l, P a) : ∀ a ∈ proofOf (levelsFrom f n l) i, P a := by
  induction n generalizing l i with
  | zero => exact fun a ha => absurd ha (List.not_mem_nil)
  | succ n ih =>
    rw [levelsFrom]
    split
    · exact fun a ha => absurd ha (List.not_mem_nil)
    · rw [proofOf_cons (levelsFrom_ne_nil n _)]
      intro a ha
      rcases List.mem_append.mp ha with ha | ha
      · exact hl a (List.mem_of_getElem? (Option.mem_toList.mp ha))
      · exact ih (i / 2) (forall_pairUp hf hl) a ha

theorem forall_rootOf (hf : ∀ a b, P (f a b)) (n : Nat) {l : List α} {root : α}
    (hl : ∀ a ∈ l, P a) (hroot : rootOf (levelsFrom f n l) = some root) : P root := by
  induction n generalizing l with
  | zero =>
    obtain ⟨l', hl', hhead⟩ := Option.bind_eq_some_iff.mp hroot
    cases hl'
    exact hl root (List.mem_of_head? hhead)
  | succ n ih =>
    rw [levelsFrom] at hroot
    split at hroot
    · obtain ⟨l', hl', hhead⟩ := Option.bind_eq_some_iff.mp hroot
      cases hl'
      exact hl root (List.mem_of_head? hhead)
    · rw [rootOf_cons (levelsFrom_ne_nil n _)] at hroot
      exact ih (forall_pairUp hf hl) hroot

end HashTree

end Astreum
