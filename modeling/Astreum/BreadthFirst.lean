import Mathlib.Data.List.Nodup
import Mathlib.Data.List.Pairwise
import Mathlib.Data.List.Perm.Subperm
import Mathlib.Order.Nat

namespace BreadthFirst

variable {α β : Type}

/-- What is not seen yet, each key once. -/
def fresh [DecidableEq β] (key : α → β) : List β → List α → List α
  | _, [] => []
  | seen, x :: xs =>
    if key x ∈ seen then fresh key seen xs else x :: fresh key (seen ++ [key x]) xs

variable (next : α → List α) (key : α → β)

/-- What is reached from the start in so many steps. -/
inductive Steps (start : α) : Nat → α → Prop
  | zero : Steps start 0 start
  | succ {n : Nat} {x y : α} (hx : Steps start n x) (hy : y ∈ next x) : Steps start (n + 1) y

/-- Everything that is reached, each key once, and what is nearer comes first. -/
structure Order (start : α) (order : List α) : Prop where
  once : (order.map key).Nodup
  reached : ∀ x ∈ order, ∃ n, Steps next start n x
  complete : ∀ n y, Steps next start n y → ∃ x ∈ order, key x = key y
  nearer : order.Pairwise fun x y => ∀ n z, key z = key y → Steps next start n z →
    ∃ m ≤ n, Steps next start m x

/-- Where a search stands: what is done and what is queued, each with its distance. -/
structure Search (start : α) (done queue : List (α × Nat)) : Prop where
  once : ((done ++ queue).map fun p => key p.1).Nodup
  steps : ∀ p ∈ done ++ queue, Steps next start p.2 p.1
  sorted : (done ++ queue).Pairwise fun p q => p.2 ≤ q.2
  near : ∀ p ∈ done ++ queue, ∀ q ∈ queue, p.2 ≤ q.2 + 1
  closed : ∀ p ∈ done, ∀ y ∈ next p.1, ∃ q ∈ done ++ queue, key q.1 = key y ∧ q.2 ≤ p.2 + 1
  started : (start, 0) ∈ done ++ queue

section Fresh

variable [DecidableEq β] {key : α → β} {seen : List β} {xs : List α}

theorem fresh_subset (seen : List β) (xs : List α) : fresh key seen xs ⊆ xs := by
  induction xs generalizing seen with
  | nil => exact List.Subset.refl _
  | cons x xs ih =>
    rw [fresh]
    split
    · exact List.subset_cons_of_subset x (ih seen)
    · exact List.cons_subset_cons x (ih _)

theorem key_fresh_not_mem {x : α} (h : x ∈ fresh key seen xs) : key x ∉ seen := by
  induction xs generalizing seen with
  | nil => cases h
  | cons y ys ih =>
    rw [fresh] at h
    split at h
    · exact ih h
    · rename_i hnew
      rcases List.mem_cons.mp h with rfl | h
      · exact hnew
      · exact fun hin => ih h (List.mem_append_left _ hin)

theorem nodup_fresh (seen : List β) (xs : List α) : ((fresh key seen xs).map key).Nodup := by
  induction xs generalizing seen with
  | nil => exact List.nodup_nil
  | cons x xs ih =>
    rw [fresh]
    split
    · exact ih seen
    · rw [List.map_cons, List.nodup_cons]
      refine ⟨fun hin => ?_, ih _⟩
      obtain ⟨y, hy, hkey⟩ := List.mem_map.mp hin
      exact key_fresh_not_mem hy (List.mem_append_right _ (by rw [hkey]; exact List.mem_cons_self))

variable (key) in
/-- The key of everything is seen or fresh. -/
theorem key_mem_fresh {x : α} (seen : List β) (h : x ∈ xs) :
    key x ∈ seen ∨ key x ∈ (fresh key seen xs).map key := by
  induction xs generalizing seen with
  | nil => cases h
  | cons y ys ih =>
    rw [fresh]
    split
    · rename_i hin
      rcases List.mem_cons.mp h with rfl | h
      · exact .inl hin
      · exact ih seen h
    · rw [List.map_cons, List.mem_cons]
      rcases List.mem_cons.mp h with rfl | h
      · exact .inr (.inl rfl)
      · rcases ih (seen ++ [key y]) h with hin | hin
        · rcases List.mem_append.mp hin with hin | hin
          · exact .inl hin
          · exact .inr (.inl (List.mem_singleton.mp hin))
        · exact .inr (.inr hin)

end Fresh

section Searching

variable {next : α → List α} {key : α → β} {start : α} {done queue : List (α × Nat)}
  {p : α × Nat}

theorem Search.init (start : α) : Search next key start [] [(start, 0)] where
  once := List.nodup_singleton _
  steps := by
    intro p hp
    obtain rfl := List.mem_singleton.mp hp
    exact .zero
  sorted := List.pairwise_singleton _ _
  near := by
    intro p hp q hq
    obtain rfl := List.mem_singleton.mp hp
    exact Nat.zero_le _
  closed := fun p hp => absurd hp List.not_mem_nil
  started := List.mem_singleton_self _

/-- What a step of the search preserves. -/
theorem Search.step [DecidableEq β] (h : Search next key start done (p :: queue)) (seen : List β)
    (hseen : ∀ k, k ∈ seen ↔ k ∈ (done ++ p :: queue).map fun q => key q.1) :
    Search next key start (done ++ [p])
      (queue ++ (fresh key seen (next p.1)).map fun y => (y, p.2 + 1)) := by
  have hlist : ∀ new : List (α × Nat),
      done ++ [p] ++ (queue ++ new) = (done ++ p :: queue) ++ new := fun new => by simp
  have hp : p ∈ done ++ p :: queue := List.mem_append_right _ List.mem_cons_self
  have hold : ∀ q ∈ done ++ p :: queue, q.2 ≤ p.2 + 1 := fun q hq =>
    h.near q hq p List.mem_cons_self
  have hqueue : ∀ q ∈ queue, p.2 ≤ q.2 := by
    have hsorted := (List.pairwise_append.mp h.sorted).2.1
    exact (List.pairwise_cons.mp hsorted).1
  refine ⟨?_, ?_, ?_, ?_, ?_, ?_⟩
  · rw [hlist, List.map_append, List.nodup_append, List.map_map]
    refine ⟨h.once, nodup_fresh seen (next p.1), ?_⟩
    rintro a ha b hb rfl
    obtain ⟨y, hy, rfl⟩ := List.mem_map.mp hb
    exact key_fresh_not_mem hy ((hseen _).mpr ha)
  · intro q hq
    rw [hlist] at hq
    rcases List.mem_append.mp hq with hq | hq
    · exact h.steps q hq
    · obtain ⟨y, hy, rfl⟩ := List.mem_map.mp hq
      exact .succ (h.steps p hp) (fresh_subset _ _ hy)
  · rw [hlist, List.pairwise_append]
    refine ⟨h.sorted, List.pairwise_map.mpr (List.pairwise_of_forall fun _ _ => le_rfl), ?_⟩
    intro q hq r hr
    obtain ⟨y, -, rfl⟩ := List.mem_map.mp hr
    exact hold q hq
  · intro q hq r hr
    rw [hlist] at hq
    rcases List.mem_append.mp hr with hr | hr
    · rcases List.mem_append.mp hq with hq | hq
      · exact h.near q hq r (List.mem_cons_of_mem _ hr)
      · obtain ⟨y, -, rfl⟩ := List.mem_map.mp hq
        exact Nat.succ_le_succ (hqueue r hr)
    · obtain ⟨z, -, rfl⟩ := List.mem_map.mp hr
      rcases List.mem_append.mp hq with hq | hq
      · exact (hold q hq).trans (Nat.le_succ _)
      · obtain ⟨y, -, rfl⟩ := List.mem_map.mp hq
        exact Nat.le_succ _
  · intro q hq y hy
    rw [hlist]
    rcases List.mem_append.mp hq with hq | hq
    · obtain ⟨r, hr, hkey, hle⟩ := h.closed q hq y hy
      exact ⟨r, List.mem_append_left _ hr, hkey, hle⟩
    · obtain rfl := List.mem_singleton.mp hq
      rcases key_mem_fresh key seen hy with hin | hin
      · obtain ⟨r, hr, hkey⟩ := List.mem_map.mp ((hseen _).mp hin)
        exact ⟨r, List.mem_append_left _ hr, hkey, hold r hr⟩
      · obtain ⟨z, hz, hkey⟩ := List.mem_map.mp hin
        exact ⟨(z, q.2 + 1), List.mem_append_right _ (List.mem_map_of_mem hz), hkey, le_rfl⟩
  · rw [hlist]
    exact List.mem_append_left _ h.started

/-- A search with an empty queue has found everything, each at its distance. -/
theorem Search.label (h : Search next key start done [])
    (hkey : ∀ x y, (∃ n, Steps next start n x) → (∃ n, Steps next start n y) → key x = key y →
      ∀ z ∈ next x, ∃ z' ∈ next y, key z' = key z) {n : Nat} {y : α}
    (hy : Steps next start n y) : ∃ q ∈ done, key q.1 = key y ∧ q.2 ≤ n := by
  induction hy with
  | zero =>
    have hstart := h.started
    rw [List.append_nil] at hstart
    exact ⟨_, hstart, rfl, le_rfl⟩
  | @succ n x y hx hy ih =>
    obtain ⟨q, hq, hqx, hle⟩ := ih
    have hq' : Steps next start q.2 q.1 := h.steps q (List.mem_append_left _ hq)
    obtain ⟨y', hy', hyy⟩ := hkey x q.1 ⟨n, hx⟩ ⟨q.2, hq'⟩ hqx.symm y hy
    obtain ⟨r, hr, hry, hle'⟩ := h.closed q hq y' hy'
    rw [List.append_nil] at hr
    exact ⟨r, hr, hry.trans hyy, hle'.trans (Nat.succ_le_succ hle)⟩

theorem Search.order (h : Search next key start done [])
    (hkey : ∀ x y, (∃ n, Steps next start n x) → (∃ n, Steps next start n y) → key x = key y →
      ∀ z ∈ next x, ∃ z' ∈ next y, key z' = key z) :
    Order next key start (done.map Prod.fst) := by
  have honce := h.once
  have hsorted := h.sorted
  rw [List.append_nil] at honce hsorted
  refine ⟨?_, ?_, ?_, ?_⟩
  · rw [List.map_map]
    exact honce
  · intro x hx
    obtain ⟨p, hp, rfl⟩ := List.mem_map.mp hx
    exact ⟨p.2, h.steps p (List.mem_append_left _ hp)⟩
  · intro n y hy
    obtain ⟨q, hq, hqy, -⟩ := h.label hkey hy
    exact ⟨q.1, List.mem_map_of_mem hq, hqy⟩
  · rw [List.pairwise_map]
    refine hsorted.imp_of_mem fun {p q} hp hq hle n z hz hsteps => ?_
    obtain ⟨r, hr, hrz, hrn⟩ := h.label hkey hsteps
    have hsame : r = q := List.inj_on_of_nodup_map honce hr hq (hrz.trans hz)
    exact ⟨p.2, hle.trans (hsame ▸ hrn), h.steps p (List.mem_append_left _ hp)⟩

/-- A search never comes to more than there is. -/
theorem Search.length_le {bound : List β} (h : Search next key start done queue)
    (hbound : ∀ n x, Steps next start n x → key x ∈ bound) :
    (done ++ queue).length ≤ bound.length := by
  have hsub : ((done ++ queue).map fun p => key p.1) ⊆ bound := by
    intro k hk
    obtain ⟨p, hp, rfl⟩ := List.mem_map.mp hk
    exact hbound _ _ (h.steps p hp)
  have hle := (List.subperm_of_subset h.once hsub).length_le
  rwa [List.length_map] at hle

/-- What is done so far is the beginning of an order of all that is reached. -/
theorem Search.exists_order [DecidableEq β] {bound : List β} (h : Search next key start done queue)
    (hkey : ∀ x y, (∃ n, Steps next start n x) → (∃ n, Steps next start n y) → key x = key y →
      ∀ z ∈ next x, ∃ z' ∈ next y, key z' = key z)
    (hbound : ∀ n x, Steps next start n x → key x ∈ bound) :
    ∃ order, done.map Prod.fst <+: order ∧ Order next key start order := by
  induction hleft : bound.length - done.length generalizing done queue with
  | zero =>
    have hle := h.length_le hbound
    rw [List.length_append] at hle
    have hnil : queue = [] := List.length_eq_zero_iff.mp (by omega)
    subst hnil
    exact ⟨_, List.prefix_rfl, h.order hkey⟩
  | succ left ih =>
    cases queue with
    | nil => exact ⟨_, List.prefix_rfl, h.order hkey⟩
    | cons p queue =>
      have hstep := h.step ((done ++ p :: queue).map fun q => key q.1) fun _ => Iff.rfl
      obtain ⟨order, hprefix, horder⟩ := ih hstep (by
        rw [List.length_append, List.length_singleton]
        omega)
      rw [List.map_append] at hprefix
      exact ⟨order, (List.prefix_append _ _).trans hprefix, horder⟩

end Searching

end BreadthFirst
