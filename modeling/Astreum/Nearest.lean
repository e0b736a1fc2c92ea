import Mathlib.Data.Finset.Card
import Mathlib.Data.List.Sort

namespace Nearest

variable {α : Type} (d : α → Nat)

/-- The list has the `k` nearest of what was seen, nearest first. -/
structure IsNearest (k : Nat) (seen : Finset α) (xs : List α) : Prop where
  mem : ∀ x ∈ xs, x ∈ seen
  sorted : xs.Pairwise fun x y => d x < d y
  length_le : xs.length ≤ k
  full : ∀ x ∈ seen, x ∉ xs → xs.length = k ∧ ∀ y ∈ xs, d y < d x

variable {d} {k : Nat} {seen : Finset α} {xs ys : List α}

theorem nodup_of_sorted (h : xs.Pairwise fun x y => d x < d y) : xs.Nodup := by
  refine h.imp fun {x y} hlt => ?_
  rintro rfl
  exact lt_irrefl _ hlt

theorem IsNearest.nil : IsNearest d k ∅ [] where
  mem := fun _ h => absurd h List.not_mem_nil
  sorted := List.Pairwise.nil
  length_le := Nat.zero_le k
  full := fun _ h => absurd h (Finset.notMem_empty _)

theorem length_le_of_subset (hnodup : xs.Nodup) (hsub : xs ⊆ ys) : xs.length ≤ ys.length :=
  (List.subperm_of_subset hnodup hsub).length_le

theorem lt_of_mem_take (hys : ys.Pairwise fun x y => d x < d y) {x y : α} (hx : x ∈ ys.take k)
    (hy : y ∈ ys.drop k) : d x < d y := by
  rw [← List.take_append_drop k ys] at hys
  exact (List.pairwise_append.mp hys).2.2 x hx y hy

/-- Nothing that one list of nearest has is left out of another. -/
theorem IsNearest.subset (h : IsNearest d k seen xs) (h' : IsNearest d k seen ys) : xs ⊆ ys := by
  intro x hx
  by_contra hnot
  obtain ⟨hlen, hnear⟩ := h'.full x (h.mem x hx) hnot
  -- `x` has one of the places of `xs`, so `xs` has none for some `y`
  obtain ⟨y, hy, hyx⟩ : ∃ y ∈ ys, y ∉ xs := by
    by_contra hall
    push Not at hall
    have hlong := length_le_of_subset
      (List.nodup_cons.mpr ⟨hnot, nodup_of_sorted h'.sorted⟩) (List.cons_subset.mpr ⟨hx, hall⟩)
    have hle := h.length_le
    rw [List.length_cons] at hlong
    omega
  have hxy := (h.full y (h'.mem y hy) hyx).2 x hx
  exact lt_asymm hxy (hnear y hy)

theorem IsNearest.unique (h : IsNearest d k seen xs) (h' : IsNearest d k seen ys) : xs = ys := by
  have hperm : xs.Perm ys :=
    (List.perm_ext_iff_of_nodup (nodup_of_sorted h.sorted) (nodup_of_sorted h'.sorted)).mpr
      fun _ => ⟨fun hx => h.subset h' hx, fun hy => h'.subset h hy⟩
  refine hperm.eq_of_pairwise ?_ h.sorted h'.sorted
  intro x y _ _ hxy hyx
  exact absurd hxy (lt_asymm hyx)

variable [DecidableEq α]

theorem IsNearest.length_eq (h : IsNearest d k seen xs) : xs.length = min k seen.card := by
  have hnodup := nodup_of_sorted h.sorted
  have hcard : xs.toFinset.card = xs.length := List.toFinset_card_of_nodup hnodup
  have hsub : xs.toFinset ⊆ seen := fun x hx => h.mem x (List.mem_toFinset.mp hx)
  have hle : xs.length ≤ seen.card := hcard ▸ Finset.card_le_card hsub
  by_cases hall : ∀ x ∈ seen, x ∈ xs
  · have heq : xs.toFinset = seen :=
      Finset.Subset.antisymm hsub fun x hx => List.mem_toFinset.mpr (hall x hx)
    have hlen := h.length_le
    rw [← heq, hcard]
    omega
  · push Not at hall
    obtain ⟨x, hx, hnot⟩ := hall
    have hfull := (h.full x hx hnot).1
    omega

/-- A new one is put in its place and the list is cut again: what was cut off before stays off. -/
theorem IsNearest.insert {x : α} (h : IsNearest d k seen xs)
    (hys : ys.Pairwise fun x y => d x < d y) (hmem : ∀ z, z ∈ ys ↔ z = x ∨ z ∈ xs) :
    IsNearest d k (insert x seen) (ys.take k) where
  mem := by
    intro z hz
    rcases (hmem z).mp (List.mem_of_mem_take hz) with rfl | hz
    · exact Finset.mem_insert_self _ _
    · exact Finset.mem_insert_of_mem (h.mem z hz)
  sorted := hys.sublist (List.take_sublist k ys)
  length_le := by
    rw [List.length_take]
    exact Nat.min_le_left _ _
  full := by
    intro z hz hnot
    by_cases hin : z ∈ ys
    · have hdrop : z ∈ ys.drop k := by
        rw [← List.take_append_drop k ys] at hin
        exact (List.mem_append.mp hin).resolve_left hnot
      have hpos := List.length_pos_of_mem hdrop
      rw [List.length_drop] at hpos
      refine ⟨by rw [List.length_take]; omega, fun y hy => lt_of_mem_take hys hy hdrop⟩
    · rw [hmem, not_or] at hin
      obtain ⟨hlen, hnear⟩ := h.full z ((Finset.mem_insert.mp hz).resolve_left hin.1) hin.2
      have hlong : xs.length ≤ ys.length :=
        length_le_of_subset (nodup_of_sorted h.sorted) fun y hy => (hmem y).mpr (.inr hy)
      refine ⟨by rw [List.length_take]; omega, fun y hy => ?_⟩
      rcases (hmem y).mp (List.mem_of_mem_take hy) with rfl | hyx
      · by_cases hold : y ∈ xs
        · exact hnear y hold
        -- the new one is among the first `k`, so an old one was cut off behind it
        obtain ⟨w, hw, hcut⟩ : ∃ w ∈ xs, w ∉ ys.take k := by
          by_contra hall
          push Not at hall
          have hlong := length_le_of_subset
            (List.nodup_cons.mpr ⟨hold, nodup_of_sorted h.sorted⟩) (List.cons_subset.mpr ⟨hy, hall⟩)
          rw [List.length_cons, hlen, List.length_take] at hlong
          omega
        have hdrop : w ∈ ys.drop k := by
          have hin : w ∈ ys.take k ++ ys.drop k := by
            rw [List.take_append_drop]
            exact (hmem w).mpr (.inr hw)
          exact (List.mem_append.mp hin).resolve_left hcut
        exact (lt_of_mem_take hys hy hdrop).trans (hnear w hw)
      · exact hnear y hyx

end Nearest
