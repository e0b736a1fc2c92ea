import Mathlib.Algebra.GroupWithZero.Nat
import Mathlib.Data.List.Nodup

namespace Visit

variable {α β : Type} (children : α → List α) (key : α → β) (skip : β → Bool)

/-- What lies below the roots, and below nothing that is skipped. -/
inductive Reaches (roots : List α) : α → Prop
  | root {x : α} (h : x ∈ roots) (hx : skip (key x) = false) : Reaches roots x
  | child {x y : α} (h : Reaches roots x) (hy : y ∈ children x) (hs : skip (key y) = false) :
      Reaches roots y

/-- What a visit comes to: a root, or a child of something that is reached. -/
def Meets (roots : List α) (x : α) : Prop :=
  x ∈ roots ∨ ∃ y, Reaches children key skip roots y ∧ x ∈ children y

variable {children key skip} {roots stack visited visited' : List α} {found found' : List β}

theorem Reaches.skips {x : α} (h : Reaches children key skip roots x) : skip (key x) = false := by
  cases h with
  | root _ hx => exact hx
  | child _ _ hs => exact hs

theorem Meets.reaches {x : α} (h : Meets children key skip roots x) (hx : skip (key x) = false) :
    Reaches children key skip roots x := by
  rcases h with hroot | ⟨y, hy, hchild⟩
  · exact .root hroot hx
  · exact .child hy hchild hx

variable (children key skip) in
/-- Where a visit of the roots stands. -/
structure Visiting (roots stack visited : List α) (found : List β) : Prop where
  reached : ∀ x ∈ visited, Reaches children key skip roots x
  pending : ∀ x ∈ stack, Meets children key skip roots x
  skipped : ∀ k ∈ found, ∃ x, Meets children key skip roots x ∧ key x = k ∧ skip k = true
  once : (visited.map key).Nodup
  closed : ∀ x, (x ∈ roots ∨ ∃ y ∈ visited, x ∈ children y) →
    key x ∈ visited.map key ∨ (skip (key x) = true ∧ key x ∈ found) ∨ x ∈ stack

theorem Visiting.start (roots : List α) : Visiting children key skip roots roots [] [] where
  reached := by simp
  pending := fun x hx => .inl hx
  skipped := by simp
  once := List.nodup_nil
  closed := by simp

variable {x : α}

theorem Visiting.again (h : Visiting children key skip roots (x :: stack) visited found)
    (hx : key x ∈ visited.map key) : Visiting children key skip roots stack visited found where
  reached := h.reached
  pending := fun y hy => h.pending y (List.mem_cons_of_mem _ hy)
  skipped := h.skipped
  once := h.once
  closed := by
    intro y hy
    rcases h.closed y hy with hseen | hskip | hstack
    · exact .inl hseen
    · exact .inr (.inl hskip)
    · rcases List.mem_cons.mp hstack with rfl | hrest
      · exact .inl hx
      · exact .inr (.inr hrest)

theorem Visiting.pass (h : Visiting children key skip roots (x :: stack) visited found)
    (hx : skip (key x) = true) :
    Visiting children key skip roots stack visited (found ++ [key x]) where
  reached := h.reached
  pending := fun y hy => h.pending y (List.mem_cons_of_mem _ hy)
  skipped := by
    intro k hk
    rcases List.mem_append.mp hk with hold | hnew
    · exact h.skipped k hold
    · obtain rfl := List.mem_singleton.mp hnew
      exact ⟨x, h.pending x List.mem_cons_self, rfl, hx⟩
  once := h.once
  closed := by
    intro y hy
    rcases h.closed y hy with hseen | ⟨hskip, hfound⟩ | hstack
    · exact .inl hseen
    · exact .inr (.inl ⟨hskip, List.mem_append_left _ hfound⟩)
    · rcases List.mem_cons.mp hstack with rfl | hrest
      · exact .inr (.inl ⟨hx, List.mem_append_right _ (List.mem_singleton_self _)⟩)
      · exact .inr (.inr hrest)

theorem Visiting.take (h : Visiting children key skip roots (x :: stack) visited found)
    (hnew : key x ∉ visited.map key) (hx : skip (key x) = false) :
    Visiting children key skip roots (children x ++ stack) (visited ++ [x]) found := by
  have hreached := (h.pending x List.mem_cons_self).reaches hx
  refine ⟨?_, ?_, h.skipped, ?_, ?_⟩
  · intro y hy
    rcases List.mem_append.mp hy with hold | hlast
    · exact h.reached y hold
    · obtain rfl := List.mem_singleton.mp hlast
      exact hreached
  · intro y hy
    rcases List.mem_append.mp hy with hchild | hrest
    · exact .inr ⟨x, hreached, hchild⟩
    · exact h.pending y (List.mem_cons_of_mem _ hrest)
  · rw [List.map_append, List.map_singleton]
    exact h.once.append (List.nodup_singleton _) (List.disjoint_singleton.mpr hnew)
  · intro y hy
    have hbefore : (y ∈ roots ∨ ∃ z ∈ visited, y ∈ children z) ∨ y ∈ children x := by
      rcases hy with hroot | ⟨z, hz, hchild⟩
      · exact .inl (.inl hroot)
      · rcases List.mem_append.mp hz with hold | hlast
        · exact .inl (.inr ⟨z, hold, hchild⟩)
        · obtain rfl := List.mem_singleton.mp hlast
          exact .inr hchild
    rw [List.map_append]
    rcases hbefore with hold | hchild
    · rcases h.closed y hold with hseen | hskip | hstack
      · exact .inl (List.mem_append_left _ hseen)
      · exact .inr (.inl hskip)
      · rcases List.mem_cons.mp hstack with rfl | hrest
        · exact .inl (List.mem_append_right _ (by simp))
        · exact .inr (.inr (List.mem_append_right _ hrest))
    · exact .inr (.inr (List.mem_append_left _ hchild))

/-- Where what is reached is told apart by its keys, all of it is visited. -/
theorem Visiting.complete (h : Visiting children key skip roots [] visited found)
    (hkey : ∀ x y, Reaches children key skip roots x → Reaches children key skip roots y →
      key x = key y → x = y) (hx : Reaches children key skip roots x) : x ∈ visited := by
  have hvisits : ∀ y, Reaches children key skip roots y →
      (y ∈ roots ∨ ∃ z ∈ visited, y ∈ children z) → y ∈ visited := by
    intro y hy hmeets
    rcases h.closed y hmeets with hseen | ⟨hskip, -⟩ | hstack
    · obtain ⟨z, hz, hsame⟩ := List.mem_map.mp hseen
      rwa [hkey y z hy (h.reached z hz) hsame.symm]
    · rw [hy.skips] at hskip
      cases hskip
    · cases hstack
  induction hx with
  | root hroot hs => exact hvisits _ (.root hroot hs) (.inl hroot)
  | @child z y hz hchild hs ih => exact hvisits _ (.child hz hchild hs) (.inr ⟨z, ih, hchild⟩)

/-- What is skipped is exactly what is met with a key that is skipped. -/
theorem Visiting.mem_found (h : Visiting children key skip roots [] visited found)
    (hkey : ∀ x y, Reaches children key skip roots x → Reaches children key skip roots y →
      key x = key y → x = y) {k : β} :
    k ∈ found ↔ ∃ x, Meets children key skip roots x ∧ key x = k ∧ skip k = true := by
  refine ⟨h.skipped k, ?_⟩
  rintro ⟨x, hmeets, rfl, hskip⟩
  have hmet : x ∈ roots ∨ ∃ y ∈ visited, x ∈ children y := by
    rcases hmeets with hroot | ⟨y, hy, hchild⟩
    · exact .inl hroot
    · exact .inr ⟨y, h.complete hkey hy, hchild⟩
  rcases h.closed x hmet with hseen | ⟨-, hfound⟩ | hstack
  · obtain ⟨z, hz, hsame⟩ := List.mem_map.mp hseen
    have hskips := (h.reached z hz).skips
    rw [hsame, hskip] at hskips
    cases hskips
  · exact hfound
  · cases hstack

section Runs

variable [DecidableEq β]

variable (children key skip) in
/-- Depth-first: what is on the stack is visited with all below it, unless its key was visited
before or is skipped. The visited and the keys that were skipped come back in order, or nothing
where the fuel does not suffice. -/
def visit : Nat → List α → List α → List β → Option (List α × List β)
  | 0, _, _, _ => none
  | _ + 1, [], visited, found => some (visited, found)
  | n + 1, x :: stack, visited, found =>
    if key x ∈ visited.map key then visit n stack visited found
    else if skip (key x) then visit n stack visited (found ++ [key x])
    else visit n (children x ++ stack) (visited ++ [x]) found

/-- A visit ends where a weight falls from a parent to its children. -/
theorem exists_visit (weight : α → Nat)
    (hweight : ∀ x, ((children x).map weight).sum < weight x) {n : Nat}
    (h : (stack.map weight).sum < n) :
    ∃ r, visit children key skip n stack visited found = some r := by
  induction n generalizing stack visited found with
  | zero => exact absurd h (Nat.not_lt_zero _)
  | succ n ih =>
    cases stack with
    | nil => exact ⟨_, rfl⟩
    | cons x stack =>
      rw [List.map_cons, List.sum_cons] at h
      have hx := hweight x
      have hrest : (stack.map weight).sum < n := by omega
      rw [visit]
      split
      · exact ih hrest
      · split
        · exact ih hrest
        · refine ih ?_
          rw [List.map_append, List.sum_append]
          omega

/-- More fuel changes nothing. -/
theorem visit_of_le {n m : Nat} {r : List α × List β} (hle : n ≤ m)
    (hrun : visit children key skip n stack visited found = some r) :
    visit children key skip m stack visited found = some r := by
  induction n generalizing m stack visited found with
  | zero => cases hrun
  | succ n ih =>
    obtain ⟨m, rfl⟩ : ∃ k, m = k + 1 := ⟨m - 1, by omega⟩
    have hle' : n ≤ m := by omega
    cases stack with
    | nil => exact hrun
    | cons x stack =>
      rw [visit] at hrun ⊢
      split at hrun
      · rw [if_pos ‹_›]
        exact ih hle' hrun
      · rw [if_neg ‹_›]
        split at hrun
        · rw [if_pos ‹_›]
          exact ih hle' hrun
        · rw [if_neg ‹_›]
          exact ih hle' hrun

/-- A visit that ends has gone through its whole stack. -/
theorem Visiting.run {n : Nat} (h : Visiting children key skip roots stack visited found)
    (hrun : visit children key skip n stack visited found = some (visited', found')) :
    Visiting children key skip roots [] visited' found' := by
  induction n generalizing stack visited found with
  | zero => cases hrun
  | succ n ih =>
    cases stack with
    | nil =>
      cases hrun
      exact h
    | cons x stack =>
      rw [visit] at hrun
      split at hrun
      · exact ih (h.again ‹_›) hrun
      · split at hrun
        · exact ih (h.pass ‹_›) hrun
        · exact ih (h.take ‹_› (by simpa using ‹¬skip (key x) = true›)) hrun

end Runs

end Visit
