import Mathlib.Data.Finset.Card
import Mathlib.Data.Finset.Filter
import Mathlib.Data.Set.Finite.Basic

namespace DepthFirst

variable {α ε : Type} (expand : α → Except ε (List (Except ε α)))

/-- What the steps from a node lead to. A step may fail, as the expansion of a node may. -/
inductive Reaches (x : α) : α → Prop
  | refl : Reaches x x
  | step {y z : α} {steps : List (Except ε α)} (h : Reaches x y) (hy : expand y = .ok steps)
      (hz : .ok z ∈ steps) : Reaches x z

/-- The steps of a node one after another, up to the first that fails. -/
def visitAll (visit : α → List α → Option (Except ε (List α))) :
    List (Except ε α) → List α → Option (Except ε (List α))
  | [], visited => some (.ok visited)
  | .error e :: _, _ => some (.error e)
  | .ok y :: steps, visited => match visit y visited with
    | some (.ok visited') => visitAll visit steps visited'
    | r => r

variable [DecidableEq α] in
/-- A recursive visit of all that a node leads to, once each. There is no result where the bound on
the recursion does not suffice. -/
def visit : Nat → α → List α → Option (Except ε (List α))
  | 0, _, _ => none
  | n + 1, x, visited =>
    if x ∈ visited then some (.ok visited)
    else match expand x with
      | .error e => some (.error e)
      | .ok steps => visitAll (visit n) steps (visited ++ [x])

variable {expand} {x y z : α} {visited visited' visited'' : List α} {steps : List (Except ε α)}

theorem Reaches.trans (h : Reaches expand x y) (h' : Reaches expand y z) : Reaches expand x z := by
  induction h' with
  | refl => exact h
  | step _ hy hz ih => exact .step ih hy hz

theorem Reaches.head (hx : expand x = .ok steps) (hy : .ok y ∈ steps) (h : Reaches expand y z) :
    Reaches expand x z := (Reaches.step .refl hx hy).trans h

variable (expand) in
/-- Every node that is new has been expanded, and all its steps lead to what is visited. -/
structure Grows (visited visited' : List α) : Prop where
  subset : visited ⊆ visited'
  nodup : visited.Nodup → visited'.Nodup
  closed : ∀ y ∈ visited', y ∉ visited →
    ∃ steps, expand y = .ok steps ∧ ∀ step ∈ steps, ∃ z ∈ visited', step = .ok z

theorem Grows.refl (visited : List α) : Grows expand visited visited :=
  ⟨List.Subset.refl _, id, fun _ h h' => absurd h h'⟩

theorem Grows.trans (h : Grows expand visited visited') (h' : Grows expand visited' visited'') :
    Grows expand visited visited'' where
  subset _ hy := h'.subset (h.subset hy)
  nodup hn := h'.nodup (h.nodup hn)
  closed := by
    intro y hy hnew
    rcases Classical.em (y ∈ visited') with hold | hold
    · obtain ⟨steps, hsteps, hall⟩ := h.closed y hold hnew
      refine ⟨steps, hsteps, fun step hstep => ?_⟩
      obtain ⟨z, hz, rfl⟩ := hall step hstep
      exact ⟨z, h'.subset hz, rfl⟩
    · exact h'.closed y hy hold

theorem visitAll_grows {visit : α → List α → Option (Except ε (List α))}
    (hvisit : ∀ y v v', visit y v = some (.ok v') →
      Grows expand v v' ∧ y ∈ v' ∧ ∀ z ∈ v', z ∉ v → Reaches expand y z)
    (h : visitAll visit steps visited = some (.ok visited')) :
    Grows expand visited visited' ∧ (∀ step ∈ steps, ∃ z ∈ visited', step = .ok z) ∧
      ∀ z ∈ visited', z ∉ visited → ∃ y, .ok y ∈ steps ∧ Reaches expand y z := by
  induction steps generalizing visited with
  | nil =>
    cases h
    exact ⟨.refl _, fun _ h => absurd h List.not_mem_nil, fun _ h h' => absurd h h'⟩
  | cons step steps ih =>
    rcases step with e | y
    · cases h
    rw [visitAll] at h
    rcases hy : visit y visited with - | e | v
    · rw [hy] at h
      cases h
    · rw [hy] at h
      cases h
    · rw [hy] at h
      obtain ⟨hgrows, hmem, hreach⟩ := hvisit y visited v hy
      obtain ⟨hgrows', hsteps, hreach'⟩ := ih h
      refine ⟨hgrows.trans hgrows', fun step hstep => ?_, fun z hz hnew => ?_⟩
      · rcases List.mem_cons.mp hstep with rfl | hstep
        · exact ⟨y, hgrows'.subset hmem, rfl⟩
        · exact hsteps step hstep
      · rcases Classical.em (z ∈ v) with hold | hold
        · exact ⟨y, List.mem_cons_self, hreach z hold hnew⟩
        · obtain ⟨y', hy', hz'⟩ := hreach' z hz hold
          exact ⟨y', List.mem_cons_of_mem _ hy', hz'⟩

theorem visitAll_mono {visit visit' : α → List α → Option (Except ε (List α))}
    (hvisit : ∀ y v r, visit y v = some r → visit' y v = some r) {r : Except ε (List α)}
    (h : visitAll visit steps visited = some r) : visitAll visit' steps visited = some r := by
  induction steps generalizing visited with
  | nil => exact h
  | cons step steps ih =>
    rcases step with e | y
    · exact h
    rw [visitAll] at h ⊢
    rcases hy : visit y visited with - | e | v
    · rw [hy] at h
      cases h
    · rw [hy] at h
      rw [hvisit y visited _ hy]
      exact h
    · rw [hy] at h
      rw [hvisit y visited _ hy]
      exact ih h

variable [DecidableEq α]

/-- A visit that succeeds has gone through all that its node leads to. -/
theorem visit_grows {n : Nat} (h : visit expand n x visited = some (.ok visited')) :
    Grows expand visited visited' ∧ x ∈ visited' ∧
      ∀ z ∈ visited', z ∉ visited → Reaches expand x z := by
  induction n generalizing x visited visited' with
  | zero => cases h
  | succ n ih =>
    rw [visit] at h
    split at h
    · rename_i hx
      cases h
      exact ⟨.refl _, hx, fun _ h h' => absurd h h'⟩
    rename_i hx
    rcases hexpand : expand x with e | steps
    · rw [hexpand] at h
      cases h
    rw [hexpand] at h
    obtain ⟨hgrows, hsteps, hreach⟩ := visitAll_grows (fun y v v' hv => ih hv) h
    have hmem : x ∈ visited' := hgrows.subset (List.mem_append_right _ (List.mem_singleton_self _))
    refine ⟨⟨fun y hy => hgrows.subset (List.mem_append_left _ hy), fun hn => ?_, ?_⟩, hmem, ?_⟩
    · refine hgrows.nodup (hn.append (List.nodup_singleton x) ?_)
      exact List.disjoint_singleton.mpr hx
    · intro y hy hnew
      by_cases hyx : y = x
      · rw [hyx]
        exact ⟨steps, hexpand, hsteps⟩
      · refine hgrows.closed y hy fun hmem => ?_
        rcases List.mem_append.mp hmem with hold | hlast
        · exact hnew hold
        · exact hyx (List.mem_singleton.mp hlast)
    · intro z hz hnew
      by_cases hzx : z = x
      · rw [hzx]
        exact .refl
      · obtain ⟨y, hy, hyz⟩ := hreach z hz fun hmem => by
          rcases List.mem_append.mp hmem with hold | hlast
          · exact hnew hold
          · exact hzx (List.mem_singleton.mp hlast)
        exact .head hexpand hy hyz

/-- From nothing visited, a visit that succeeds gives what its node leads to and no more. -/
theorem mem_visit_iff {n : Nat} (h : visit expand n x [] = some (.ok visited')) :
    y ∈ visited' ↔ Reaches expand x y := by
  obtain ⟨hgrows, hx, hreach⟩ := visit_grows h
  refine ⟨fun hy => hreach y hy List.not_mem_nil, fun hy => ?_⟩
  induction hy with
  | refl => exact hx
  | @step y z steps _ hsteps hz ih =>
    obtain ⟨steps', hsteps', hall⟩ := hgrows.closed y ih List.not_mem_nil
    rw [hsteps] at hsteps'
    obtain ⟨w, hw, heq⟩ := hall _ ((Except.ok.inj hsteps') ▸ hz)
    rw [Except.ok.inj heq]
    exact hw

section Ending

variable {reached : Finset α}
  (hclosed : ∀ y ∈ reached, ∀ steps, expand y = .ok steps → ∀ z, .ok z ∈ steps → z ∈ reached)

include hclosed

/-- What is not visited yet bounds the depth of a visit. -/
theorem exists_visit {n : Nat} (hx : x ∈ reached)
    (hn : (reached.filter (· ∉ visited)).card < n) : ∃ r, visit expand n x visited = some r := by
  induction n generalizing x visited with
  | zero => exact absurd hn (Nat.not_lt_zero _)
  | succ n ih =>
    rw [visit]
    split
    · exact ⟨_, rfl⟩
    rename_i hnew
    rcases hexpand : expand x with e | steps
    · exact ⟨_, rfl⟩
    have hlt : (reached.filter (· ∉ visited ++ [x])).card <
        (reached.filter (· ∉ visited)).card := by
      refine Finset.card_lt_card (Finset.ssubset_iff_of_subset (fun y hy => ?_) |>.mpr ⟨x, ?_, ?_⟩)
      · obtain ⟨hy, hnot⟩ := Finset.mem_filter.mp hy
        exact Finset.mem_filter.mpr ⟨hy, fun hmem => hnot (List.mem_append_left _ hmem)⟩
      · exact Finset.mem_filter.mpr ⟨hx, hnew⟩
      · exact fun hmem => (Finset.mem_filter.mp hmem).2 (by simp)
    have hall : ∀ (steps' : List (Except ε α)) (v : List α),
        (∀ z, .ok z ∈ steps' → z ∈ reached) → (reached.filter (· ∉ v)).card < n →
        ∃ r, visitAll (visit expand n) steps' v = some r := by
      intro steps'
      induction steps' with
      | nil => exact fun v _ _ => ⟨_, rfl⟩
      | cons step steps' ihsteps =>
        intro v hmem hv
        rcases step with e | y
        · exact ⟨_, rfl⟩
        rw [visitAll]
        obtain ⟨r, hr⟩ := ih (hmem y List.mem_cons_self) hv
        rw [hr]
        rcases r with e | v'
        · exact ⟨_, rfl⟩
        · have hsub := (visit_grows hr).1.subset
          refine ihsteps v' (fun z hz => hmem z (List.mem_cons_of_mem _ hz)) (lt_of_le_of_lt ?_ hv)
          refine Finset.card_le_card fun y hy => ?_
          obtain ⟨hy, hnot⟩ := Finset.mem_filter.mp hy
          exact Finset.mem_filter.mpr ⟨hy, fun hmem => hnot (hsub hmem)⟩
    exact hall steps _ (hclosed x hx steps hexpand) (by omega)

end Ending

/-- A visit ends where its node leads to finitely many. -/
theorem visit_ends (h : {y | Reaches expand x y}.Finite) :
    ∃ n r, visit expand n x [] = some r := by
  have hclosed : ∀ y ∈ h.toFinset, ∀ steps, expand y = .ok steps →
      ∀ z, .ok z ∈ steps → z ∈ h.toFinset := by
    intro y hy steps hsteps z hz
    rw [Set.Finite.mem_toFinset] at hy ⊢
    exact Reaches.step hy hsteps hz
  have hx : x ∈ h.toFinset := h.mem_toFinset.mpr .refl
  exact ⟨_, exists_visit hclosed hx (Nat.lt_succ_self _)⟩

/-- A visit that fails has met a node that fails or a step that does. -/
theorem visit_error {n : Nat} {e : ε} (h : visit expand n x visited = some (.error e)) :
    ∃ y, Reaches expand x y ∧
      (expand y = .error e ∨ ∃ steps, expand y = .ok steps ∧ .error e ∈ steps) := by
  induction n generalizing x visited with
  | zero => cases h
  | succ n ih =>
    rw [visit] at h
    split at h
    · cases h
    rcases hexpand : expand x with e' | steps
    · rw [hexpand] at h
      cases h
      exact ⟨x, .refl, .inl hexpand⟩
    rw [hexpand] at h
    have hall : ∀ (steps' : List (Except ε α)) (v : List α), (∀ step ∈ steps', step ∈ steps) →
        visitAll (visit expand n) steps' v = some (.error e) → .error e ∈ steps ∨
          ∃ y v', .ok y ∈ steps ∧ visit expand n y v' = some (.error e) := by
      intro steps'
      induction steps' with
      | nil => exact fun v _ h => (nomatch h)
      | cons step steps' ihsteps =>
        intro v hmem hv
        have hstep := hmem step List.mem_cons_self
        rcases step with e' | y
        · cases hv
          exact .inl hstep
        rw [visitAll] at hv
        rcases hr : visit expand n y v with - | e' | v'
        · rw [hr] at hv
          cases hv
        · rw [hr] at hv
          cases hv
          exact .inr ⟨y, v, hstep, hr⟩
        · rw [hr] at hv
          exact ihsteps v' (fun step hstep => hmem step (List.mem_cons_of_mem _ hstep)) hv
    rcases hall steps _ (fun _ h => h) h with hmem | ⟨y, v, hy, hv⟩
    · exact ⟨x, .refl, .inr ⟨steps, hexpand, hmem⟩⟩
    · obtain ⟨z, hz, hfails⟩ := ih hv
      exact ⟨z, .head hexpand hy hz, hfails⟩

/-- A larger bound on the recursion does not change a result. -/
theorem visit_mono {n m : Nat} {r : Except ε (List α)} (h : visit expand n x visited = some r)
    (hle : n ≤ m) : visit expand m x visited = some r := by
  induction n generalizing m x visited r with
  | zero => cases h
  | succ n ih =>
    obtain ⟨m, rfl⟩ : ∃ m', m = m' + 1 := ⟨m - 1, by omega⟩
    rw [visit] at h ⊢
    split
    · rename_i hx
      rw [if_pos hx] at h
      exact h
    rename_i hx
    rw [if_neg hx] at h
    rcases hexpand : expand x with e | steps
    · rw [hexpand] at h
      exact h
    · rw [hexpand] at h
      exact visitAll_mono (fun y v r hr => ih hr (Nat.le_of_succ_le_succ hle)) h

/-- Where no node that is led to fails, a visit ends exactly when there are finitely many. -/
theorem visit_ends_iff (h : ∀ y, Reaches expand x y →
    ∃ steps, expand y = .ok steps ∧ ∀ step ∈ steps, ∃ z, step = .ok z) :
    (∃ n r, visit expand n x [] = some r) ↔ {y | Reaches expand x y}.Finite := by
  refine ⟨?_, visit_ends⟩
  rintro ⟨n, e | visited, hrun⟩
  · obtain ⟨y, hy, hfails⟩ := visit_error hrun
    obtain ⟨steps, hsteps, hall⟩ := h y hy
    rcases hfails with hfails | ⟨steps', hsteps', hmem⟩
    · rw [hsteps] at hfails
      cases hfails
    · rw [hsteps] at hsteps'
      cases hsteps'
      obtain ⟨z, hz⟩ := hall _ hmem
      cases hz
  · refine visited.toFinset.finite_toSet.subset fun y hy => ?_
    exact List.mem_toFinset.mpr ((mem_visit_iff hrun).mpr hy)

end DepthFirst
