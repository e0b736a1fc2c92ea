import Mathlib.Data.List.Perm.Basic
import Mathlib.Data.Set.Basic

namespace Selection

variable {α : Type} (better : α → α → Prop)

/-- The candidate `m` is better than every other one. -/
structure Best (candidates : Set α) (m : α) : Prop where
  mem : m ∈ candidates
  beats : ∀ x ∈ candidates, x ≠ m → better m x

theorem Best.unique {better : α → α → Prop} [Std.Asymm better] {candidates : Set α} {m m' : α}
    (h : Best better candidates m) (h' : Best better candidates m') : m = m' := by
  by_contra hne
  have hlt : better m m' := h.beats m' h'.mem (Ne.symm hne)
  have hgt : better m' m := h'.beats m h.mem hne
  exact Std.Asymm.asymm _ _ hlt hgt

variable [DecidableRel better]

/-- Keep the better of the best candidate so far and the next one. -/
def keep (best : Option α) (x : α) : Option α :=
  match best with
  | none => some x
  | some b => if better x b then some x else some b

/-- One pass over the candidates. -/
def pick (xs : List α) : Option α := xs.foldl (keep better) none

variable {better} [IsTrans α better] [Std.Trichotomous better]

variable (better) in
/-- A pass that has started ends at the best of what it saw. -/
theorem best_foldl (xs : List α) (b : α) :
    ∃ m, xs.foldl (keep better) (some b) = some m ∧ Best better {x | x = b ∨ x ∈ xs} m := by
  induction xs generalizing b with
  | nil =>
    refine ⟨b, rfl, .inl rfl, ?_⟩
    rintro x (rfl | hx) hne
    · exact absurd rfl hne
    · cases hx
  | cons x xs ih =>
    by_cases hx : better x b
    · obtain ⟨m, hm, hbest⟩ := ih x
      have hkeep : keep better (some b) x = some x := if_pos hx
      refine ⟨m, by rw [List.foldl_cons, hkeep, hm], ?_, ?_⟩
      · exact .inr (List.mem_cons.mpr hbest.mem)
      · rintro y (rfl | hy) hne
        · by_cases hmx : x = m
          · rwa [← hmx]
          · exact Trans.trans (hbest.beats x (.inl rfl) hmx) hx
        · exact hbest.beats y (List.mem_cons.mp hy) hne
    · obtain ⟨m, hm, hbest⟩ := ih b
      have hkeep : keep better (some b) x = some b := if_neg hx
      refine ⟨m, by rw [List.foldl_cons, hkeep, hm], ?_, ?_⟩
      · exact hbest.mem.imp_right (List.mem_cons_of_mem x)
      · rintro y (rfl | hy) hne
        · exact hbest.beats y (.inl rfl) hne
        · rcases List.mem_cons.mp hy with rfl | hy
          · by_cases hyb : y = b
            · exact hbest.beats y (.inl hyb) hne
            · have hby : better b y := by
                by_contra hby
                exact hyb (Std.Trichotomous.trichotomous _ _ hx hby)
              by_cases hmb : b = m
              · rwa [← hmb]
              · exact Trans.trans (hbest.beats b (.inl rfl) hmb) hby
          · exact hbest.beats y (.inr hy) hne

variable (better) in
theorem exists_pick {xs : List α} (h : xs ≠ []) :
    ∃ m, pick better xs = some m ∧ Best better {x | x ∈ xs} m := by
  obtain ⟨x, xs, rfl⟩ := List.exists_cons_of_ne_nil h
  obtain ⟨m, hm, hbest⟩ := best_foldl better xs x
  refine ⟨m, hm, List.mem_cons.mpr hbest.mem, fun y hy => ?_⟩
  exact hbest.beats y (List.mem_cons.mp hy)

theorem pick_eq_none {xs : List α} : pick better xs = none ↔ xs = [] := by
  constructor
  · intro hnone
    by_contra hne
    obtain ⟨m, hm, -⟩ := exists_pick better hne
    cases hm.symm.trans hnone
  · rintro rfl
    rfl

variable [Std.Asymm better]

/-- A pass finds the best candidate, in whatever order the candidates come. -/
theorem pick_eq_some {xs : List α} {m : α} :
    pick better xs = some m ↔ Best better {x | x ∈ xs} m := by
  constructor
  · intro hpick
    have hne : xs ≠ [] := by
      rintro rfl
      cases hpick
    obtain ⟨m', hm', hbest⟩ := exists_pick better hne
    rwa [Option.some.inj (hpick.symm.trans hm')]
  · intro hbest
    obtain ⟨m', hm', hbest'⟩ := exists_pick better (List.ne_nil_of_mem hbest.mem)
    rw [hm', hbest'.unique hbest]

theorem pick_perm {xs ys : List α} (h : xs.Perm ys) : pick better xs = pick better ys := by
  rcases hys : pick better ys with _ | m
  · rw [pick_eq_none] at hys ⊢
    rw [hys] at h
    exact h.eq_nil
  · rw [pick_eq_some] at hys ⊢
    have hsame : {x | x ∈ xs} = {x | x ∈ ys} := Set.ext fun x => h.mem_iff
    rwa [hsame]

end Selection
