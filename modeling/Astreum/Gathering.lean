import Mathlib.Data.Fintype.Card
import Mathlib.Data.List.Perm.Subperm
import Mathlib.Data.Set.Finite.List
import Mathlib.Logic.Relation

namespace Gathering

open Relation

variable {κ α : Type} (get : κ → Option α) (names : α → κ → Prop)

/-- From a key to one that its value names, when there is a value under that one too. -/
def Step (k k' : κ) : Prop := ∃ a, get k = some a ∧ names a k' ∧ ∃ a', get k' = some a'

/-- Where a walk from `start` stands: what it keeps, the values whose names it has not read yet,
and the keys that it has read and not looked at. -/
structure Walk (start : κ) (pending : List α) (todo : List κ) (kept : List (κ × α)) : Prop where
  once : (kept.map Prod.fst).Nodup
  held : ∀ p ∈ kept, get p.1 = some p.2
  reached : ∀ p ∈ kept, ReflTransGen (Step get names) start p.1
  started : start ∈ kept.map Prod.fst
  waiting : ∀ a ∈ pending, ∃ k, (k, a) ∈ kept
  named : ∀ k ∈ todo, ∀ a, get k = some a → ReflTransGen (Step get names) start k
  closed : ∀ p ∈ kept, p.2 ∈ pending ∨
    ∀ k, names p.2 k → ∀ a, get k = some a → k ∈ kept.map Prod.fst ∨ k ∈ todo

/-- All that is reached from `start` is kept, each key once. -/
structure Done (start : κ) (kept : List (κ × α)) : Prop where
  once : (kept.map Prod.fst).Nodup
  held : ∀ p ∈ kept, get p.1 = some p.2
  complete : ∀ k, k ∈ kept.map Prod.fst ↔ ReflTransGen (Step get names) start k

variable {get names} {start k : κ} {a : α} {pending : List α} {todo : List κ} {kept : List (κ × α)}

theorem Walk.init (hstart : get start = some a) :
    Walk get names start [a] [] [(start, a)] where
  once := List.nodup_singleton _
  held p hp := by
    rw [List.mem_singleton.mp hp]
    exact hstart
  reached p hp := by
    rw [List.mem_singleton.mp hp]
  started := List.mem_singleton_self _
  waiting b hb := by
    rw [List.mem_singleton.mp hb]
    exact ⟨start, List.mem_singleton_self _⟩
  named _ hk := absurd hk List.not_mem_nil
  closed p hp := by
    rw [List.mem_singleton.mp hp]
    exact .inl (List.mem_singleton_self _)

/-- The names of a value are read. -/
theorem Walk.pop {keys : List κ} (h : Walk get names start (a :: pending) [] kept)
    (hkeys : ∀ k, names a k ↔ k ∈ keys) : Walk get names start pending keys kept where
  once := h.once
  held := h.held
  reached := h.reached
  started := h.started
  waiting b hb := h.waiting b (List.mem_cons_of_mem a hb)
  named k hk b hb := by
    obtain ⟨k₀, hk₀⟩ := h.waiting a List.mem_cons_self
    have hstep : Step get names k₀ k := ⟨a, h.held _ hk₀, (hkeys k).mpr hk, b, hb⟩
    exact (h.reached _ hk₀).tail hstep
  closed p hp := by
    rcases h.closed p hp with hin | hclosed
    · rcases List.mem_cons.mp hin with rfl | hin
      · exact .inr fun k hk b _ => .inr ((hkeys k).mp hk)
      · exact .inl hin
    · refine .inr fun k hk b hb => ?_
      rcases hclosed k hk b hb with hkept | hnil
      · exact .inl hkept
      · cases hnil

/-- A key is passed over that is kept already or that nothing stands under. -/
theorem Walk.skip (h : Walk get names start pending (k :: todo) kept)
    (hk : k ∈ kept.map Prod.fst ∨ get k = none) : Walk get names start pending todo kept where
  once := h.once
  held := h.held
  reached := h.reached
  started := h.started
  waiting := h.waiting
  named k' hk' := h.named k' (List.mem_cons_of_mem k hk')
  closed p hp := by
    refine (h.closed p hp).imp_right fun hclosed k' hk' b hb => ?_
    rcases hclosed k' hk' b hb with hkept | hin
    · exact .inl hkept
    rcases List.mem_cons.mp hin with rfl | hin
    · rcases hk with hk | hk
      · exact .inl hk
      · cases hk.symm.trans hb
    · exact .inr hin

/-- The value under a new key is kept, and its names are read later. -/
theorem Walk.add (h : Walk get names start pending (k :: todo) kept)
    (hk : k ∉ kept.map Prod.fst) (ha : get k = some a) :
    Walk get names start (a :: pending) todo (kept ++ [(k, a)]) where
  once := by
    rw [← List.concat_eq_append, List.map_concat]
    exact h.once.concat hk
  held p hp := by
    rcases List.mem_append.mp hp with hp | hp
    · exact h.held p hp
    · rw [List.mem_singleton.mp hp]
      exact ha
  reached p hp := by
    rcases List.mem_append.mp hp with hp | hp
    · exact h.reached p hp
    · rw [List.mem_singleton.mp hp]
      exact h.named k List.mem_cons_self a ha
  started := by
    rw [List.map_append]
    exact List.mem_append_left _ h.started
  waiting b hb := by
    rcases List.mem_cons.mp hb with rfl | hb
    · exact ⟨k, List.mem_append_right _ (List.mem_singleton_self _)⟩
    · obtain ⟨k', hk'⟩ := h.waiting b hb
      exact ⟨k', List.mem_append_left _ hk'⟩
  named k' hk' := h.named k' (List.mem_cons_of_mem k hk')
  closed p hp := by
    rcases List.mem_append.mp hp with hp | hp
    · rcases h.closed p hp with hin | hclosed
      · exact .inl (List.mem_cons_of_mem a hin)
      · refine .inr fun k' hk' b hb => ?_
        rw [List.map_append, List.mem_append]
        rcases hclosed k' hk' b hb with hkept | hin
        · exact .inl (.inl hkept)
        rcases List.mem_cons.mp hin with rfl | hin
        · exact .inl (.inr (List.mem_singleton_self _))
        · exact .inr hin
    · rw [List.mem_singleton.mp hp]
      exact .inl List.mem_cons_self

theorem Walk.reached_of_mem (h : Walk get names start pending todo kept)
    (hk : k ∈ kept.map Prod.fst) : ReflTransGen (Step get names) start k := by
  obtain ⟨p, hp, rfl⟩ := List.mem_map.mp hk
  exact h.reached p hp

/-- What is reached is kept, once all that is kept has been read. -/
theorem Walk.done (h : Walk get names start [] [] kept) : Done get names start kept where
  once := h.once
  held := h.held
  complete k := by
    refine ⟨h.reached_of_mem, fun hk => ?_⟩
    induction hk with
    | refl => exact h.started
    | tail _ hstep ih =>
      obtain ⟨a, ha, hname, b, hb⟩ := hstep
      obtain ⟨p, hp, rfl⟩ := List.mem_map.mp ih
      obtain rfl := Option.some.inj ((h.held p hp).symm.trans ha)
      rcases h.closed p hp with hnil | hclosed
      · cases hnil
      rcases hclosed _ hname b hb with hkept | hnil
      · exact hkept
      · cases hnil

section Bounds

variable {bound : List κ} (hbound : ∀ k a, get k = some a → k ∈ bound)

include hbound

theorem Walk.subperm (h : Walk get names start pending todo kept) :
    (kept.map Prod.fst).Subperm bound := by
  refine List.subperm_of_subset h.once fun k hk => ?_
  obtain ⟨p, hp, rfl⟩ := List.mem_map.mp hk
  exact hbound p.1 p.2 (h.held p hp)

theorem Walk.length_le (h : Walk get names start pending todo kept) :
    kept.length ≤ bound.length := by
  have hle := (h.subperm hbound).length_le
  rwa [List.length_map] at hle

/-- As many values as there are keys are all the values, and so all that is reached. -/
theorem Walk.done_of_length (h : Walk get names start pending todo kept)
    (hlength : bound.length ≤ kept.length) : Done get names start kept where
  once := h.once
  held := h.held
  complete k := by
    have hperm := (h.subperm hbound).perm_of_length_le (by rwa [List.length_map])
    refine ⟨h.reached_of_mem, fun hk => ?_⟩
    rcases hk.cases_tail with rfl | ⟨k', -, -, -, -, a, ha⟩
    · exact h.started
    · exact hperm.mem_iff.mpr (hbound k a ha)

end Bounds

/-- A relation below the elements of a list is followed for ever only in a circle. -/
theorem acc_of_no_circle {r : κ → κ → Prop} (bound : List κ) (hbound : ∀ x y, r x y → y ∈ bound)
    (hcircle : ∀ x, ¬TransGen r x x) (x : κ) : Acc r x := by
  let below : {y // y ∈ bound} → {y // y ∈ bound} → Prop := fun y z => TransGen r y.1 z.1
  have : Finite {y // y ∈ bound} := (List.finite_toSet bound).to_subtype
  have : IsTrans _ below := ⟨fun _ _ _ => TransGen.trans⟩
  have : Std.Irrefl below := ⟨fun y => hcircle y.1⟩
  have hwf : WellFounded below := Finite.wellFounded_of_trans_of_irrefl below
  have hinside : ∀ y : {y // y ∈ bound}, Acc r y.1 := by
    intro y
    induction y using hwf.induction with
    | _ y ih =>
      refine Acc.intro _ fun z hz => ?_
      by_cases hin : z ∈ bound
      · exact ih ⟨z, hin⟩ (.single hz)
      · exact Acc.intro _ fun w hw => absurd (hbound w z hw) hin
  by_cases hin : x ∈ bound
  · exact hinside ⟨x, hin⟩
  · exact Acc.intro _ fun w hw => absurd (hbound w x hw) hin

end Gathering
