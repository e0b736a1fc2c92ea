import Mathlib.Algebra.BigOperators.Group.List.Basic
import Mathlib.Data.List.Nodup
import Mathlib.Tactic.Ring

namespace Astreum

variable {κ ν : Type} [DecidableEq κ]

/-- The value stored at `k` in a list of pairs. -/
def lookupPair (k : κ) : List (κ × ν) → Option ν
  | [] => none
  | p :: ps => if p.1 = k then some p.2 else lookupPair k ps

/-- Overwrite the value at `k` where it stands, or append the pair. -/
def putPair (k : κ) (v : ν) : List (κ × ν) → List (κ × ν)
  | [] => [(k, v)]
  | p :: ps => if p.1 = k then (k, v) :: ps else p :: putPair k v ps

theorem lookupPair_eq_none {k : κ} {ps : List (κ × ν)} :
    lookupPair k ps = none ↔ k ∉ ps.map Prod.fst := by
  induction ps with
  | nil => simp [lookupPair]
  | cons p ps ih =>
    by_cases h : p.1 = k
    · simp [lookupPair, h]
    · simp [lookupPair, h, ih, Ne.symm h]

theorem mem_of_lookupPair {k : κ} {v : ν} {ps : List (κ × ν)} (h : lookupPair k ps = some v) :
    (k, v) ∈ ps := by
  induction ps with
  | nil => simp [lookupPair] at h
  | cons p ps ih =>
    by_cases hk : p.1 = k
    · have hv : p.2 = v := by simpa [lookupPair, hk] using h
      exact List.mem_cons.mpr (.inl (by rw [← hk, ← hv]))
    · exact List.mem_cons_of_mem _ (ih (by simpa [lookupPair, hk] using h))

theorem lookupPair_of_mem {k : κ} {v : ν} {ps : List (κ × ν)} (hnodup : (ps.map Prod.fst).Nodup)
    (h : (k, v) ∈ ps) : lookupPair k ps = some v := by
  induction ps with
  | nil => cases h
  | cons p ps ih =>
    obtain ⟨hp, hps⟩ := List.nodup_cons.mp hnodup
    rcases List.mem_cons.mp h with rfl | h
    · simp [lookupPair]
    · have hne : p.1 ≠ k := by
        rintro rfl
        exact hp (List.mem_map.mpr ⟨_, h, rfl⟩)
      rw [lookupPair, if_neg hne]
      exact ih hps h

theorem map_fst_putPair (k : κ) (v : ν) (ps : List (κ × ν)) :
    (putPair k v ps).map Prod.fst =
      if k ∈ ps.map Prod.fst then ps.map Prod.fst else ps.map Prod.fst ++ [k] := by
  induction ps with
  | nil => simp [putPair]
  | cons p ps ih =>
    by_cases h : p.1 = k
    · simp [putPair, h]
    · by_cases hm : k ∈ ps.map Prod.fst
      · simp [putPair, h, ih, hm]
      · have hn : ¬(k = p.1 ∨ k ∈ ps.map Prod.fst) := by
          rintro (rfl | h')
          · exact h rfl
          · exact hm h'
        simp only [putPair, h, if_false, List.map_cons, ih, if_neg hm, List.mem_cons, if_neg hn,
          List.cons_append]

theorem putPair_of_not_mem {k : κ} (v : ν) {ps : List (κ × ν)} (h : k ∉ ps.map Prod.fst) :
    putPair k v ps = ps ++ [(k, v)] := by
  induction ps with
  | nil => rfl
  | cons p ps ih =>
    rw [List.map_cons, List.mem_cons, not_or] at h
    rw [putPair, if_neg (Ne.symm h.1), ih h.2, List.cons_append]

theorem nodup_putPair (k : κ) (v : ν) {ps : List (κ × ν)} (h : (ps.map Prod.fst).Nodup) :
    ((putPair k v ps).map Prod.fst).Nodup := by
  rw [map_fst_putPair]
  split
  · exact h
  · rename_i hk
    exact List.nodup_append.mpr ⟨h, List.nodup_singleton k, by
      rintro a ha b hb rfl
      exact hk (List.mem_singleton.mp hb ▸ ha)⟩

theorem lookupPair_putPair (k a : κ) (v : ν) (ps : List (κ × ν)) :
    lookupPair a (putPair k v ps) = if k = a then some v else lookupPair a ps := by
  induction ps with
  | nil => simp [putPair, lookupPair]
  | cons p ps ih =>
    by_cases hk : p.1 = k
    · by_cases ha : k = a <;> simp [putPair, lookupPair, hk, ha]
    · by_cases hp : p.1 = a
      · have hka : k ≠ a := fun h => hk (hp.trans h.symm)
        rw [putPair, if_neg hk, lookupPair, if_pos hp, lookupPair, if_pos hp, if_neg hka]
      · simp [putPair, lookupPair, hk, hp, ih]

/-- A table in insertion order. No key stands in it twice. -/
structure Dict (κ ν : Type) where
  pairs : List (κ × ν)
  nodup : (pairs.map Prod.fst).Nodup

namespace Dict

deriving instance DecidableEq for Dict

def empty : Dict κ ν := ⟨[], List.nodup_nil⟩

instance : Inhabited (Dict κ ν) := ⟨empty⟩

def get? (d : Dict κ ν) (k : κ) : Option ν := lookupPair k d.pairs

def keys (d : Dict κ ν) : List κ := d.pairs.map Prod.fst

def insert (d : Dict κ ν) (k : κ) (v : ν) : Dict κ ν :=
  ⟨putPair k v d.pairs, nodup_putPair k v d.nodup⟩

/-- The table without `k`. -/
def erase (d : Dict κ ν) (k : κ) : Dict κ ν :=
  ⟨d.pairs.filter fun p => p.1 ≠ k, d.nodup.sublist (List.filter_sublist.map _)⟩

/-- The table with every pair of `e` put into it. -/
def putAll (d e : Dict κ ν) : Dict κ ν := e.pairs.foldl (fun d p => d.insert p.1 p.2) d

/-- The sum of `f` over the pairs whose key satisfies `c`. -/
def sumOn (c : κ → Bool) (f : κ → ν → Int) (d : Dict κ ν) : Int :=
  ((d.pairs.filter fun p => c p.1).map fun p => f p.1 p.2).sum

def sum (f : κ → ν → Int) (d : Dict κ ν) : Int := (d.pairs.map fun p => f p.1 p.2).sum

@[simp] theorem get?_empty (k : κ) : (empty : Dict κ ν).get? k = none := rfl

theorem get?_insert (d : Dict κ ν) (k a : κ) (v : ν) :
    (d.insert k v).get? a = if k = a then some v else d.get? a :=
  lookupPair_putPair k a v d.pairs

@[simp] theorem get?_insert_self (d : Dict κ ν) (k : κ) (v : ν) :
    (d.insert k v).get? k = some v := by
  simp [get?_insert]

theorem get?_insert_of_ne (d : Dict κ ν) {k a : κ} (v : ν) (h : k ≠ a) :
    (d.insert k v).get? a = d.get? a := by
  simp [get?_insert, h]

theorem get?_erase_of_ne (d : Dict κ ν) {k a : κ} (h : a ≠ k) : (d.erase k).get? a = d.get? a := by
  change lookupPair a (d.pairs.filter fun p => p.1 ≠ k) = lookupPair a d.pairs
  induction d.pairs with
  | nil => rfl
  | cons p ps ih =>
    by_cases hp : p.1 = k
    · rw [List.filter_cons_of_neg (by simpa using hp), ih, lookupPair,
        if_neg fun hpa => h (hpa.symm.trans hp)]
    · rw [List.filter_cons_of_pos (by simpa using hp), lookupPair, lookupPair, ih]

theorem get?_erase_self (d : Dict κ ν) (k : κ) : (d.erase k).get? k = none := by
  apply lookupPair_eq_none.mpr
  simp [erase]

theorem get?_erase (d : Dict κ ν) (k a : κ) :
    (d.erase k).get? a = if a = k then none else d.get? a := by
  by_cases h : a = k
  · rw [if_pos h, h, get?_erase_self]
  · rw [if_neg h, get?_erase_of_ne d h]

theorem get?_eq_none {d : Dict κ ν} {k : κ} : d.get? k = none ↔ k ∉ d.keys :=
  lookupPair_eq_none

theorem get?_eq_some {d : Dict κ ν} {k : κ} {v : ν} : d.get? k = some v ↔ (k, v) ∈ d.pairs :=
  ⟨mem_of_lookupPair, lookupPair_of_mem d.nodup⟩

theorem mem_keys_insert {d : Dict κ ν} {k a : κ} {v : ν} :
    a ∈ (d.insert k v).keys ↔ a = k ∨ a ∈ d.keys := by
  rw [← not_iff_not, ← get?_eq_none, get?_insert, not_or, ← get?_eq_none]
  by_cases h : k = a
  · simp [h]
  · simp [h, Ne.symm h]

theorem mem_keys_erase {d : Dict κ ν} {k a : κ} : a ∈ (d.erase k).keys ↔ a ∈ d.keys ∧ a ≠ k := by
  rw [← not_iff_not, ← get?_eq_none, get?_erase, not_and_or, not_not, ← get?_eq_none]
  by_cases h : a = k
  · simp [h]
  · simp [h]

theorem get?_putAll (d e : Dict κ ν) (k : κ) : (d.putAll e).get? k = (e.get? k).or (d.get? k) := by
  obtain ⟨ps, hps⟩ := e
  simp only [putAll, get?]
  induction ps generalizing d with
  | nil => rfl
  | cons p ps ih =>
    have hd := List.nodup_cons.mp (show (p.1 :: ps.map Prod.fst).Nodup from hps)
    rw [List.foldl_cons, ih _ hd.2, lookupPair]
    have hins := get?_insert d p.1 k p.2
    rw [get?] at hins
    by_cases hp : p.1 = k
    · have hnone : lookupPair k ps = none := lookupPair_eq_none.mpr (hp ▸ hd.1)
      rw [hins, hnone, if_pos hp, if_pos hp, Option.none_or, Option.some_or]
    · rw [hins, if_neg hp, if_neg hp, get?]

/-- A table without the keys of the other one has its pairs put behind those of the other. -/
theorem pairs_putAll {d e : Dict κ ν} (h : ∀ k ∈ e.keys, k ∉ d.keys) :
    (d.putAll e).pairs = d.pairs ++ e.pairs := by
  obtain ⟨ps, hps⟩ := e
  change ∀ k ∈ ps.map Prod.fst, k ∉ d.keys at h
  simp only [putAll]
  induction ps generalizing d with
  | nil => exact (List.append_nil _).symm
  | cons p ps ih =>
    have hnodup := List.nodup_cons.mp (show (p.1 :: ps.map Prod.fst).Nodup from hps)
    have hnew : p.1 ∉ d.pairs.map Prod.fst := h p.1 List.mem_cons_self
    have hpairs : (d.insert p.1 p.2).pairs = d.pairs ++ [p] := putPair_of_not_mem p.2 hnew
    rw [List.foldl_cons, ih hnodup.2 fun k hk => ?_, hpairs, List.append_assoc,
      List.singleton_append]
    change k ∉ (d.insert p.1 p.2).pairs.map Prod.fst
    rw [hpairs, List.map_append, List.mem_append, not_or, List.map_singleton, List.mem_singleton]
    exact ⟨h k (List.mem_cons_of_mem _ hk), fun heq => hnodup.1 (heq ▸ hk)⟩

theorem sum_putPair (f : κ → ν → Int) (k : κ) (v : ν) {ps : List (κ × ν)}
    (h : (ps.map Prod.fst).Nodup) :
    ((putPair k v ps).map fun p => f p.1 p.2).sum =
      (ps.map fun p => f p.1 p.2).sum + f k v - (lookupPair k ps).elim 0 (f k) := by
  induction ps with
  | nil => simp [putPair, lookupPair]
  | cons p ps ih =>
    have hps : (ps.map Prod.fst).Nodup := (List.nodup_cons.mp (by simpa using h)).2
    by_cases hk : p.1 = k
    · simp only [putPair, hk, if_true, List.map_cons, List.sum_cons, lookupPair, Option.elim_some]
      ring
    · simp only [putPair, hk, if_false, List.map_cons, List.sum_cons, lookupPair, ih hps]
      ring

theorem sum_insert (f : κ → ν → Int) (d : Dict κ ν) (k : κ) (v : ν) :
    (d.insert k v).sum f = d.sum f + f k v - (d.get? k).elim 0 (f k) :=
  sum_putPair f k v d.nodup

/-- A condition that fails only at `k` takes `k`'s share out of the sum. -/
theorem sumOn_exclude (f : κ → ν → Int) (d : Dict κ ν) (c : κ → Bool) (k : κ) (hk : c k = true) :
    d.sumOn (fun a => c a && decide (a ≠ k)) f = d.sumOn c f - (d.get? k).elim 0 (f k) := by
  obtain ⟨ps, hps⟩ := d
  simp only [sumOn, get?]
  induction ps with
  | nil => simp [lookupPair]
  | cons p ps ih =>
    have hd := List.nodup_cons.mp (show (p.1 :: ps.map Prod.fst).Nodup from hps)
    by_cases hp : p.1 = k
    · have hnone : lookupPair k ps = none := lookupPair_eq_none.mpr (hp ▸ hd.1)
      have ih' := ih hd.2
      rw [hnone] at ih'
      simp only [hp, List.filter_cons, ne_eq, not_true, decide_false, Bool.and_false,
        Bool.false_eq_true, if_false, hk, if_true, List.map_cons, List.sum_cons, lookupPair,
        Option.elim_some]
      simp only [ne_eq, Option.elim_none] at ih'
      omega
    · have ih' := ih hd.2
      by_cases hc : c p.1 = true
      · simp only [List.filter_cons, hc, hp, ne_eq, not_false_eq_true, decide_true, Bool.and_self,
          if_true, List.map_cons, List.sum_cons, lookupPair, if_false]
        simp only [ne_eq] at ih'
        omega
      · simp only [List.filter_cons, hc, Bool.false_and, Bool.false_eq_true, if_false, lookupPair,
          hp]
        simpa using ih'

theorem sum_erase (f : κ → ν → Int) (d : Dict κ ν) (k : κ) :
    (d.erase k).sum f = d.sum f - (d.get? k).elim 0 (f k) := by
  have hexclude := d.sumOn_exclude f (fun _ => true) k rfl
  simpa [sumOn, sum, erase] using hexclude

end Dict

end Astreum
