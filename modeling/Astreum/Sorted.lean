import Astreum.Dict
import Mathlib.Data.List.Sort

namespace Astreum

theorem nodup_of_sorted {κ ν : Type} [LT κ] [IsStrictTotalOrder κ (· < ·)] {rows : List (κ × ν)}
    (hsorted : rows.Pairwise fun a b => a.1 < b.1) :
    (rows.map Prod.fst).Nodup := by
  rw [List.Nodup, List.pairwise_map]
  refine hsorted.imp fun {a b} h heq => ?_
  rw [heq] at h
  exact irrefl_of (· < ·) _ h

theorem lookupPair_perm {κ ν : Type} [DecidableEq κ] {rows rows' : List (κ × ν)}
    (hnodup : (rows.map Prod.fst).Nodup) (h : rows'.Perm rows) (key : κ) : lookupPair key rows' = lookupPair key rows := by
  have hnodup' : (rows'.map Prod.fst).Nodup := (h.map Prod.fst).nodup_iff.mpr hnodup
  rcases hrow : lookupPair key rows with - | v
  · rw [lookupPair_eq_none] at hrow ⊢
    exact fun hmem => hrow ((h.map Prod.fst).mem_iff.mp hmem)
  · exact lookupPair_of_mem hnodup' (h.mem_iff.mpr (mem_of_lookupPair hrow))

theorem lookupPair_append {κ ν : Type} [DecidableEq κ] (key : κ) (rows rows' : List (κ × ν)) :
    lookupPair key (rows ++ rows') = (lookupPair key rows).or (lookupPair key rows') := by
  induction rows with
  | nil => rfl
  | cons row rows ih =>
    by_cases hkey : row.1 = key
    · simp [lookupPair, hkey]
    · simp [lookupPair, hkey, ih]

theorem lookupPair_map_snd {κ ν ν' : Type} [DecidableEq κ] (f : ν → ν') (key : κ)
    (rows : List (κ × ν)) :
    lookupPair key (rows.map fun row => (row.1, f row.2)) = (lookupPair key rows).map f := by
  induction rows with
  | nil => rfl
  | cons row rows ih =>
    by_cases hkey : row.1 = key
    · simp [lookupPair, hkey]
    · simp [lookupPair, hkey, ih]

section Bisect

variable {κ ν : Type} [DecidableEq κ] [LT κ] [DecidableLT κ]

/-- Binary search of `key` between two places of rows in the order of their keys. There is no
result when a place past the last row is read. -/
def bisect (rows : List (κ × ν)) (key : κ) : Nat → Int → Int → Option (Option ν)
  | 0, _, _ => none
  | n + 1, left, right =>
    if left ≤ right then
      let mid := (left + right) / 2
      match rows[mid.toNat]? with
      | none => none
      | some row =>
        if row.1 = key then some (some row.2)
        else if row.1 < key then bisect rows key n (mid + 1) right
        else bisect rows key n left (mid - 1)
    else some none

variable [IsStrictTotalOrder κ (· < ·)]

/-- Between two places that leave out no row of the key, the search finds the row of the key. -/
theorem bisect_eq {rows : List (κ × ν)} {key : κ} (hsorted : rows.Pairwise fun a b => a.1 < b.1)
    {n : Nat} {left right : Int} (hleft : 0 ≤ left) (hright : right < rows.length)
    (hlow : ∀ i (h : i < rows.length), (i : Int) < left → (rows[i]).1 < key)
    (hhigh : ∀ i (h : i < rows.length), right < (i : Int) → key < (rows[i]).1)
    (hn : (right - left + 1).toNat < n) :
    bisect rows key n left right = some (lookupPair key rows) := by
  have hlt : ∀ i j (hi : i < rows.length) (hj : j < rows.length), i < j →
      (rows[i]).1 < (rows[j]).1 := List.pairwise_iff_getElem.mp hsorted
  induction n generalizing left right with
  | zero => omega
  | succ n ih =>
    rw [bisect]
    split
    · rename_i hle
      obtain ⟨mid, hcast⟩ : ∃ mid : Nat, (left + right) / 2 = mid :=
        Int.eq_ofNat_of_zero_le (by omega)
      have hbound : left ≤ (mid : Int) ∧ (mid : Int) ≤ right := by omega
      have hmid : mid < rows.length := by omega
      simp only [hcast, Int.toNat_natCast, List.getElem?_eq_getElem hmid]
      split
      · rename_i hkey
        have hmem : (key, (rows[mid]).2) ∈ rows := by
          rw [← hkey]
          exact List.getElem_mem hmid
        rw [lookupPair_of_mem (nodup_of_sorted hsorted) hmem]
      split
      · rename_i hne hless
        refine ih (by omega) hright (fun i hi hlow' => ?_) hhigh (by omega)
        rcases Nat.lt_or_ge i mid with him | him
        · exact trans_of (· < ·) (hlt i mid hi hmid him) hless
        · have heq : i = mid := by omega
          subst heq
          exact hless
      · rename_i hne hless
        have hmore : key < (rows[mid]).1 := by
          by_contra hnot
          exact hne (Std.Trichotomous.trichotomous (r := (· < ·)) _ _ hless hnot)
        refine ih hleft (by omega) hlow (fun i hi hhigh' => ?_) (by omega)
        rcases Nat.lt_or_ge mid i with him | him
        · exact trans_of (· < ·) hmore (hlt mid i hmid hi him)
        · have heq : i = mid := by omega
          subst heq
          exact hmore
    · rename_i hle
      refine congrArg some (lookupPair_eq_none.mpr fun hmem => ?_).symm
      obtain ⟨row, hrow, hkey⟩ := List.mem_map.mp hmem
      obtain ⟨i, hi, rfl⟩ := List.mem_iff_getElem.mp hrow
      rcases lt_or_ge (i : Int) left with h | h
      · exact irrefl_of (· < ·) key (hkey ▸ hlow i hi h)
      · exact irrefl_of (· < ·) key (hkey ▸ hhigh i hi (by omega))

/-- The search over all the rows. -/
theorem bisect_all {rows : List (κ × ν)} (hsorted : rows.Pairwise fun a b => a.1 < b.1)
    (key : κ) :
    bisect rows key (rows.length + 1) 0 (rows.length - 1) = some (lookupPair key rows) := by
  refine bisect_eq hsorted le_rfl (by omega) (fun i _ h => ?_) (fun i hi h => ?_) (by omega)
  · omega
  · omega

/-- Rows put in the order of their keys. -/
def sortRows (rows : List (κ × ν)) : List (κ × ν) := rows.mergeSort fun a b => ¬b.1 < a.1

omit [DecidableEq κ] [IsStrictTotalOrder κ (· < ·)] in
theorem sortRows_perm (rows : List (κ × ν)) : (sortRows rows).Perm rows :=
  List.mergeSort_perm rows _

omit [DecidableEq κ] in
/-- Rows of different keys come out in the strict order of their keys. -/
theorem sorted_sortRows {rows : List (κ × ν)} (hnodup : (rows.map Prod.fst).Nodup) :
    (sortRows rows).Pairwise fun a b => a.1 < b.1 := by
  have hle : (sortRows rows).Pairwise fun a b => decide (¬b.1 < a.1) = true := by
    refine List.pairwise_mergeSort (fun a b c hab hbc => ?_) (fun a b => ?_) rows
    · simp only [decide_eq_true_eq] at hab hbc ⊢
      intro hca
      rcases trichotomous_of (· < ·) b.1 a.1 with h | h | h
      · exact hab h
      · exact hbc (h ▸ hca)
      · exact hbc (trans_of (· < ·) hca h)
    · simp only [Bool.or_eq_true, decide_eq_true_eq]
      by_contra h
      obtain ⟨hab, hba⟩ := not_or.mp h
      exact asymm_of (· < ·) (not_not.mp hab) (not_not.mp hba)
  have hkeys : ((sortRows rows).map Prod.fst).Nodup :=
    ((sortRows_perm rows).map Prod.fst).nodup_iff.mpr hnodup
  rw [List.Nodup, List.pairwise_map] at hkeys
  refine (hle.and hkeys).imp fun {a b} h => ?_
  rcases trichotomous_of (· < ·) a.1 b.1 with hab | hab | hab
  · exact hab
  · exact absurd hab h.2
  · exact absurd hab (of_decide_eq_true h.1)

end Bisect

section Spans

variable {κ β : Type}

/-- Rows of the key, the place and the length of each value, when the values stand one after
another. -/
def spans : Nat → List (κ × List β) → List (κ × Nat × Nat)
  | _, [] => []
  | position, (key, data) :: rows =>
    (key, position, data.length) :: spans (position + data.length) rows

def valuesOf (rows : List (κ × List β)) : List β := (rows.map Prod.snd).flatten

/-- `count` items from a place on, when there are so many. -/
def slice (data : List β) (position count : Nat) : Option (List β) :=
  let found := (data.drop position).take count
  if found.length = count then some found else none

theorem map_fst_spans (position : Nat) (rows : List (κ × List β)) :
    (spans position rows).map Prod.fst = rows.map Prod.fst := by
  induction rows generalizing position with
  | nil => rfl
  | cons row rows ih => simp [spans, ih]

theorem slice_append (before data after : List β) :
    slice (before ++ data ++ after) before.length data.length = some data := by
  rw [slice, List.append_assoc, List.drop_left, List.take_left, if_pos rfl]

/-- The value of every row is read at its place. -/
theorem lookupPair_spans [DecidableEq κ] (key : κ) (before : List β) (rows : List (κ × List β)) :
    ((lookupPair key (spans before.length rows)).bind fun span =>
      slice (before ++ valuesOf rows) span.1 span.2) = lookupPair key rows := by
  induction rows generalizing before with
  | nil => rfl
  | cons row rows ih =>
    obtain ⟨key', data⟩ := row
    have hvalues : valuesOf ((key', data) :: rows) = data ++ valuesOf rows := rfl
    by_cases hkey : key' = key
    · rw [spans, lookupPair, if_pos hkey, lookupPair, if_pos hkey, Option.bind_some, hvalues,
        ← List.append_assoc]
      exact slice_append before data _
    · have hrest := ih (before ++ data)
      rw [List.length_append, List.append_assoc] at hrest
      simp only [spans, lookupPair, hkey, if_false, hvalues]
      exact hrest

end Spans

section Newest

variable {σ ν : Type}

/-- Sources in the order of their numbers, the highest first. -/
def byNumber (sources : List (Nat × σ)) : List (Nat × σ) :=
  sources.mergeSort fun a b => b.1 ≤ a.1

theorem byNumber_perm (sources : List (Nat × σ)) : (byNumber sources).Perm sources :=
  List.mergeSort_perm sources _

/-- Where two sources differ on a value, the one of the higher number is met first. -/
def NewestFirst (f : Nat × σ → Option ν) (sources : List (Nat × σ)) : Prop :=
  sources.Pairwise fun a b => ∀ v w, f a = some v → f b = some w → v ≠ w → b.1 < a.1

theorem newestFirst_byNumber (f : Nat × σ → Option ν) {sources : List (Nat × σ)}
    (hnodup : (sources.map Prod.fst).Nodup) : NewestFirst f (byNumber sources) := by
  have hle : (byNumber sources).Pairwise fun a b => decide (b.1 ≤ a.1) = true := by
    refine List.pairwise_mergeSort (fun a b c hab hbc => ?_) (fun a b => ?_) sources
    · simp only [decide_eq_true_eq] at hab hbc ⊢
      omega
    · simp only [Bool.or_eq_true, decide_eq_true_eq]
      omega
  have hkeys : ((byNumber sources).map Prod.fst).Nodup :=
    ((byNumber_perm sources).map Prod.fst).nodup_iff.mpr hnodup
  rw [List.Nodup, List.pairwise_map] at hkeys
  refine (hle.and hkeys).imp fun {a b} h v w _ _ _ => ?_
  have hba : b.1 ≤ a.1 := of_decide_eq_true h.1
  have hne : a.1 ≠ b.1 := h.2
  omega

/-- The first value of sources that are met the newest first does not depend on the rest of their
order. -/
theorem findSome?_newest {f : Nat × σ → Option ν} {sources sources' : List (Nat × σ)}
    (hperm : sources'.Perm sources) (h : NewestFirst f sources) (h' : NewestFirst f sources') :
    sources'.findSome? f = sources.findSome? f := by
  have hfirst : ∀ {l : List (Nat × σ)} {v : ν}, NewestFirst f l → l.findSome? f = some v →
      ∃ a ∈ l, f a = some v ∧ ∀ b ∈ l, ∀ w, f b = some w → v ≠ w → b.1 < a.1 := by
    intro l v hl hv
    obtain ⟨before, a, after, rfl, ha, hbefore⟩ := List.findSome?_eq_some_iff.mp hv
    refine ⟨a, List.mem_append_right _ List.mem_cons_self, ha, fun b hb w hw hne => ?_⟩
    rcases List.mem_append.mp hb with hb | hb
    · rw [hbefore b hb] at hw
      cases hw
    rcases List.mem_cons.mp hb with rfl | hb
    · rw [ha] at hw
      exact absurd (Option.some.inj hw) hne
    · exact (List.pairwise_cons.mp (List.pairwise_append.mp hl).2.1).1 b hb v w ha hw hne
  rcases hv : sources.findSome? f with - | v
  · rw [List.findSome?_eq_none_iff] at hv ⊢
    exact fun a ha => hv a (hperm.mem_iff.mp ha)
  rcases hw : sources'.findSome? f with - | w
  · rw [List.findSome?_eq_none_iff] at hw
    obtain ⟨a, ha, hav, -⟩ := hfirst h hv
    rw [hw a (hperm.mem_iff.mpr ha)] at hav
    cases hav
  obtain ⟨a, ha, hav, hnewer⟩ := hfirst h hv
  obtain ⟨b, hb, hbw, hnewer'⟩ := hfirst h' hw
  by_cases hne : v = w
  · rw [hne]
  · have hba := hnewer b (hperm.mem_iff.mp hb) w hbw hne
    have hab := hnewer' a (hperm.mem_iff.mpr ha) v hav (Ne.symm hne)
    omega

/-- A source of a number above all others comes first. -/
theorem findSome?_byNumber_append {f : Nat × σ → Option ν} {sources : List (Nat × σ)}
    {source : Nat × σ} (hnodup : (sources.map Prod.fst).Nodup)
    (hnew : ∀ a ∈ sources, a.1 < source.1) :
    (byNumber (sources ++ [source])).findSome? f =
      (f source).or ((byNumber sources).findSome? f) := by
  have hperm : (source :: byNumber sources).Perm (byNumber (sources ++ [source])) :=
    ((byNumber_perm sources).cons source).trans
      ((List.perm_append_singleton source sources).symm.trans (byNumber_perm _).symm)
  have hnodup' : ((sources ++ [source]).map Prod.fst).Nodup := by
    rw [List.map_append, List.nodup_append]
    refine ⟨hnodup, List.nodup_singleton _, fun n hn m hm heq => ?_⟩
    obtain ⟨a, ha, rfl⟩ := List.mem_map.mp hn
    rw [List.mem_singleton.mp hm] at heq
    exact (hnew a ha).ne heq
  have hfirst : NewestFirst f (source :: byNumber sources) := by
    refine List.pairwise_cons.mpr ⟨fun a ha _ _ _ _ _ => ?_, newestFirst_byNumber f hnodup⟩
    exact hnew a ((byNumber_perm sources).mem_iff.mp ha)
  rw [← findSome?_newest hperm (newestFirst_byNumber f hnodup') hfirst, List.findSome?_cons]
  cases f source <;> rfl

end Newest

end Astreum
