import Astreum.BloomFilter

namespace Astreum.Bloom

/-- A bloom tree without its cells: the filter of a range of offsets with the trees of its halves,
or nothing where no element was inserted. -/
inductive Index
  | empty
  | node (filter : Filter) (left right : Index)

namespace Index

def filter : Index → Filter
  | empty => {}
  | node filter _ _ => filter

def left : Index → Index
  | empty => empty
  | node _ left _ => left

def right : Index → Index
  | empty => empty
  | node _ _ right => right

section Operations

variable (digest : Bytes → Bytes)

/-- The insert of some elements at an offset, in the `2 ^ d` offsets from `lo`. -/
def insert (variants : List Bytes) (offset : Nat) : Nat → Nat → Index → Py Index
  | 0, _, index => do
    return node (← variants.foldlM (bloomInsert digest) index.filter) index.left index.right
  | d + 1, lo, index => do
    let filter ← variants.foldlM (bloomInsert digest) index.filter
    if offset < lo + 2 ^ d then
      return node filter (← insert variants offset d lo index.left) index.right
    else
      return node filter index.left (← insert variants offset d (lo + 2 ^ d) index.right)

def setStart (offset : Nat) (hash : Bytes) : Nat → Nat → Index → Index
  | _, _, empty => empty
  | 0, _, node filter left right => node { filter with startHash := some hash } left right
  | d + 1, lo, node filter left right =>
    if offset < lo + 2 ^ d then node filter (setStart offset hash d lo left) right
    else node filter left (setStart offset hash d (lo + 2 ^ d) right)

def search (element : Bytes) : Nat → Index → Py (List Filter)
  | _, empty => .ok []
  | 0, node filter _ _ => do
    if ← bloomTest digest filter element then return [filter] else return []
  | d + 1, node filter left right => do
    if ← bloomTest digest filter element then
      return (← search element d left) ++ (← search element d right)
    else return []

def startAt (offset : Nat) : Nat → Nat → Index → Option Bytes
  | _, _, empty => none
  | 0, _, node filter _ _ => filter.startHash
  | d + 1, lo, node _ left right =>
    if offset < lo + 2 ^ d then startAt offset d lo left
    else startAt offset d (lo + 2 ^ d) right

end Operations

/-- The elements that were inserted at the offsets from `lo` on, below `hi`. -/
def inserted (log : List (Nat × Bytes)) (lo hi : Nat) : List Bytes :=
  (log.filter fun entry => lo ≤ entry.1 ∧ entry.1 < hi).map Prod.snd

/-- An index of the `2 ^ d` offsets from `lo` that holds the insertions of `log`: a filter holds
those of its offsets, a leaf has the start hash of its own, and there is nothing from `n` on. -/
def Covers (digest : Bytes → Bytes) (log : List (Nat × Bytes)) (starts : Nat → Option Bytes)
    (n : Nat) : Nat → Nat → Index → Prop
  | d, lo, empty => inserted log lo (lo + 2 ^ d) = []
  | 0, lo, node filter _ _ =>
    lo < n ∧ Holding digest (inserted log lo (lo + 2 ^ 0)) filter ∧ filter.startHash = starts lo
  | d + 1, lo, node filter left right =>
    lo < n ∧ Holding digest (inserted log lo (lo + 2 ^ (d + 1))) filter ∧
      Covers digest log starts n d lo left ∧ Covers digest log starts n d (lo + 2 ^ d) right

section Covering

variable {digest : Bytes → Bytes} {log log' : List (Nat × Bytes)}
  {starts starts' : Nat → Option Bytes} {n n' d lo hi offset : Nat} {index : Index}
  {element hash : Bytes} {variants : List Bytes}

theorem mem_inserted :
    element ∈ inserted log lo hi ↔ ∃ w, lo ≤ w ∧ w < hi ∧ (w, element) ∈ log := by
  simp [inserted, and_assoc, and_comm]

theorem inserted_append (log log' : List (Nat × Bytes)) (lo hi : Nat) :
    inserted (log ++ log') lo hi = inserted log lo hi ++ inserted log' lo hi := by
  simp [inserted]

theorem inserted_at (variants : List Bytes) (hlo : lo ≤ offset) (hhi : offset < hi) :
    inserted (variants.map (Prod.mk offset)) lo hi = variants := by
  induction variants with
  | nil => rfl
  | cons first variants ih =>
    rw [inserted] at ih ⊢
    simp only [List.map_cons, List.filter_cons, hlo, hhi, and_self, decide_true, if_true]
    rw [ih]

theorem inserted_elsewhere (variants : List Bytes) (h : ¬ (lo ≤ offset ∧ offset < hi)) :
    inserted (variants.map (Prod.mk offset)) lo hi = [] := by
  rw [List.eq_nil_iff_forall_not_mem]
  intro element helement
  obtain ⟨w, hlo, hhi, hw⟩ := mem_inserted.mp helement
  obtain ⟨_, _, hpair⟩ := List.mem_map.mp hw
  cases hpair
  exact h ⟨hlo, hhi⟩

theorem inserted_nil_of_le {lo' hi' : Nat} (h : inserted log lo hi = []) (hlo : lo ≤ lo')
    (hhi : hi' ≤ hi) : inserted log lo' hi' = [] := by
  rw [List.eq_nil_iff_forall_not_mem] at h ⊢
  intro element helement
  obtain ⟨w, hw, hw', hmem⟩ := mem_inserted.mp helement
  exact h element (mem_inserted.mpr ⟨w, by omega, by omega, hmem⟩)

theorem two_pow_halves (d lo : Nat) : lo + 2 ^ (d + 1) = lo + 2 ^ d + 2 ^ d := by
  rw [Nat.pow_succ]
  omega

/-- The filter of an index holds what was inserted at its offsets. -/
theorem Covers.holding (h : Covers digest log starts n d lo index) :
    Holding digest (inserted log lo (lo + 2 ^ d)) index.filter := by
  cases index with
  | empty =>
    have hnone : inserted log lo (lo + 2 ^ d) = [] := by
      cases d <;> exact h
    rw [hnone]
    exact holding_empty digest
  | node filter left right =>
    cases d with
    | zero => exact h.2.1
    | succ d => exact h.2.1

theorem covers_empty (h : inserted log lo (lo + 2 ^ d) = []) :
    Covers digest log starts n d lo empty := by
  cases d <;> exact h

theorem Covers.halves (h : Covers digest log starts n (d + 1) lo index) :
    Covers digest log starts n d lo index.left ∧
      Covers digest log starts n d (lo + 2 ^ d) index.right := by
  cases index with
  | empty =>
    have hnone : inserted log lo (lo + 2 ^ (d + 1)) = [] := h
    rw [two_pow_halves] at hnone
    have hpos := Nat.two_pow_pos d
    exact ⟨covers_empty (inserted_nil_of_le hnone (Nat.le_refl lo) (by omega)),
      covers_empty (inserted_nil_of_le hnone (by omega) (Nat.le_refl _))⟩
  | node filter left right => exact h.2.2

/-- There is nothing at the offsets from `n` on. -/
theorem Covers.eq_empty (h : Covers digest log starts n d lo index) (hn : n ≤ lo) :
    index = empty := by
  cases index with
  | empty => rfl
  | node filter left right =>
    have hlt : lo < n := by
      cases d with
      | zero => exact h.1
      | succ d => exact h.1
    omega

/-- What was inserted and set elsewhere does not matter to an index. -/
theorem Covers.congr (h : Covers digest log starts n d lo index) (hn : n ≤ n')
    (hlog : ∀ a b, lo ≤ a → b ≤ lo + 2 ^ d → inserted log' a b = inserted log a b)
    (hstarts : ∀ w, lo ≤ w → w < lo + 2 ^ d → starts' w = starts w) :
    Covers digest log' starts' n' d lo index := by
  induction d generalizing lo index with
  | zero =>
    cases index with
    | empty => exact covers_empty ((hlog _ _ (Nat.le_refl lo) (Nat.le_refl _)).trans h)
    | node filter left right =>
      obtain ⟨hlt, hholding, hstart⟩ := h
      refine ⟨by omega, ?_, ?_⟩
      · rw [hlog _ _ (Nat.le_refl lo) (Nat.le_refl _)]
        exact hholding
      · rw [hstarts lo (Nat.le_refl lo) (by omega)]
        exact hstart
  | succ d ih =>
    have hpow := two_pow_halves d lo
    have hpos := Nat.two_pow_pos d
    cases index with
    | empty => exact covers_empty ((hlog _ _ (Nat.le_refl lo) (Nat.le_refl _)).trans h)
    | node filter left right =>
      obtain ⟨hlt, hholding, hleft, hright⟩ := h
      refine ⟨by omega, ?_, ?_, ?_⟩
      · rw [hlog _ _ (Nat.le_refl lo) (Nat.le_refl _)]
        exact hholding
      · exact ih hleft (fun a b ha hb => hlog a b ha (by omega))
          (fun w hw hw' => hstarts w hw (by omega))
      · exact ih hright (fun a b ha hb => hlog a b (by omega) (by omega))
          (fun w hw hw' => hstarts w (by omega) (by omega))

/-- The halves that an insert does not reach are as before. -/
theorem Covers.insert_elsewhere (h : Covers digest log starts n d lo index) (hn : n ≤ n')
    (hoffset : offset < lo ∨ lo + 2 ^ d ≤ offset) (variants : List Bytes) :
    Covers digest (log ++ variants.map (Prod.mk offset)) starts n' d lo index := by
  refine h.congr hn (fun a b ha hb => ?_) fun w _ _ => rfl
  rw [inserted_append, inserted_elsewhere variants (by omega), List.append_nil]

/-- An insert never raises, and afterwards the index holds the elements too. -/
theorem covers_insert (h : Covers digest log starts n d lo index) (hlo : lo ≤ offset)
    (hhi : offset < lo + 2 ^ d) (hn : n ≤ n') (hoffset : offset < n')
    (hstart : starts offset = none) (variants : List Bytes) :
    ∃ index', insert digest variants offset d lo index = .ok index' ∧
      Covers digest (log ++ variants.map (Prod.mk offset)) starts n' d lo index' := by
  induction d generalizing lo index with
  | zero =>
    obtain ⟨filter, hfilter, hholding⟩ := holding_inserts h.holding variants
    have hsame : lo = offset := by omega
    have hkept : filter.startHash = starts lo := by
      rw [startHash_inserts hfilter]
      cases index with
      | empty => rw [hsame, hstart]; rfl
      | node filter left right => exact h.2.2
    refine ⟨node filter index.left index.right, ?_, by omega, ?_, hkept⟩
    · rw [insert, hfilter]
      rfl
    · rw [inserted_append, inserted_at variants hlo hhi]
      exact hholding
  | succ d ih =>
    have hpow := two_pow_halves d lo
    have hpos := Nat.two_pow_pos d
    obtain ⟨filter, hfilter, hholding⟩ := holding_inserts h.holding variants
    have hholding' : Holding digest (inserted (log ++ variants.map (Prod.mk offset)) lo
        (lo + 2 ^ (d + 1))) filter := by
      rw [inserted_append, inserted_at variants hlo hhi]
      exact hholding
    obtain ⟨hleft, hright⟩ := h.halves
    by_cases hside : offset < lo + 2 ^ d
    · obtain ⟨left, hinsert, hcovers⟩ := ih hleft hlo hside
      refine ⟨node filter left index.right, ?_, by omega, hholding', hcovers,
        hright.insert_elsewhere hn (.inl hside) variants⟩
      rw [insert, hfilter]
      change (if offset < lo + 2 ^ d then _ else _) = _
      rw [if_pos hside, hinsert]
      rfl
    · obtain ⟨right, hinsert, hcovers⟩ := ih hright (by omega) (by omega)
      refine ⟨node filter index.left right, ?_, by omega, hholding',
        hleft.insert_elsewhere hn (.inr (by omega)) variants, hcovers⟩
      rw [insert, hfilter]
      change (if offset < lo + 2 ^ d then _ else _) = _
      rw [if_neg hside, hinsert]
      rfl

theorem covers_setStart (h : Covers digest log starts n d lo index) (hlo : lo ≤ offset)
    (hhi : offset < lo + 2 ^ d) (hash : Bytes) :
    Covers digest log (Function.update starts offset (some hash)) n d lo
      (setStart offset hash d lo index) := by
  induction d generalizing lo index with
  | zero =>
    cases index with
    | empty => exact h
    | node filter left right =>
      obtain ⟨hlt, hholding, -⟩ := h
      have hsame : offset = lo := by omega
      refine ⟨hlt, ⟨hholding.count, hholding.tiers, hholding.sized, hholding.loaded,
        hholding.marked⟩, ?_⟩
      rw [hsame, Function.update_self]
  | succ d ih =>
    have hpow := two_pow_halves d lo
    have hpos := Nat.two_pow_pos d
    cases index with
    | empty => exact h
    | node filter left right =>
      obtain ⟨hlt, hholding, hleft, hright⟩ := h
      have hother : ∀ w, w ≠ offset → Function.update starts offset (some hash) w = starts w :=
        fun w hw => Function.update_of_ne hw _ _
      rw [setStart]
      by_cases hside : offset < lo + 2 ^ d
      · rw [if_pos hside]
        exact ⟨hlt, hholding, ih hleft hlo hside, hright.congr (Nat.le_refl n)
          (fun _ _ _ _ => rfl) fun w hw _ => hother w (by omega)⟩
      · rw [if_neg hside]
        exact ⟨hlt, hholding, hleft.congr (Nat.le_refl n) (fun _ _ _ _ => rfl)
          fun w _ hw => hother w (by omega), ih hright (by omega) (by omega)⟩

/-- The leaf of an offset: its filter holds what was inserted there, and it has its start hash. -/
structure LeafAt (digest : Bytes → Bytes) (log : List (Nat × Bytes)) (starts : Nat → Option Bytes)
    (w : Nat) (filter : Filter) : Prop where
  holding : Holding digest (inserted log w (w + 1)) filter
  start : filter.startHash = starts w

/-- A search never raises. It finds the leaves of some offsets below `n`, in their order, with all
at which the element was inserted. -/
theorem covers_search (h : Covers digest log starts n d lo index) (element : Bytes) :
    ∃ (hit : Nat → Bool) (leaves : List Filter), search digest element d index = .ok leaves ∧
      List.Forall₂ (LeafAt digest log starts) ((List.range' lo (2 ^ d)).filter hit) leaves ∧
      ∀ w, lo ≤ w → w < lo + 2 ^ d →
        ((w, element) ∈ log → hit w = true) ∧ (hit w = true → w < n) := by
  have hnothing : ∀ (d lo : Nat), (∀ w, lo ≤ w → w < lo + 2 ^ d → (w, element) ∉ log) →
      List.Forall₂ (LeafAt digest log starts) ((List.range' lo (2 ^ d)).filter fun _ => false) [] ∧
      ∀ w, lo ≤ w → w < lo + 2 ^ d → ((w, element) ∈ log → false = true) ∧ (false = true → w < n) := by
    intro d lo hnone
    refine ⟨?_, fun w hw hw' => ⟨fun hmem => absurd hmem (hnone w hw hw'), fun hhit => by cases hhit⟩⟩
    rw [List.filter_false]
    exact .nil
  have hempty : ∀ (d lo : Nat), inserted log lo (lo + 2 ^ d) = [] →
      ∀ w, lo ≤ w → w < lo + 2 ^ d → (w, element) ∉ log := by
    intro d lo hnone w hw hw' hmem
    have hin := mem_inserted.mpr ⟨w, hw, hw', hmem⟩
    rw [hnone] at hin
    cases hin
  induction d generalizing lo index with
  | zero =>
    cases index with
    | empty => exact ⟨fun _ => false, [], rfl, hnothing 0 lo (hempty 0 lo h)⟩
    | node filter left right =>
      obtain ⟨hlt, hholding, hstart⟩ := h
      obtain ⟨found, hfound⟩ := bloomTest_total hholding element
      cases found with
      | false =>
        refine ⟨fun _ => false, [], by rw [search, hfound]; rfl, hnothing 0 lo fun w hw hw' hmem => ?_⟩
        rw [bloomTest_of_holding hholding (mem_inserted.mpr ⟨w, hw, hw', hmem⟩)] at hfound
        cases hfound
      | true =>
        exact ⟨fun _ => true, [filter], by rw [search, hfound]; rfl,
          .cons ⟨hholding, hstart⟩ .nil, fun w hw hw' => ⟨fun _ => rfl, fun _ => by omega⟩⟩
  | succ d ih =>
    have hpow := two_pow_halves d lo
    have hpos := Nat.two_pow_pos d
    cases index with
    | empty => exact ⟨fun _ => false, [], rfl, hnothing (d + 1) lo (hempty (d + 1) lo h)⟩
    | node filter left right =>
      obtain ⟨hlt, hholding, hleft, hright⟩ := h
      obtain ⟨found, hfound⟩ := bloomTest_total hholding element
      cases found with
      | false =>
        refine ⟨fun _ => false, [], by rw [search, hfound]; rfl,
          hnothing (d + 1) lo fun w hw hw' hmem => ?_⟩
        rw [bloomTest_of_holding hholding (mem_inserted.mpr ⟨w, hw, hw', hmem⟩)] at hfound
        cases hfound
      | true =>
        obtain ⟨first, leaves, hfirst, hleaves, hfinds⟩ := ih hleft
        obtain ⟨second, leaves', hsecond, hleaves', hfinds'⟩ := ih hright
        refine ⟨fun w => if w < lo + 2 ^ d then first w else second w, leaves ++ leaves', ?_, ?_,
          fun w hw hw' => ?_⟩
        · rw [search, hfound]
          change (do return (← search digest element d left) ++
            (← search digest element d right) : Py (List Filter)) = _
          rw [hfirst, hsecond]
          rfl
        · have hhalves : List.range' lo (2 ^ (d + 1)) =
              List.range' lo (2 ^ d) ++ List.range' (lo + 2 ^ d) (2 ^ d) := by
            rw [List.range'_append_1, Nat.pow_succ, Nat.mul_two]
          have hlower : ∀ w ∈ List.range' lo (2 ^ d),
              (if w < lo + 2 ^ d then first w else second w) = first w := fun w hw =>
            if_pos (List.mem_range'_1.mp hw).2
          have hupper : ∀ w ∈ List.range' (lo + 2 ^ d) (2 ^ d),
              (if w < lo + 2 ^ d then first w else second w) = second w := fun w hw =>
            if_neg (Nat.not_lt.mpr (List.mem_range'_1.mp hw).1)
          rw [hhalves, List.filter_append, List.filter_congr hlower, List.filter_congr hupper]
          exact List.rel_append hleaves hleaves'
        · by_cases hside : w < lo + 2 ^ d
          · simp only [if_pos hside]
            exact hfinds w hw hside
          · simp only [if_neg hside]
            exact hfinds' w (Nat.not_lt.mp hside) (by omega)

theorem exists_leafAt {ws : List Nat} {leaves : List Filter} {w : Nat}
    (h : List.Forall₂ (LeafAt digest log starts) ws leaves) (hw : w ∈ ws) :
    ∃ leaf ∈ leaves, LeafAt digest log starts w leaf := by
  induction h with
  | nil => cases hw
  | cons hleaf _ ih =>
    cases hw with
    | head => exact ⟨_, List.mem_cons_self, hleaf⟩
    | tail _ hw =>
      obtain ⟨leaf, hmem, hat⟩ := ih hw
      exact ⟨leaf, List.mem_cons_of_mem _ hmem, hat⟩

theorem exists_offset {ws : List Nat} {leaves : List Filter} {leaf : Filter}
    (h : List.Forall₂ (LeafAt digest log starts) ws leaves) (hleaf : leaf ∈ leaves) :
    ∃ w ∈ ws, LeafAt digest log starts w leaf := by
  induction h with
  | nil => cases hleaf
  | cons hat _ ih =>
    cases hleaf with
    | head => exact ⟨_, List.mem_cons_self, hat⟩
    | tail _ hleaf =>
      obtain ⟨w, hw, hat⟩ := ih hleaf
      exact ⟨w, List.mem_cons_of_mem _ hw, hat⟩

/-- The leaf of an offset has its start hash, and there is one where something was inserted. -/
theorem covers_startAt (h : Covers digest log starts n d lo index) (hlo : lo ≤ offset)
    (hhi : offset < lo + 2 ^ d) :
    startAt offset d lo index = starts offset ∨
      startAt offset d lo index = none ∧ ∀ element, (offset, element) ∉ log := by
  induction d generalizing lo index with
  | zero =>
    cases index with
    | empty =>
      refine .inr ⟨rfl, fun element hmem => ?_⟩
      have hin := mem_inserted.mpr ⟨offset, hlo, hhi, hmem⟩
      rw [show inserted log lo (lo + 2 ^ 0) = [] from h] at hin
      cases hin
    | node filter left right =>
      have hsame : offset = lo := by omega
      rw [hsame]
      exact .inl h.2.2
  | succ d ih =>
    have hpow := two_pow_halves d lo
    have hpos := Nat.two_pow_pos d
    cases index with
    | empty =>
      refine .inr ⟨rfl, fun element hmem => ?_⟩
      have hin := mem_inserted.mpr ⟨offset, hlo, hhi, hmem⟩
      rw [show inserted log lo (lo + 2 ^ (d + 1)) = [] from h] at hin
      cases hin
    | node filter left right =>
      obtain ⟨-, -, hleft, hright⟩ := h
      rw [startAt]
      by_cases hside : offset < lo + 2 ^ d
      · rw [if_pos hside]
        exact ih hleft hlo hside
      · rw [if_neg hside]
        exact ih hright (by omega) (by omega)

end Covering

end Index

end Astreum.Bloom
