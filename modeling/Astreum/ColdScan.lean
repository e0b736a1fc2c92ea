import Astreum.ColdStorage
import Mathlib.Logic.Relation

namespace Astreum

section Scan

def Segment.keys (segment : Segment) : List Bytes := segment.index.map Prod.fst

def Level.keys (level : Level) : List Bytes := level.flatMap fun s => s.2.keys

def Table.storedKeys (t : Table) : List Bytes := t.level0.keys ++ t.levels.flatMap Level.keys

/-- The directory `level_n`, from `level_1` on. -/
def Table.level (t : Table) (n : Nat) : Level := (t.levels[n - 1]?).getD []

/-- `_read_index_ids`. -/
def readIndexIds (segment : Segment) (start : Nat) (limit : Int) : List Bytes :=
  let wanted := max 0 (min limit ((segment.index.length : Int) - start))
  (segment.keys.drop start).take wanted.toNat

/-- Where a scan stands between two holds of the lock. -/
inductive Position where
  | start
  | check (level : Nat)
  | listing (level : Nat)
  | reading (level number offset : Nat) (numbers : List Nat)
  | done

/-- The next of the files that are left of a listing, or the next level. -/
def nextFile (level : Nat) : List Nat → Position
  | [] => .check (level + 1)
  | number :: numbers => .reading level number 0 numbers

/-- What `iter_exprs_in_cold_storage` does next behind `level_0`, and the ids that it yields. -/
def scanRead (batch : Option Int) (t : Table) : Position → Position × List Bytes
  | .check level => (if t.levels.length < level then .done else .listing level, [])
  | .listing level => (nextFile level (((t.level level).map Prod.fst).mergeSort (· ≤ ·)), [])
  | .reading level number offset numbers => match lookupPair number (t.level level) with
    | none => (nextFile level numbers, [])
    | some segment =>
      let count := segment.index.length
      let ids := readIndexIds segment offset (batch.getD count)
      (if batch = none ∨ ids = [] ∨ count ≤ offset + ids.length then nextFile level numbers
        else .reading level number (offset + ids.length) numbers, ids)
  | position => (position, [])

/-- A table whose segments are sorted, each under a number of its own in its level. -/
structure SoundTable extends Table where
  sound : ∀ level ∈ levels, level.Sound

/-- A scan among the writes to its table: the keys that were written, the ids that were yielded and
the keys that were stored when the scan took its first listing. -/
structure ScanRun where
  table : Table
  written : List Bytes
  position : Position
  yielded : List Bytes
  listed : List Bytes

def ScanRun.of (t : Table) : ScanRun := ⟨t, [], .start, [], []⟩

/-- A put with the collation and the merges that it sets off, or the next hold of the scan. -/
inductive ScanStep (base : Int) (batch : Option Int) : ScanRun → ScanRun → Prop
  | put {r : ScanRun} {key data : Bytes} {t : Table} :
      Write base (fun _ => True) r.table key data t →
      ScanStep base batch r { r with table := t, written := key :: r.written }
  | first {r : ScanRun} {ids : List Bytes} : r.position = .start →
      ids.Perm (r.table.level0.keys.filter fun key => key.length = 32) →
      ScanStep base batch r
        { r with position := .check 1, yielded := ids, listed := r.table.storedKeys }
  | next {r : ScanRun} : r.position ≠ .start →
      ScanStep base batch r { r with
        position := (scanRead batch r.table r.position).1
        yielded := r.yielded ++ (scanRead batch r.table r.position).2 }

end Scan

section Keys

variable {segment : Segment} {level listing : Level} {levels levels' : List Level} {key : Bytes}

theorem Level.mem_keys : key ∈ level.keys ↔ ∃ s ∈ level, key ∈ s.2.keys := List.mem_flatMap

theorem Level.keys_subset (h : level ⊆ listing) (hkey : key ∈ level.keys) : key ∈ listing.keys := by
  obtain ⟨s, hs, hkeys⟩ := Level.mem_keys.mp hkey
  exact Level.mem_keys.mpr ⟨s, h hs, hkeys⟩

theorem Segment.Ordered.mem_keys (h : segment.Ordered) :
    key ∈ segment.keys ↔ (segment.read key).isSome := by
  obtain ⟨rows, hrows⟩ := h
  rw [Segment.keys, hrows.index, map_fst_spans, hrows.read_eq, Option.isSome_iff_ne_none,
    ne_eq, lookupPair_eq_none, not_not]

/-- A collation has the keys of `level_0`. -/
theorem collate_keys {files : List (Bytes × Bytes)} {level0 : Dict Bytes Bytes}
    (hperm : files.Perm level0.pairs) (h : collateExprs files = some segment) :
    segment.Ordered ∧ ∀ key, key ∈ segment.keys ↔ key ∈ level0.keys := by
  obtain ⟨hordered, hread⟩ := collateExprs_spec hperm h
  refine ⟨hordered, fun key => ?_⟩
  rw [hordered.mem_keys, hread, Option.isSome_iff_ne_none, ne_eq, Dict.get?_eq_none, not_not]

/-- A merge has the keys of its level. -/
theorem merge_keys (h : level.Sound) (hperm : listing.Perm level)
    (hmerge : mergeExprs listing = some segment) :
    segment.Ordered ∧ ∀ key, key ∈ segment.keys ↔ key ∈ level.keys := by
  have hlisting := h.perm hperm
  obtain ⟨hordered, hread⟩ := mergeExprs_spec hlisting.ordered hlisting.numbers hmerge
  refine ⟨hordered, fun key => ?_⟩
  rw [hordered.mem_keys, hread, List.findSome?_isSome_iff, Level.mem_keys]
  constructor
  · rintro ⟨s, hs, hsome⟩
    have hmem := hperm.mem_iff.mp (List.mem_reverse.mp hs)
    exact ⟨s, hmem, (h.ordered s hmem).mem_keys.mpr hsome⟩
  · rintro ⟨s, hs, hkey⟩
    exact ⟨s, List.mem_reverse.mpr (hperm.mem_iff.mpr hs), (h.ordered s hs).mem_keys.mp hkey⟩

/-- Every level keeps its segments. -/
def Stays (levels levels' : List Level) : Prop :=
  ∀ (i : Nat) (level : Level), levels[i]? = some level →
    ∃ level' : Level, levels'[i]? = some level' ∧ level ⊆ level'

/-- A key stands in a level behind the first `i`. -/
def Behind (i : Nat) (levels : List Level) (key : Bytes) : Prop :=
  ∃ (j : Nat) (level : Level), i ≤ j ∧ levels[j]? = some level ∧ key ∈ level.keys

/-- Every level keeps its segments or is emptied into the levels behind it. -/
def Rises (levels levels' : List Level) : Prop :=
  ∀ (i : Nat) (level : Level), levels[i]? = some level →
    ∃ level' : Level, levels'[i]? = some level' ∧
      (level ⊆ level' ∨ level' = [] ∧ ∀ key ∈ level.keys, Behind (i + 1) levels' key)

theorem Stays.rises (h : Stays levels levels') {levels'' : List Level}
    (hrises : Rises levels' levels'') : Rises levels levels'' := by
  intro i level hlevel
  obtain ⟨level', hlevel', hsub⟩ := h i level hlevel
  obtain ⟨level'', hlevel'', hcase⟩ := hrises i level' hlevel'
  refine ⟨level'', hlevel'', hcase.imp (fun hsub' => List.Subset.trans hsub hsub')
    fun hmoved => ?_⟩
  exact ⟨hmoved.1, fun key hkey => hmoved.2 key (Level.keys_subset hsub hkey)⟩

theorem rises_refl (levels : List Level) : Rises levels levels :=
  fun _ level hlevel => ⟨level, hlevel, .inl (List.Subset.refl level)⟩

theorem Behind.cons {i : Nat} (h : Behind i levels key) (level : Level) :
    Behind (i + 1) (level :: levels) key := by
  obtain ⟨j, above, hij, hlevel, hkey⟩ := h
  exact ⟨j + 1, above, Nat.succ_le_succ hij, by rwa [List.getElem?_cons_succ], hkey⟩

theorem Rises.cons (h : Rises levels levels') (level : Level) :
    Rises (level :: levels) (level :: levels') := by
  intro i found hfound
  cases i with
  | zero =>
    rw [List.getElem?_cons_zero] at hfound
    obtain rfl := Option.some.inj hfound
    exact ⟨level, List.getElem?_cons_zero, .inl (List.Subset.refl level)⟩
  | succ i =>
    rw [List.getElem?_cons_succ] at hfound
    obtain ⟨found', hfound', hcase⟩ := h i found hfound
    refine ⟨found', by rwa [List.getElem?_cons_succ], hcase.imp_right fun hmoved => ?_⟩
    exact ⟨hmoved.1, fun key hkey => (hmoved.2 key hkey).cons level⟩

theorem addSegment_stays (segment : Segment) (levels : List Level) :
    Stays levels (addSegment segment levels) := by
  intro i level hlevel
  cases levels with
  | nil => cases hlevel
  | cons first levels =>
    cases i with
    | zero =>
      rw [List.getElem?_cons_zero] at hlevel
      obtain rfl := Option.some.inj hlevel
      exact ⟨_, List.getElem?_cons_zero, List.subset_append_left _ _⟩
    | succ i =>
      rw [List.getElem?_cons_succ] at hlevel
      exact ⟨level, by rwa [addSegment, List.getElem?_cons_succ], List.Subset.refl level⟩

theorem addSegment_first (segment : Segment) (levels : List Level) :
    ∃ first, (addSegment segment levels)[0]? = some first ∧
      ∀ key ∈ segment.keys, key ∈ first.keys := by
  cases levels with
  | nil =>
    exact ⟨_, rfl, fun key hkey => Level.mem_keys.mpr ⟨_, List.mem_singleton.mpr rfl, hkey⟩⟩
  | cons first levels =>
    exact ⟨_, rfl, fun key hkey =>
      Level.mem_keys.mpr ⟨_, List.mem_append_right _ (List.mem_singleton.mpr rfl), hkey⟩⟩

theorem addSegment_keys (h : key ∈ (addSegment segment levels).flatMap Level.keys) :
    key ∈ segment.keys ∨ key ∈ levels.flatMap Level.keys := by
  obtain ⟨level, hlevel, hkey⟩ := List.mem_flatMap.mp h
  cases levels with
  | nil =>
    rw [List.mem_singleton.mp hlevel] at hkey
    obtain ⟨s, hs, hkey⟩ := Level.mem_keys.mp hkey
    rw [List.mem_singleton.mp hs] at hkey
    exact .inl hkey
  | cons first levels =>
    rcases List.mem_cons.mp hlevel with rfl | hlevel
    · obtain ⟨s, hs, hkey⟩ := Level.mem_keys.mp hkey
      rcases List.mem_append.mp hs with hs | hs
      · have hfirst : key ∈ first.keys := Level.mem_keys.mpr ⟨s, hs, hkey⟩
        exact .inr (List.mem_flatMap.mpr ⟨first, List.mem_cons_self, hfirst⟩)
      · rw [List.mem_singleton.mp hs] at hkey
        exact .inl hkey
    · exact .inr (List.mem_flatMap.mpr ⟨level, List.mem_cons_of_mem _ hlevel, hkey⟩)

theorem makeLevel_stays (levels : List Level) : Stays levels (makeLevel levels) := by
  intro i level hlevel
  cases levels with
  | nil => cases hlevel
  | cons first levels => exact ⟨level, hlevel, List.Subset.refl level⟩

theorem makeLevel_keys (levels : List Level) :
    (makeLevel levels).flatMap Level.keys = levels.flatMap Level.keys := by
  cases levels <;> rfl

/-- The merges after a collation move keys to levels behind theirs only. -/
theorem cascade_rises {base : Int} {listed : Level → Prop} {n : Nat}
    (hrun : Cascade base listed n levels levels') (h : ∀ level ∈ levels, level.Sound) :
    (∀ level ∈ levels', level.Sound) ∧ Rises levels levels' ∧
      ∀ key ∈ levels'.flatMap Level.keys, key ∈ levels.flatMap Level.keys := by
  induction hrun with
  | last => exact ⟨h, rises_refl _, fun _ hkey => hkey⟩
  | noLimit => exact ⟨h, rises_refl _, fun _ hkey => hkey⟩
  | @within _ level _ _ _ _ _ ih =>
    obtain ⟨hsound, hrises, hkeys⟩ := ih fun level hlevel => h level (List.mem_cons_of_mem _ hlevel)
    refine ⟨fun found hfound => ?_, hrises.cons level, fun key hkey => ?_⟩
    · rcases List.mem_cons.mp hfound with rfl | hfound
      · exact h found List.mem_cons_self
      · exact hsound found hfound
    · rw [List.flatMap_cons, List.mem_append] at hkey ⊢
      exact hkey.imp_right (hkeys key)
  | @merged _ level _ levels levels' segment _ _ hperm _ hmerge _ ih =>
    obtain ⟨hordered, hseg⟩ := merge_keys (h level List.mem_cons_self) hperm hmerge
    have htail : ∀ l ∈ levels, l.Sound := fun l hl => h l (List.mem_cons_of_mem _ hl)
    obtain ⟨hsound, hrises, hkeys⟩ := ih (addSegment_spec htail hordered).1
    refine ⟨fun found hfound => ?_, fun i found hfound => ?_, fun key hkey => ?_⟩
    · rcases List.mem_cons.mp hfound with rfl | hfound
      · exact sound_nil
      · exact hsound found hfound
    · cases i with
      | zero =>
        rw [List.getElem?_cons_zero] at hfound
        obtain rfl := Option.some.inj hfound
        refine ⟨[], List.getElem?_cons_zero, .inr ⟨rfl, fun key hkey => ?_⟩⟩
        obtain ⟨first, hfirst, hin⟩ := addSegment_first segment levels
        obtain ⟨first', hfirst', hcase⟩ := hrises 0 first hfirst
        have hkey' := hin key ((hseg key).mpr hkey)
        rcases hcase with hsub | ⟨-, hmoved⟩
        · exact Behind.cons ⟨0, first', le_rfl, hfirst', Level.keys_subset hsub hkey'⟩ _
        · obtain ⟨j, above, -, habove, hkey''⟩ := hmoved key hkey'
          exact Behind.cons ⟨j, above, Nat.zero_le j, habove, hkey''⟩ _
      | succ i =>
        rw [List.getElem?_cons_succ] at hfound
        obtain ⟨found', hfound', hcase⟩ :=
          (addSegment_stays segment levels).rises hrises i found hfound
        refine ⟨found', by rwa [List.getElem?_cons_succ], hcase.imp_right fun hmoved => ?_⟩
        exact ⟨hmoved.1, fun key hkey => (hmoved.2 key hkey).cons []⟩
    · rw [List.flatMap_cons] at hkey ⊢
      rcases addSegment_keys (hkeys key hkey) with hkey | hkey
      · exact List.mem_append_left _ ((hseg key).mp hkey)
      · exact List.mem_append_right _ hkey
  | @notMerged _ level _ levels =>
    have htail : ∀ l ∈ levels, l.Sound := fun l hl => h l (List.mem_cons_of_mem _ hl)
    refine ⟨fun found hfound => ?_, ((makeLevel_stays levels).rises (rises_refl _)).cons level,
      fun key hkey => ?_⟩
    · rcases List.mem_cons.mp hfound with rfl | hfound
      · exact h found List.mem_cons_self
      · exact (makeLevel_spec htail).1 found hfound
    · rwa [List.flatMap_cons, makeLevel_keys] at hkey

/-- A write moves keys to levels behind theirs only, and its key is the only new one. -/
theorem write_rises {base : Int} {listed : Level → Prop} {t t' : Table} {data : Bytes}
    (hrun : Write base listed t key data t') (h : ∀ level ∈ t.levels, level.Sound) :
    (∀ level ∈ t'.levels, level.Sound) ∧ Rises t.levels t'.levels ∧
      ∀ k ∈ t'.storedKeys, k = key ∨ k ∈ t.storedKeys := by
  cases hrun with
  | small =>
    refine ⟨h, rises_refl _, fun k hk => ?_⟩
    rcases List.mem_append.mp hk with hk | hk
    · exact (Dict.mem_keys_insert.mp hk).imp_right (List.mem_append_left _)
    · exact .inr (List.mem_append_right _ hk)
  | notCollated =>
    refine ⟨(makeLevel_spec h).1, (makeLevel_stays _).rises (rises_refl _), fun k hk => ?_⟩
    rcases List.mem_append.mp hk with hk | hk
    · exact (Dict.mem_keys_insert.mp hk).imp_right (List.mem_append_left _)
    · rw [makeLevel_keys] at hk
      exact .inr (List.mem_append_right _ hk)
  | collated _ hperm hcollate hcascade =>
    obtain ⟨hordered, hseg⟩ := collate_keys hperm hcollate
    obtain ⟨hsound, hrises, hkeys⟩ := cascade_rises hcascade (addSegment_spec h hordered).1
    refine ⟨hsound, (addSegment_stays _ _).rises hrises, fun k hk => ?_⟩
    rcases List.mem_append.mp hk with hk | hk
    · exact absurd hk List.not_mem_nil
    · rcases addSegment_keys (hkeys k hk) with hk | hk
      · exact (Dict.mem_keys_insert.mp ((hseg k).mp hk)).imp_right (List.mem_append_left _)
      · exact .inr (List.mem_append_right _ hk)

end Keys

section Positions

variable {t t' : Table} {batch : Option Int} {key : Bytes} {n : Nat}

/-- A key stands in a level from number `n` on. -/
def Above (t : Table) (n : Nat) (key : Bytes) : Prop := ∃ m, n ≤ m ∧ key ∈ (t.level m).keys

/-- A file of a level has a key behind its first entries. -/
def HasAt (level : Level) (number offset : Nat) (key : Bytes) : Prop :=
  ∃ segment, lookupPair number level = some segment ∧ key ∈ segment.keys.drop offset

/-- A key is in what a scan has still to read. -/
def Ahead (t : Table) (key : Bytes) : Position → Prop
  | .start => False
  | .check level => 1 ≤ level ∧ Above t level key
  | .listing level => 1 ≤ level ∧ Above t level key
  | .reading level number offset numbers => 1 ≤ level ∧ (HasAt (t.level level) number offset key ∨
      (∃ m ∈ numbers, HasAt (t.level level) m 0 key) ∨ Above t (level + 1) key)
  | .done => False

theorem Above.mono {m : Nat} (h : Above t n key) (hle : m ≤ n) : Above t m key := by
  obtain ⟨k, hnk, hkey⟩ := h
  exact ⟨k, hle.trans hnk, hkey⟩

theorem Level.keys_nil : Level.keys [] = [] := rfl

theorem getElem?_level (hkey : key ∈ (t.level n).keys) :
    t.levels[n - 1]? = some (t.level n) := by
  rw [Table.level] at hkey ⊢
  cases hlevel : t.levels[n - 1]? with
  | some level => rfl
  | none =>
    rw [hlevel, Option.getD_none, Level.keys_nil] at hkey
    cases hkey

theorem sound_level (h : ∀ level ∈ t.levels, level.Sound) (n : Nat) : (t.level n).Sound := by
  rw [Table.level]
  cases hlevel : t.levels[n - 1]? with
  | none => exact sound_nil
  | some level => exact h level (List.mem_of_getElem? hlevel)

/-- A level keeps its segments, or its keys stand above it. -/
theorem level_rises (h : Rises t.levels t'.levels) (hn : 1 ≤ n) :
    t.level n ⊆ t'.level n ∨ ∀ key ∈ (t.level n).keys, Above t' (n + 1) key := by
  cases hlevel : t.levels[n - 1]? with
  | none =>
    have hempty : t.level n = [] := by rw [Table.level, hlevel, Option.getD_none]
    rw [hempty]
    exact .inl (List.nil_subset _)
  | some level =>
    obtain ⟨level', hlevel', hcase⟩ := h (n - 1) level hlevel
    have hsame : t.level n = level := by rw [Table.level, hlevel, Option.getD_some]
    have hsame' : t'.level n = level' := by rw [Table.level, hlevel', Option.getD_some]
    rw [hsame, hsame']
    refine hcase.imp_right fun hmoved key hkey => ?_
    obtain ⟨j, above, hj, habove, hkey'⟩ := hmoved.2 key hkey
    refine ⟨j + 1, by omega, ?_⟩
    rwa [Table.level, Nat.add_sub_cancel, habove, Option.getD_some]

theorem Above.rises (h : Above t n key) (hn : 1 ≤ n) (hrises : Rises t.levels t'.levels) :
    Above t' n key := by
  obtain ⟨m, hm, hkey⟩ := h
  rcases level_rises hrises (hn.trans hm) with hsub | habove
  · exact ⟨m, hm, Level.keys_subset hsub hkey⟩
  · exact (habove key hkey).mono (hm.trans (Nat.le_succ m))

theorem HasAt.mem_keys {level : Level} {number offset : Nat} (h : HasAt level number offset key) :
    key ∈ level.keys := by
  obtain ⟨segment, hsegment, hkey⟩ := h
  exact Level.mem_keys.mpr ⟨_, mem_of_lookupPair hsegment, List.mem_of_mem_drop hkey⟩

theorem HasAt.subset {level level' : Level} {number offset : Nat}
    (h : HasAt level number offset key) (hsub : level ⊆ level') (hsound : level'.Sound) :
    HasAt level' number offset key := by
  obtain ⟨segment, hsegment, hkey⟩ := h
  exact ⟨segment, lookupPair_of_mem hsound.numbers (hsub (mem_of_lookupPair hsegment)), hkey⟩

/-- A write leaves a key ahead of a scan. -/
theorem Ahead.rises {p : Position} (h : Ahead t key p) (hrises : Rises t.levels t'.levels)
    (hsound : ∀ level ∈ t'.levels, level.Sound) : Ahead t' key p := by
  cases p with
  | start => exact h
  | done => exact h
  | check level => exact ⟨h.1, h.2.rises h.1 hrises⟩
  | listing level => exact ⟨h.1, h.2.rises h.1 hrises⟩
  | reading level number offset numbers =>
    obtain ⟨hlevel, hcase⟩ := h
    refine ⟨hlevel, ?_⟩
    have hsound' := sound_level hsound level
    rcases level_rises hrises hlevel with hsub | habove
    · rcases hcase with hhere | ⟨m, hm, hthere⟩ | hlater
      · exact .inl (hhere.subset hsub hsound')
      · exact .inr (.inl ⟨m, hm, hthere.subset hsub hsound'⟩)
      · exact .inr (.inr (hlater.rises (Nat.le_succ_of_le hlevel) hrises))
    · rcases hcase with hhere | ⟨m, hm, hthere⟩ | hlater
      · exact .inr (.inr (habove key hhere.mem_keys))
      · exact .inr (.inr (habove key hthere.mem_keys))
      · exact .inr (.inr (hlater.rises (Nat.le_succ_of_le hlevel) hrises))

theorem ahead_nextFile {level : Nat} {numbers : List Nat} (hlevel : 1 ≤ level)
    (h : (∃ m ∈ numbers, HasAt (t.level level) m 0 key) ∨ Above t (level + 1) key) :
    Ahead t key (nextFile level numbers) := by
  cases numbers with
  | nil =>
    rcases h with ⟨m, hm, -⟩ | habove
    · cases hm
    · exact ⟨Nat.le_add_left 1 level, habove⟩
  | cons number numbers =>
    refine ⟨hlevel, ?_⟩
    rcases h with ⟨m, hm, hhere⟩ | habove
    · rcases List.mem_cons.mp hm with rfl | hm
      · exact .inl hhere
      · exact .inr (.inl ⟨m, hm, hhere⟩)
    · exact .inr (.inr habove)

theorem length_keys (segment : Segment) : segment.keys.length = segment.index.length :=
  List.length_map ..

/-- A key behind the offset is among the ids that are read or behind those, with more to read. -/
theorem mem_readIndexIds {segment : Segment} {offset : Nat} {limit : Int} (hlimit : 1 ≤ limit)
    (hkey : key ∈ segment.keys.drop offset) : key ∈ readIndexIds segment offset limit ∨
      (readIndexIds segment offset limit ≠ [] ∧
        (readIndexIds segment offset limit).length = limit ∧
          offset + (readIndexIds segment offset limit).length < segment.index.length ∧
            key ∈ segment.keys.drop (offset + (readIndexIds segment offset limit).length)) := by
  obtain ⟨w, hw⟩ : ∃ w, w = (max 0 (min limit ((segment.index.length : Int) - offset))).toNat :=
    ⟨_, rfl⟩
  have hids : readIndexIds segment offset limit = (segment.keys.drop offset).take w := by
    rw [readIndexIds, hw]
  rw [← List.take_append_drop w (segment.keys.drop offset), List.mem_append, List.drop_drop] at hkey
  rw [hids]
  refine hkey.imp_right fun hdrop => ?_
  have hlt : offset + w < segment.index.length := by
    have hpos := List.length_pos_of_mem hdrop
    rw [List.length_drop, length_keys] at hpos
    omega
  have hlength : ((segment.keys.drop offset).take w).length = w := by
    rw [List.length_take, List.length_drop, length_keys]
    omega
  refine ⟨fun hnil => ?_, ?_, ?_, ?_⟩
  · rw [hnil, List.length_nil] at hlength
    omega
  · rw [hlength]
    omega
  · rwa [hlength]
  · rwa [hlength]

/-- What a scan has ahead of it is yielded by its next read or still ahead behind that. -/
theorem ahead_scanRead (hbatch : ∀ b, batch = some b → 1 ≤ b)
    (hsound : ∀ level ∈ t.levels, level.Sound) {p : Position} (h : Ahead t key p) :
    key ∈ (scanRead batch t p).2 ∨ Ahead t key (scanRead batch t p).1 := by
  cases p with
  | start => exact h.elim
  | done => exact h.elim
  | check level =>
    obtain ⟨hlevel, m, hm, hkey⟩ := h
    rw [scanRead]
    split
    · rename_i hlast
      have hfound := getElem?_level hkey
      have hlt := (List.getElem?_eq_some_iff.mp hfound).1
      omega
    · exact .inr ⟨hlevel, m, hm, hkey⟩
  | listing level =>
    obtain ⟨hlevel, m, hm, hkey⟩ := h
    refine .inr (ahead_nextFile hlevel ?_)
    rcases Nat.eq_or_lt_of_le hm with rfl | hm
    · obtain ⟨s, hs, hkey⟩ := Level.mem_keys.mp hkey
      refine .inl ⟨s.1, List.mem_mergeSort.mpr (List.mem_map.mpr ⟨s, hs, rfl⟩), s.2, ?_, hkey⟩
      exact lookupPair_of_mem (sound_level hsound level).numbers hs
    · exact .inr ⟨m, hm, hkey⟩
  | reading level number offset numbers =>
    obtain ⟨hlevel, hcase⟩ := h
    rw [scanRead]
    split
    · rename_i hgone
      refine .inr (ahead_nextFile hlevel (hcase.resolve_left ?_))
      rintro ⟨segment, hsegment, -⟩
      rw [hgone] at hsegment
      cases hsegment
    · rename_i segment hsegment
      dsimp only
      have hlater : ∀ offset', (∃ m ∈ numbers, HasAt (t.level level) m 0 key) ∨
          Above t (level + 1) key →
          Ahead t key (if batch = none ∨ readIndexIds segment offset
              (batch.getD segment.index.length) = [] ∨ segment.index.length ≤ offset' then
            nextFile level numbers else .reading level number offset' numbers) := by
        intro offset' hrest
        split
        · exact ahead_nextFile hlevel hrest
        · exact ⟨hlevel, .inr hrest⟩
      rcases hcase with ⟨segment', hsegment', hkey⟩ | hrest
      · obtain rfl := Option.some.inj (hsegment.symm.trans hsegment')
        have hlimit : 1 ≤ batch.getD (segment.index.length : Int) := by
          cases batch with
          | some b => exact hbatch b rfl
          | none =>
            have hpos := List.length_pos_of_mem (List.mem_of_mem_drop hkey)
            rw [length_keys] at hpos
            rw [Option.getD_none]
            exact_mod_cast hpos
        refine (mem_readIndexIds hlimit hkey).imp_right ?_
        rintro ⟨hne, hfull, hlt, hdrop⟩
        have hmore : ¬(batch = none ∨ readIndexIds segment offset
            (batch.getD segment.index.length) = [] ∨ segment.index.length ≤
              offset + (readIndexIds segment offset (batch.getD segment.index.length)).length) := by
          rintro (rfl | hnil | hle)
          · rw [Option.getD_none] at hfull hlt
            omega
          · exact hne hnil
          · omega
        rw [if_neg hmore]
        exact ⟨hlevel, .inl ⟨segment, hsegment, hdrop⟩⟩
      · exact .inr (hlater _ hrest)

theorem level_keys_stored (hkey : key ∈ (t.level n).keys) : key ∈ t.storedKeys :=
  List.mem_append_right _ (List.mem_flatMap.mpr
    ⟨t.level n, List.mem_of_getElem? (getElem?_level hkey), hkey⟩)

/-- A read yields stored keys. -/
theorem scanRead_stored {p : Position} (h : key ∈ (scanRead batch t p).2) : key ∈ t.storedKeys := by
  cases p with
  | start | done | check level | listing level => cases h
  | reading level number offset numbers =>
    rw [scanRead] at h
    split at h
    · cases h
    · rename_i segment hsegment
      have hkeys := List.mem_of_mem_drop (List.mem_of_mem_take h)
      exact level_keys_stored (Level.mem_keys.mpr ⟨_, mem_of_lookupPair hsegment, hkeys⟩)

end Positions

section Runs

variable {base : Int} {batch : Option Int} {t : Table} {r r' : ScanRun}

/-- What holds of a scan at every moment: what is stored or was yielded was put, and what was stored
at the first listing was yielded or is ahead. -/
structure ScanRun.Kept (t : Table) (r : ScanRun) : Prop where
  sound : ∀ level ∈ r.table.levels, level.Sound
  stored : ∀ key ∈ r.table.storedKeys, key ∈ t.storedKeys ∨ key ∈ r.written
  yielded : ∀ key ∈ r.yielded, key ∈ t.storedKeys ∨ key ∈ r.written
  listed : r.position ≠ .start → ∀ key ∈ r.listed, key.length = 32 →
    key ∈ r.yielded ∨ Ahead r.table key r.position

theorem ScanRun.Kept.step (hbatch : ∀ b, batch = some b → 1 ≤ b) (h : r.Kept t)
    (hstep : ScanStep base batch r r') : r'.Kept t := by
  cases hstep with
  | @put key data t' hwrite =>
    obtain ⟨hsound, hrises, hkeys⟩ := write_rises hwrite h.sound
    have hwritten : ∀ k, k ∈ t.storedKeys ∨ k ∈ r.written →
        k ∈ t.storedKeys ∨ k ∈ key :: r.written :=
      fun k => Or.imp_right (List.mem_cons_of_mem key)
    refine ⟨hsound, fun k hk => ?_, fun k hk => hwritten k (h.yielded k hk),
      fun hpos k hk hlength => ?_⟩
    · rcases hkeys k hk with rfl | hk
      · exact .inr List.mem_cons_self
      · exact hwritten k (h.stored k hk)
    · exact (h.listed hpos k hk hlength).imp_right fun hahead => hahead.rises hrises hsound
  | first hpos hperm =>
    refine ⟨h.sound, h.stored, fun k hk => ?_, fun _ k hk hlength => ?_⟩
    · exact h.stored k (List.mem_append_left _ (List.mem_of_mem_filter (hperm.mem_iff.mp hk)))
    · rcases List.mem_append.mp hk with hk | hk
      · exact .inl (hperm.mem_iff.mpr (List.mem_filter.mpr ⟨hk, by simpa using hlength⟩))
      · obtain ⟨level, hlevel, hkey⟩ := List.mem_flatMap.mp hk
        obtain ⟨i, hi⟩ := List.getElem?_of_mem hlevel
        refine .inr ⟨le_rfl, i + 1, Nat.le_add_left 1 i, ?_⟩
        rwa [Table.level, Nat.add_sub_cancel, hi, Option.getD_some]
  | next hpos =>
    refine ⟨h.sound, h.stored, fun k hk => ?_, fun _ k hk hlength => ?_⟩
    · rcases List.mem_append.mp hk with hk | hk
      · exact h.yielded k hk
      · exact h.stored k (scanRead_stored hk)
    · rcases h.listed hpos k hk hlength with hk | hahead
      · exact .inl (List.mem_append_left _ hk)
      · exact (ahead_scanRead hbatch h.sound hahead).imp_left (List.mem_append_right _)

theorem ScanRun.kept (hbatch : ∀ b, batch = some b → 1 ≤ b) (t : SoundTable)
    (hrun : Relation.ReflTransGen (ScanStep base batch) (.of t.toTable) r) :
    r.Kept t.toTable := by
  induction hrun with
  | refl =>
    exact ⟨t.sound, fun _ => .inl, fun _ h => absurd h List.not_mem_nil,
      fun hstart => absurd rfl hstart⟩
  | tail _ hstep ih => exact ih.step hbatch hstep

/-- A scan that is done has yielded every key of 32 bytes that was stored at its first listing,
whatever was put, collated and merged meanwhile, and it yields only what was put. -/
theorem cold_scan_is_complete (hbatch : ∀ b, batch = some b → 1 ≤ b) (t : SoundTable)
    (hrun : Relation.ReflTransGen (ScanStep base batch) (.of t.toTable) r) :
    (r.position = .done → ∀ key ∈ r.listed, key.length = 32 → key ∈ r.yielded) ∧
      ∀ id ∈ r.yielded, id ∈ t.storedKeys ∨ id ∈ r.written := by
  have h := ScanRun.kept hbatch t hrun
  refine ⟨fun hdone key hkey hlength => ?_, h.yielded⟩
  have hstart : r.position ≠ .start := by
    rw [hdone]
    exact Position.noConfusion
  rcases h.listed hstart key hkey hlength with hyielded | hahead
  · exact hyielded
  · rw [hdone] at hahead
    exact hahead.elim

def sampleKey : Bytes := List.replicate 32 7

/-- A table with one segment of one key. -/
def sampleTable : SoundTable where
  level0 := Dict.empty
  levels := [[(0, ⟨[(sampleKey, 0, 1)], [5]⟩)]]
  size := 0
  sound := by
    intro level hlevel
    rw [List.mem_singleton.mp hlevel]
    refine ⟨fun s hs => ⟨[(sampleKey, [5])], ?_⟩, List.nodup_singleton 0⟩
    rw [List.mem_singleton.mp hs]
    exact ⟨rfl, rfl, List.pairwise_singleton _ _, by simp [sampleKey]⟩

/-- A scan of the sample table comes to its one segment. -/
theorem sample_scan_reads (batch : Option Int) :
    Relation.ReflTransGen (ScanStep 1 batch) (.of sampleTable.toTable)
      ⟨sampleTable.toTable, [], .reading 1 0 0 [], [], [sampleKey]⟩ := by
  have hfirst : ScanStep 1 batch (.of sampleTable.toTable)
      ⟨sampleTable.toTable, [], .check 1, [], [sampleKey]⟩ := .first rfl (.refl _)
  have hcheck : ScanStep 1 batch ⟨sampleTable.toTable, [], .check 1, [], [sampleKey]⟩
      ⟨sampleTable.toTable, [], .listing 1, [], [sampleKey]⟩ := .next Position.noConfusion
  have hlisting : ScanStep 1 batch ⟨sampleTable.toTable, [], .listing 1, [], [sampleKey]⟩
      ⟨sampleTable.toTable, [], nextFile 1 ([0].mergeSort (· ≤ ·)), [], [sampleKey]⟩ :=
    .next Position.noConfusion
  rw [List.mergeSort_singleton] at hlisting
  exact ((Relation.ReflTransGen.single hfirst).tail hcheck).tail hlisting

theorem sample_scan_is_complete : ∃ r : ScanRun, r.position = .done ∧ sampleKey ∈ r.yielded := by
  have hread : ScanStep 1 (some 1) ⟨sampleTable.toTable, [], .reading 1 0 0 [], [], [sampleKey]⟩
      ⟨sampleTable.toTable, [], .check 2, [sampleKey], [sampleKey]⟩ := .next Position.noConfusion
  have hdone : ScanStep 1 (some 1) ⟨sampleTable.toTable, [], .check 2, [sampleKey], [sampleKey]⟩
      ⟨sampleTable.toTable, [], .done, [sampleKey], [sampleKey]⟩ := .next Position.noConfusion
  exact ⟨_, rfl, (cold_scan_is_complete (by rintro _ ⟨⟩; decide) sampleTable
    (((sample_scan_reads (some 1)).tail hread).tail hdone)).1 rfl sampleKey
      (List.mem_singleton.mpr rfl) (List.length_replicate ..)⟩

/-- A scan in batches of no entries ends without a key that is stored all the time. -/
theorem empty_batches_miss_a_key : ∃ r : ScanRun,
    Relation.ReflTransGen (ScanStep 1 (some 0)) (.of sampleTable.toTable) r ∧ r.position = .done ∧
      ∃ key ∈ r.listed, key.length = 32 ∧ key ∉ r.yielded := by
  have hread : ScanStep 1 (some 0) ⟨sampleTable.toTable, [], .reading 1 0 0 [], [], [sampleKey]⟩
      ⟨sampleTable.toTable, [], .check 2, [], [sampleKey]⟩ := .next Position.noConfusion
  have hdone : ScanStep 1 (some 0) ⟨sampleTable.toTable, [], .check 2, [], [sampleKey]⟩
      ⟨sampleTable.toTable, [], .done, [], [sampleKey]⟩ := .next Position.noConfusion
  exact ⟨_, ((sample_scan_reads (some 0)).tail hread).tail hdone, rfl, sampleKey,
    List.mem_singleton.mpr rfl, List.length_replicate .., List.not_mem_nil⟩

end Runs

end Astreum
