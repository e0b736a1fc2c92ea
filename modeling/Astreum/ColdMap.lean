import Astreum.ColdStorage

namespace Astreum

section ContentKeyed

variable {base : Int} {m : Bytes → Option Bytes} {blake3 : Bytes → Bytes}

/-- All the segments have the same data for a key. -/
def ReadAlike (m : Bytes → Option Bytes) (levels : List Level) : Prop :=
  ∀ level ∈ levels, ∀ s ∈ level, ∀ key data, s.2.read key = some data → m key = some data

theorem newestLast_of_alike {listing : Level}
    (h : ∀ s ∈ listing, ∀ key data, s.2.read key = some data → m key = some data) :
    NewestLast listing := by
  refine List.pairwise_iff_getElem.mpr fun i j hi hj _ key v w hv hw hne => ?_
  have hv' := h _ (List.getElem_mem hi) key v hv
  have hw' := h _ (List.getElem_mem hj) key w hw
  exact absurd (Option.some.inj (hv'.symm.trans hw')) hne

theorem readAlike_cons {level : Level} {levels : List Level} :
    ReadAlike m (level :: levels) ↔
      (∀ s ∈ level, ∀ key data, s.2.read key = some data → m key = some data) ∧
        ReadAlike m levels := List.forall_mem_cons

theorem readAlike_addSegment {segment : Segment} {levels : List Level}
    (h : ReadAlike m levels) (hs : ∀ key data, segment.read key = some data → m key = some data) :
    ReadAlike m (addSegment segment levels) := by
  cases levels with
  | nil =>
    intro level hlevel s hmem
    rw [List.mem_singleton.mp hlevel] at hmem
    rw [List.mem_singleton.mp hmem]
    exact hs
  | cons first levels =>
    obtain ⟨hfirst, hrest⟩ := readAlike_cons.mp h
    refine readAlike_cons.mpr ⟨fun s hmem => ?_, hrest⟩
    rcases List.mem_append.mp hmem with hmem | hmem
    · exact hfirst s hmem
    · rw [List.mem_singleton.mp hmem]
      exact hs

theorem readAlike_makeLevel {levels : List Level} (h : ReadAlike m levels) :
    ReadAlike m (makeLevel levels) := by
  cases levels with
  | nil =>
    intro level hlevel s hmem
    rw [List.mem_singleton.mp hlevel] at hmem
    cases hmem
  | cons first levels => exact h

theorem cascade_alike {n : Nat} {levels levels' : List Level}
    (hrun : Cascade base (fun _ => True) n levels levels')
    (hsound : ∀ level ∈ levels, level.Sound) (h : ReadAlike m levels) :
    Cascade base NewestLast n levels levels' ∧ ReadAlike m levels' := by
  induction hrun with
  | last => exact ⟨.last, h⟩
  | noLimit hbase => exact ⟨.noLimit hbase, h⟩
  | within hbase hsize _ ih =>
    obtain ⟨hlevel, hrest⟩ := readAlike_cons.mp h
    obtain ⟨hcascade, hrest'⟩ := ih (fun level h' => hsound level (List.mem_cons_of_mem _ h')) hrest
    exact ⟨.within hbase hsize hcascade, readAlike_cons.mpr ⟨hlevel, hrest'⟩⟩
  | @merged n level listing _ _ segment hbase hsize hperm _ hmerge _ ih =>
    obtain ⟨hlevel, hrest⟩ := readAlike_cons.mp h
    have hlast : NewestLast listing :=
      newestLast_of_alike fun s hs => hlevel s (hperm.mem_iff.mp hs)
    obtain ⟨hordered, hread⟩ := merge_newest (hsound _ List.mem_cons_self) hperm hlast hmerge
    have hsegment : ∀ key data, segment.read key = some data → m key = some data := by
      intro key data hdata
      rw [hread] at hdata
      obtain ⟨s, hs, hfound⟩ := List.exists_of_findSome?_eq_some hdata
      exact hlevel s ((byNumber_perm level).mem_iff.mp hs) key data hfound
    have hsound' := fun level h' => hsound level (List.mem_cons_of_mem _ h')
    obtain ⟨hcascade, hrest'⟩ := ih (addSegment_spec hsound' hordered).1
      (readAlike_addSegment hrest hsegment)
    refine ⟨.merged hbase hsize hperm hlast hmerge hcascade, readAlike_cons.mpr ⟨?_, hrest'⟩⟩
    exact fun _ h' => absurd h' List.not_mem_nil
  | notMerged hbase hsize hperm _ hmerge =>
    obtain ⟨hlevel, hrest⟩ := readAlike_cons.mp h
    refine ⟨.notMerged hbase hsize hperm ?_ hmerge, ?_⟩
    · exact newestLast_of_alike fun s hs => hlevel s (hperm.mem_iff.mp hs)
    · exact readAlike_cons.mpr ⟨hlevel, readAlike_makeLevel hrest⟩

theorem insert_alike {level0 : Dict Bytes Bytes} {key data : Bytes}
    (h : ∀ key data, level0.get? key = some data → m key = some data) (hkey : m key = some data) :
    ∀ key' data', (level0.insert key data).get? key' = some data' → m key' = some data' := by
  intro key' data' hdata
  rw [Dict.get?_insert] at hdata
  split at hdata
  · rename_i heq
    rw [← heq, hkey, hdata]
  · exact h key' data' hdata

/-- Where every key is always written with the same data, any listing will do. -/
theorem write_alike {t t' : Table} {key data : Bytes}
    (hrun : Write base (fun _ => True) t key data t') (hsound : ∀ level ∈ t.levels, level.Sound)
    (h : ReadAlike m t.levels)
    (h0 : ∀ key data, t.level0.get? key = some data → m key = some data)
    (hkey : m key = some data) :
    Write base NewestLast t key data t' ∧ ReadAlike m t'.levels ∧
      ∀ key data, t'.level0.get? key = some data → m key = some data := by
  have hinsert := insert_alike h0 hkey
  cases hrun with
  | small hsize => exact ⟨.small hsize, h, hinsert⟩
  | notCollated hsize hperm hcollate =>
    exact ⟨.notCollated hsize hperm hcollate, readAlike_makeLevel h, hinsert⟩
  | collated hsize hperm hcollate hcascade =>
    obtain ⟨hordered, hread⟩ := collateExprs_spec hperm hcollate
    obtain ⟨hcascade', halike⟩ := cascade_alike hcascade (addSegment_spec hsound hordered).1
      (readAlike_addSegment h fun key data hdata => hinsert key data ((hread key).symm.trans hdata))
    exact ⟨.collated hsize hperm hcollate hcascade', halike, fun _ _ h' => (nomatch h')⟩

theorem writes_alike {files : List (Bytes × Expr)} {t : Table}
    (hrun : Writes blake3 base (fun _ => True) Table.empty files t)
    (h : ∀ file ∈ files, m file.1 = some (encodeExprToBytes blake3 file.2)) :
    Writes blake3 base NewestLast Table.empty files t ∧ ReadAlike m t.levels ∧
      ∀ key data, t.level0.get? key = some data → m key = some data := by
  induction hrun with
  | nil => exact ⟨.nil, fun _ h' => absurd h' List.not_mem_nil, fun _ _ h' => (nomatch h')⟩
  | snoc _ hwrite ih =>
    obtain ⟨hrun', halike, h0⟩ := ih fun file hfile => h file (List.mem_append_left _ hfile)
    obtain ⟨hwrite', hlevels, hfiles⟩ := write_alike hwrite (writes_spec hrun').1 halike h0
      (h _ (List.mem_append_right _ List.mem_cons_self))
    exact ⟨.snoc hrun' hwrite', hlevels, hfiles⟩

/-- A table of cells under their own hashes is a map whatever the order of the listings. -/
theorem content_keyed_writes {files : List (Bytes × Expr)} {t : Table}
    (hrun : Writes blake3 base (fun _ => True) Table.empty files t)
    (h : ∀ file ∈ files, ∀ file' ∈ files, file.1 = file'.1 →
      encodeExprToBytes blake3 file.2 = encodeExprToBytes blake3 file'.2) :
    Writes blake3 base NewestLast Table.empty files t := by
  refine (writes_alike (m := fun key => (lookupPair key files).map (encodeExprToBytes blake3)) hrun
    fun file hfile => ?_).1
  rcases hfound : lookupPair file.1 files with - | e
  · exact absurd (List.mem_map.mpr ⟨file, hfile, rfl⟩) (lookupPair_eq_none.mp hfound)
  · rw [Option.map_some, h file hfile _ (mem_of_lookupPair hfound) rfl]

end ContentKeyed

section Lookup

variable {segments : List Segment}

theorem searchSegments_eq (h : ∀ segment ∈ segments, segment.Ordered) (key : Bytes) :
    searchSegments key segments =
      (segments.findSome? fun segment => segment.read key).bind decoded := by
  induction segments with
  | nil => rfl
  | cons segment segments ih =>
    obtain ⟨rows, hrows⟩ := h segment List.mem_cons_self
    have hrest := ih fun segment' h' => h segment' (List.mem_cons_of_mem _ h')
    rw [searchSegments, List.findSome?_cons, hrows.find_eq]
    rcases hspan : lookupPair key segment.index with - | span
    · rw [hrows.read_none hspan]
      exact hrest
    · obtain ⟨data, hdata, hread⟩ := hrows.isSome_slice hspan
      rw [hread]
      exact congrArg (Option.bind · decoded) hdata

theorem findSome?_segments (t : Table) (key : Bytes) :
    (t.segments.findSome? fun segment => segment.read key) = newestAmong t.levels key := by
  have hlevels : ∀ levels : List Level,
      ((levels.flatMap fun level => (byNumber level).map Prod.snd).findSome?
        fun segment => segment.read key) = newestAmong levels key := by
    intro levels
    induction levels with
    | nil => rfl
    | cons level levels ih =>
      rw [List.flatMap_cons, List.findSome?_append, ih, newestAmong_cons, List.findSome?_map]
      rfl
  exact hlevels t.levels

theorem ordered_segments {t : Table} (h : ∀ level ∈ t.levels, level.Sound) :
    ∀ segment ∈ t.segments, segment.Ordered := by
  intro segment hsegment
  obtain ⟨level, hlevel, hmem⟩ := List.mem_flatMap.mp hsegment
  obtain ⟨s, hs, rfl⟩ := List.mem_map.mp hmem
  exact (h level hlevel).ordered s ((byNumber_perm level).mem_iff.mp hs)

/-- A key is read as the newest data that a table has for it. -/
theorem getExprFromColdStorage_eq {t : Table} (h : ∀ level ∈ t.levels, level.Sound)
    (key : Bytes) : getExprFromColdStorage t key = (t.newest key).bind decoded := by
  rw [getExprFromColdStorage, Table.newest]
  rcases t.level0.get? key with - | data
  · rw [Option.none_or, ← findSome?_segments]
    exact searchSegments_eq (ordered_segments h) key
  · rfl

theorem get?_keepResult (results : Dict Bytes Expr) (key key' : Bytes) (found : Option Expr) :
    (keepResult results key found).get? key' =
      if key = key' then found.or (results.get? key') else results.get? key' := by
  cases found with
  | none => simp [keepResult]
  | some e => simp [keepResult, Dict.get?_insert]

theorem get?_foldl_keepResult {ν : Type} (f : ν → Option Expr) {rows : List (Bytes × ν)}
    (hnodup : (rows.map Prod.fst).Nodup) (results : Dict Bytes Expr) (key : Bytes) :
    (rows.foldl (fun results row => keepResult results row.1 (f row.2)) results).get? key =
      ((lookupPair key rows).bind f).or (results.get? key) := by
  induction rows generalizing results with
  | nil => rfl
  | cons row rows ih =>
    obtain ⟨hrow, hrows⟩ := List.nodup_cons.mp hnodup
    rw [List.foldl_cons, ih hrows, get?_keepResult, lookupPair]
    by_cases hkey : row.1 = key
    · rw [if_pos hkey, if_pos hkey, lookupPair_eq_none.mpr (hkey ▸ hrow)]
      rfl
    · rw [if_neg hkey, if_neg hkey]

theorem get?_searchAll {index : List (Bytes × Nat × Nat)}
    (h : ∀ key, searchOpenIndex index key = some (lookupPair key index)) (keys : List Bytes)
    (hits : Dict Bytes (Nat × Nat)) (key : Bytes) :
    (searchAll index keys hits).get? key =
      if key ∈ keys then (lookupPair key index).or (hits.get? key) else hits.get? key := by
  induction keys generalizing hits with
  | nil => rfl
  | cons key' keys ih =>
    rw [searchAll, h key']
    rcases hspan : lookupPair key' index with - | span
    · simp only [ih]
      by_cases hkey : key = key'
      · subst hkey
        simp [hspan]
      · simp [hkey]
    · simp only [ih, Dict.get?_insert]
      by_cases hkey : key' = key
      · subst hkey
        simp [hspan]
      · simp [hkey, Ne.symm hkey]

/-- Many keys are searched for as each one is. -/
theorem get?_findExprsInIndex {segment : Segment} (h : segment.Ordered) (keys : List Bytes)
    (key : Bytes) :
    (findExprsInIndex segment.index keys).get? key =
      if key ∈ keys then findExprInIndex segment.index key else none := by
  obtain ⟨rows, hrows⟩ := h
  rw [findExprsInIndex, get?_searchAll hrows.searchOpenIndex_eq, Dict.get?_empty, Option.or_none,
    hrows.find_eq]
  by_cases hlength : key.length = 32
  · simp [hlength]
  · rw [hrows.lookup_of_length hlength]
    simp

theorem get?_searchPending (h : ∀ segment ∈ segments, segment.Ordered) (pending : List Bytes)
    (results : Dict Bytes Expr) (key : Bytes) :
    (searchPending segments pending results).get? key =
      (if key ∈ pending then searchSegments key segments else none).or (results.get? key) := by
  induction segments generalizing pending results with
  | nil => simp [searchPending, searchSegments]
  | cons segment segments ih =>
    have hsegment := h segment List.mem_cons_self
    have hhits := get?_findExprsInIndex hsegment pending
    generalize hdef : findExprsInIndex segment.index pending = hits at hhits
    have hperm := List.mergeSort_perm hits.pairs fun a b => decide (a.2.1 ≤ b.2.1)
    have hnodup := (hperm.map Prod.fst).nodup_iff.mpr hits.nodup
    have hlookup : lookupPair key (hits.pairs.mergeSort fun a b => decide (a.2.1 ≤ b.2.1)) =
        hits.get? key := lookupPair_perm hits.nodup hperm key
    rw [searchPending, hdef, ih fun segment' h' => h segment' (List.mem_cons_of_mem _ h'),
      get?_foldl_keepResult (fun span => (slice segment.data span.1 span.2).bind decoded) hnodup,
      hlookup, searchSegments, hhits]
    by_cases hkey : key ∈ pending
    · rcases hspan : findExprInIndex segment.index key with - | span
      · simp [hkey, hhits, hspan]
      · simp [hkey, hhits, hspan]
    · simp [hkey, hhits]

theorem getExprsFromColdStorage_eq {t : Table} (h : ∀ level ∈ t.levels, level.Sound)
    (keys : List Bytes) (key : Bytes) :
    (getExprsFromColdStorage t keys).get? key =
      if key ∈ keys then getExprFromColdStorage t key else none := by
  have hlookup : ∀ pending : List Bytes, lookupPair key (pending.filterMap fun key =>
      (t.level0.get? key).map fun data => (key, data)) =
        if key ∈ pending then t.level0.get? key else none := by
    intro pending
    induction pending with
    | nil => rfl
    | cons key' pending ih =>
      rcases hdata : t.level0.get? key' with - | data
      · rw [List.filterMap_cons_none (by rw [hdata]; rfl), ih]
        by_cases hkey : key = key'
        · subst hkey
          simp [hdata]
        · simp [hkey]
      · rw [List.filterMap_cons_some (by rw [hdata]; rfl), lookupPair]
        by_cases hkey : key' = key
        · subst hkey
          simp [hdata]
        · simp only [hkey, if_false, ih, List.mem_cons, Ne.symm hkey, false_or]
  have hnodup : ((keys.dedup.filterMap fun key =>
      (t.level0.get? key).map fun data => (key, data)).map Prod.fst).Nodup := by
    rw [List.map_filterMap]
    refine List.Nodup.filterMap (fun a b c hc hc' => ?_) (List.nodup_dedup keys)
    have hfst : ∀ {a' b' : Bytes}, b' ∈ ((t.level0.get? a').map fun data => (a', data)).map
        Prod.fst → a' = b' := by
      intro a' b' hb
      obtain ⟨row, hrow, rfl⟩ := Option.map_eq_some_iff.mp hb
      obtain ⟨data, -, rfl⟩ := Option.map_eq_some_iff.mp hrow
      rfl
    exact (hfst hc).trans (hfst hc').symm
  rw [getExprsFromColdStorage, get?_searchPending (ordered_segments h),
    get?_foldl_keepResult decoded hnodup, hlookup, Dict.get?_empty, Option.or_none,
    getExprFromColdStorage]
  by_cases hkey : key ∈ keys
  · rcases hdata : t.level0.get? key with - | data
    · simp [hkey, hdata]
    · simp [hkey, hdata]
  · simp [hkey]

end Lookup

section Map

variable {blake3 : Bytes → Bytes}

mutual

theorem Expr.puts_subset (e : Expr) : ∀ c ∈ e.puts, c ∈ e.cells := by
  cases e with
  | link v h t =>
    intro c hc
    rcases List.mem_append.mp hc with hc | hc
    · exact List.mem_cons_of_mem _ (List.mem_append_left _ (Child.puts_subset h c hc))
    rcases List.mem_append.mp hc with hc | hc
    · exact List.mem_cons_of_mem _ (List.mem_append_right _ (List.mem_append_right _
        (Child.puts_subset t c hc)))
    rcases List.mem_append.mp hc with hc | hc
    · exact List.mem_cons_of_mem _ (List.mem_append_right _ (List.mem_append_left _ hc))
    · rw [List.mem_singleton.mp hc]
      exact List.mem_cons_self
  | _ => exact fun c hc => hc

theorem Child.puts_subset (ch : Child) : ∀ c ∈ ch.puts, c ∈ ch.cells := by
  cases ch with
  | loaded e => exact Expr.puts_subset e
  | none => exact fun _ h => absurd h List.not_mem_nil
  | byHash x => exact fun _ h => absurd h List.not_mem_nil

end

theorem writable_lastExprPut {puts : List (Expr × Option Bytes)}
    (hputs : ∀ put ∈ puts, put.1.Writable) {key : Bytes} {e : Expr}
    (h : lastExprPut blake3 puts key = some e) : e.Writable := by
  have hmem := List.mem_reverse.mp (mem_of_lookupPair h)
  obtain ⟨put, hput, hfile⟩ := List.mem_flatMap.mp hmem
  obtain ⟨c, hc, hpair⟩ := List.mem_map.mp hfile
  have hce : c = e := (Prod.mk.inj hpair).2
  rw [← hce]
  exact Expr.cells_writable put.1 (hputs put hput) c (Expr.puts_subset put.1 c hc)

/-- Where every merge lists, of two segments with different data for a key, the one of the higher
number later, a table gives for every key the cell of the last put under it, one by one or many at
once. -/
theorem cold_storage_is_map (hdigest : ∀ x, (blake3 x).length = 32) {base : Int}
    {puts : List (Expr × Option Bytes)} (hputs : ∀ put ∈ puts, put.1.Writable) {t : Table}
    (hrun : Writes blake3 base NewestLast Table.empty (puts.flatMap (putExpr blake3)) t) :
    (∀ key, getExprFromColdStorage t key = (lastExprPut blake3 puts key).map (wireOf blake3)) ∧
      (∀ key e, lastExprPut blake3 puts key = some e → e ≠ .nil →
        (wireOf blake3 e).hash blake3 = e.hash blake3) ∧
      ∀ keys key, (getExprsFromColdStorage t keys).get? key =
        if key ∈ keys then getExprFromColdStorage t key else none := by
  obtain ⟨hsound, hnewest⟩ := writes_spec hrun
  refine ⟨fun key => ?_, fun key e he hnil => ?_, getExprsFromColdStorage_eq hsound⟩
  · rw [getExprFromColdStorage_eq hsound, hnewest]
    change ((lastExprPut blake3 puts key).map (encodeExprToBytes blake3)).bind decoded = _
    rcases he : lastExprPut blake3 puts key with - | e
    · rfl
    · have hread := decode_writable hdigest (writable_lastExprPut hputs he)
      rw [Option.map_some, Option.bind_some, decoded, hread]
      rfl
  · exact hash_wireOf_writable hnil (writable_lastExprPut hputs he)

def recordKey : Bytes := List.replicate 32 7

def recordCell (b : UInt8) : Expr := .bytes (List.replicate 40 b)

def recordSegment (b : UInt8) : Segment := ⟨[(recordKey, 0, 41)], 2 :: List.replicate 40 b⟩

def rewrittenRecord : List (Expr × Option Bytes) :=
  [(recordCell 1, some recordKey), (recordCell 2, some recordKey)]

/-- Two puts under one key: each is collated, and the second fills `level_1`. -/
theorem writes_rewrittenRecord {listed : Level → Prop} {b : UInt8} {listing : Level}
    (hperm : listing.Perm [(0, recordSegment 1), (1, recordSegment 2)]) (hlisted : listed listing)
    (hmerge : mergeExprs listing = some (recordSegment b)) :
    Writes sampleDigest 40 listed Table.empty (rewrittenRecord.flatMap (putExpr sampleDigest))
      ⟨Dict.empty, [[], [(0, recordSegment b)]], 0⟩ := by
  have hfirst : Write 40 listed Table.empty recordKey (2 :: List.replicate 40 1)
      ⟨Dict.empty, [[(0, recordSegment 1)]], 0⟩ :=
    .collated (by decide) (.refl _) (by decide +kernel)
      (.within (by decide) (by decide) .last)
  have hlevel : (levelSize [(0, recordSegment b)] : Int) ≤ levelLimit 40 (1 + 1) := by
    simp [levelSize, levelLimit, recordSegment]
  have hsecond : Write 40 listed ⟨Dict.empty, [[(0, recordSegment 1)]], 0⟩ recordKey
      (2 :: List.replicate 40 2) ⟨Dict.empty, [[], [(0, recordSegment b)]], 0⟩ :=
    .collated (by decide) (.refl _) (by decide +kernel)
      (.merged (by decide) (by decide) hperm hlisted hmerge (.within (by decide) hlevel .last))
  exact .snoc (.snoc .nil hfirst) hsecond

/-- A record that was put twice under its key is read as it was put last. -/
theorem rewritten_record_is_read :
    ∃ t, Writes sampleDigest 40 NewestLast Table.empty
        (rewrittenRecord.flatMap (putExpr sampleDigest)) t ∧
      getExprFromColdStorage t recordKey =
        (lastExprPut sampleDigest rewrittenRecord recordKey).map (wireOf sampleDigest) := by
  have hputs : ∀ put ∈ rewrittenRecord, put.1.Writable := by
    intro put hput
    rcases List.mem_cons.mp hput with rfl | hput
    · trivial
    · rw [List.mem_singleton.mp hput]
      trivial
  have hrun := writes_rewrittenRecord (b := 2) (.refl _)
    (show NewestLast _ from List.pairwise_pair.mpr fun _ _ _ _ _ _ => by decide) (by decide +kernel)
  exact ⟨_, hrun, (cold_storage_is_map (fun x => by simp [sampleDigest]) hputs hrun).1 recordKey⟩

/-- Listed the other way round, the older segment wins the merge. -/
theorem older_record_wins :
    ∃ t, Writes sampleDigest 40 (fun _ => True) Table.empty
        (rewrittenRecord.flatMap (putExpr sampleDigest)) t ∧
      lastExprPut sampleDigest rewrittenRecord recordKey = some (recordCell 2) ∧
      getExprFromColdStorage t recordKey = some (recordCell 1) := by
  refine ⟨_, writes_rewrittenRecord (b := 1) (List.Perm.swap _ _ _) trivial (by decide +kernel),
    by decide +kernel, by decide +kernel⟩

end Map

end Astreum
