import Astreum.Cells
import Astreum.Sorted

namespace Astreum

instance byteOrder : IsStrictTotalOrder UInt8 (· < ·) where

instance bytesOrder : IsStrictTotalOrder Bytes (· < ·) where

/-- An index file, of a key, a position and a size in each row, and the data file beside it. -/
structure Segment where
  index : List (Bytes × Nat × Nat)
  data : Bytes
  deriving DecidableEq

/-- The segments of a level by their numbers. -/
abbrev Level := List (Nat × Segment)

/-- The directory of a table: the files of `level_0`, and the levels from `level_1` on. -/
structure Table where
  level0 : Dict Bytes Bytes
  levels : List Level
  size : Int

def Table.empty : Table := ⟨Dict.empty, [], 0⟩

section Search

/-- `_search_open_index`. -/
def searchOpenIndex (index : List (Bytes × Nat × Nat)) (key : Bytes) :
    Option (Option (Nat × Nat)) :=
  bisect index key (index.length + 1) 0 (index.length - 1)

def findExprInIndex (index : List (Bytes × Nat × Nat)) (key : Bytes) : Option (Nat × Nat) :=
  if key.length ≠ 32 then none else (searchOpenIndex index key).join

/-- The keys are searched one after another until the file is malformed. -/
def searchAll (index : List (Bytes × Nat × Nat)) :
    List Bytes → Dict Bytes (Nat × Nat) → Dict Bytes (Nat × Nat)
  | [], hits => hits
  | key :: keys, hits => match searchOpenIndex index key with
    | none => hits
    | some none => searchAll index keys hits
    | some (some span) => searchAll index keys (hits.insert key span)

def findExprsInIndex (index : List (Bytes × Nat × Nat)) (keys : List Bytes) :
    Dict Bytes (Nat × Nat) :=
  let known := (keys.filter fun key => key.length = 32).dedup
  searchAll index (known.mergeSort fun a b => ¬b < a) Dict.empty

/-- The bytes that a segment has for a key. -/
def Segment.read (segment : Segment) (key : Bytes) : Option Bytes :=
  (findExprInIndex segment.index key).bind fun span => slice segment.data span.1 span.2

end Search

section Writing

/-- `to_bytes(64, "big")` has room for every number of an index. -/
def Segment.fits (segment : Segment) : Bool :=
  decide (segment.index.length < 256 ^ 64) &&
    segment.index.all fun row => decide (row.2.1 < 256 ^ 64) && decide (row.2.2 < 256 ^ 64)

/-- `_next_collated_number`. -/
def nextCollatedNumber (level : Level) : Nat := (level.map fun s => s.1 + 1).foldr max 0

/-- The index and the data of rows, written one after another. -/
def writeSegment (rows : List (Bytes × Bytes)) : Option Segment :=
  let segment : Segment := ⟨spans 0 rows, valuesOf rows⟩
  if segment.fits then some segment else none

/-- `collate_exprs`, of the files of `level_0` as they are listed. -/
def collateExprs (files : List (Bytes × Bytes)) : Option Segment :=
  if files = [] ∨ ∃ file ∈ files, file.1.length ≠ 32 then none else writeSegment (sortRows files)

/-- The rows of every segment, put into one map in the order in which the segments are listed. -/
def mergedIndex (listing : Level) : Dict Bytes (Nat × Nat × Nat) :=
  listing.foldl (fun merged s =>
    s.2.index.foldl (fun merged row => merged.insert row.1 (s.1, row.2)) merged) Dict.empty

/-- The data that a row of the merged index points to. -/
def readChunk (listing : Level) (row : Nat × Nat × Nat) : Option Bytes :=
  (lookupPair row.1 listing).bind fun source => slice source.data row.2.1 row.2.2

/-- `merge_exprs`, of the segments of a level as they are listed. -/
def mergeExprs (listing : Level) : Option Segment :=
  if (mergedIndex listing).pairs = [] then none
  else do
    let rows ← (sortRows (mergedIndex listing).pairs).mapM fun row =>
      (readChunk listing row.2).map fun chunk => (row.1, chunk)
    writeSegment rows

/-- `_level_size`: an index file has a header of 64 bytes and rows of 160. -/
def levelSize (level : Level) : Nat :=
  (level.map fun s => 64 + 160 * s.2.index.length + s.2.data.length).sum

/-- `_level_limit`. -/
def levelLimit (base : Int) (level : Nat) : Int := base * 10 ^ level

/-- A new segment in the first of the levels, which is made where there is none. -/
def addSegment (segment : Segment) : List Level → List Level
  | [] => [[(0, segment)]]
  | level :: levels => (level ++ [(nextCollatedNumber level, segment)]) :: levels

def makeLevel : List Level → List Level
  | [] => [[]]
  | levels => levels

/-- The loop over the levels from number `n` on, after a collation. The segments of a level that
is merged are listed in any order that `listed` has. -/
inductive Cascade (base : Int) (listed : Level → Prop) : Nat → List Level → List Level → Prop
  | last {n : Nat} : Cascade base listed n [] []
  | noLimit {n : Nat} {levels : List Level} : base ≤ 0 → Cascade base listed n levels levels
  | within {n : Nat} {level : Level} {levels levels' : List Level} :
      0 < base → (levelSize level : Int) ≤ levelLimit base n →
      Cascade base listed (n + 1) levels levels' →
      Cascade base listed n (level :: levels) (level :: levels')
  | merged {n : Nat} {level listing : Level} {levels levels' : List Level} {segment : Segment} :
      0 < base → levelLimit base n < levelSize level → listing.Perm level → listed listing →
      mergeExprs listing = some segment →
      Cascade base listed (n + 1) (addSegment segment levels) levels' →
      Cascade base listed n (level :: levels) ([] :: levels')
  | notMerged {n : Nat} {level listing : Level} {levels : List Level} :
      0 < base → levelLimit base n < levelSize level → listing.Perm level → listed listing →
      mergeExprs listing = none →
      Cascade base listed n (level :: levels) (level :: makeLevel levels)

/-- The write of one file into `level_0`, and what it sets off. -/
inductive Write (base : Int) (listed : Level → Prop) (t : Table) (key data : Bytes) : Table → Prop
  | small : t.size + data.length ≤ base →
      Write base listed t key data ⟨t.level0.insert key data, t.levels, t.size + data.length⟩
  | notCollated {files : List (Bytes × Bytes)} : base < t.size + data.length →
      files.Perm (t.level0.insert key data).pairs → collateExprs files = none →
      Write base listed t key data
        ⟨t.level0.insert key data, makeLevel t.levels, t.size + data.length⟩
  | collated {files : List (Bytes × Bytes)} {segment : Segment} {levels : List Level} :
      base < t.size + data.length → files.Perm (t.level0.insert key data).pairs →
      collateExprs files = some segment →
      Cascade base listed 1 (addSegment segment t.levels) levels →
      Write base listed t key data ⟨Dict.empty, levels, 0⟩

variable (blake3 : Bytes → Bytes)

mutual

/-- The cells of a tree in the order in which they are put: the sides and the payload first. -/
def Expr.puts : Expr → List Expr
  | .link v h t => h.puts ++ (t.puts ++ (payloadCells v t ++ [.link v h t]))
  | e => [e]

def Child.puts : Child → List Expr
  | .loaded e => e.puts
  | _ => []

end

/-- The files that `put_expr_in_cold_storage` writes: every cell under its hash, or all of them
under the key that is given. -/
def putExpr (put : Expr × Option Bytes) : List (Bytes × Expr) :=
  put.1.puts.map fun e => (put.2.getD (e.hash blake3), e)

/-- The writes of files one after another. -/
inductive Writes (base : Int) (listed : Level → Prop) :
    Table → List (Bytes × Expr) → Table → Prop
  | nil {t : Table} : Writes base listed t [] t
  | snoc {t t' t'' : Table} {files : List (Bytes × Expr)} {key : Bytes} {e : Expr} :
      Writes base listed t files t' → Write base listed t' key (encodeExprToBytes blake3 e) t'' →
      Writes base listed t (files ++ [(key, e)]) t''

/-- The cell of the last put under a key. -/
def lastExprPut (puts : List (Expr × Option Bytes)) (key : Bytes) : Option Expr :=
  lookupPair key (puts.flatMap (putExpr blake3)).reverse

end Writing

section Reading

/-- The bytes of a file as an expression, when they are one. -/
def decoded (data : Bytes) : Option Expr := (decodeExprFromBytes data).toOption

/-- The segments in the order in which they are searched: by levels, and in each the highest number
first. -/
def Table.segments (t : Table) : List Segment :=
  t.levels.flatMap fun level => (byNumber level).map Prod.snd

def searchSegments (key : Bytes) : List Segment → Option Expr
  | [] => none
  | segment :: segments => match findExprInIndex segment.index key with
    | none => searchSegments key segments
    | some span => (slice segment.data span.1 span.2).bind decoded

def getExprFromColdStorage (t : Table) (key : Bytes) : Option Expr :=
  match t.level0.get? key with
  | some data => decoded data
  | none => searchSegments key t.segments

/-- A result is kept when there is one. -/
def keepResult (results : Dict Bytes Expr) (key : Bytes) : Option Expr → Dict Bytes Expr
  | some e => results.insert key e
  | none => results

def searchPending : List Segment → List Bytes → Dict Bytes Expr → Dict Bytes Expr
  | [], _, results => results
  | segment :: segments, pending, results =>
    let hits := findExprsInIndex segment.index pending
    let byPosition := hits.pairs.mergeSort fun a b => a.2.1 ≤ b.2.1
    searchPending segments (pending.filter fun key => hits.get? key = none)
      (byPosition.foldl (fun results hit =>
        keepResult results hit.1 ((slice segment.data hit.2.1 hit.2.2).bind decoded)) results)

def getExprsFromColdStorage (t : Table) (keys : List Bytes) : Dict Bytes Expr :=
  let pending := keys.dedup
  let files := pending.filterMap fun key => (t.level0.get? key).map fun data => (key, data)
  searchPending t.segments (pending.filter fun key => t.level0.get? key = none)
    (files.foldl (fun results file => keepResult results file.1 (decoded file.2)) Dict.empty)

end Reading

section Segments

/-- A segment that was written from rows in the order of their keys. -/
structure Segment.Of (segment : Segment) (rows : List (Bytes × Bytes)) : Prop where
  index : segment.index = spans 0 rows
  data : segment.data = valuesOf rows
  sorted : rows.Pairwise fun a b => a.1 < b.1
  keys : ∀ row ∈ rows, row.1.length = 32

def Segment.Ordered (segment : Segment) : Prop := ∃ rows, segment.Of rows

variable {segment : Segment} {rows : List (Bytes × Bytes)}

theorem sorted_spans (h : rows.Pairwise fun a b => a.1 < b.1) (n : Nat) :
    (spans n rows).Pairwise fun a b => a.1 < b.1 := by
  rw [← List.pairwise_map (f := Prod.fst) (R := (· < ·)), map_fst_spans, List.pairwise_map]
  exact h

theorem Segment.Of.sorted_index (h : segment.Of rows) :
    segment.index.Pairwise fun a b => a.1 < b.1 := by
  rw [h.index]
  exact sorted_spans h.sorted 0

theorem Segment.Of.searchOpenIndex_eq (h : segment.Of rows) (key : Bytes) :
    searchOpenIndex segment.index key = some (lookupPair key segment.index) :=
  bisect_all h.sorted_index key

theorem Segment.Of.lookup_of_length (h : segment.Of rows) {key : Bytes} (hkey : key.length ≠ 32) :
    lookupPair key segment.index = none := by
  rw [lookupPair_eq_none, h.index, map_fst_spans]
  intro hmem
  obtain ⟨row, hrow, rfl⟩ := List.mem_map.mp hmem
  exact hkey (h.keys row hrow)

/-- The binary search finds what the index has for a key. -/
theorem Segment.Of.find_eq (h : segment.Of rows) (key : Bytes) :
    findExprInIndex segment.index key = lookupPair key segment.index := by
  rw [findExprInIndex]
  split
  · rename_i hkey
    rw [h.lookup_of_length hkey]
  · rw [h.searchOpenIndex_eq]
    rfl

/-- The index of a segment leads to the row that was written for a key. -/
theorem Segment.Of.lookup_bind (h : segment.Of rows) (key : Bytes) :
    ((lookupPair key segment.index).bind fun span => slice segment.data span.1 span.2) =
      lookupPair key rows := by
  rw [h.index, h.data]
  exact lookupPair_spans key [] rows

theorem Segment.Of.read_eq (h : segment.Of rows) (key : Bytes) :
    segment.read key = lookupPair key rows := by
  rw [Segment.read, h.find_eq, h.lookup_bind]

theorem Segment.Of.isSome_slice (h : segment.Of rows) {key : Bytes} {span : Nat × Nat}
    (hspan : lookupPair key segment.index = some span) :
    ∃ data, slice segment.data span.1 span.2 = some data ∧ segment.read key = some data := by
  have hread := h.lookup_bind key
  rw [hspan, Option.bind_some] at hread
  have hmem : key ∈ rows.map Prod.fst := by
    rw [← map_fst_spans 0 rows, ← h.index]
    exact List.mem_map.mpr ⟨_, mem_of_lookupPair hspan, rfl⟩
  rcases hrow : lookupPair key rows with - | data
  · exact absurd hmem (lookupPair_eq_none.mp hrow)
  · exact ⟨data, hread.trans hrow, (h.read_eq key).trans hrow⟩

theorem Segment.Of.read_none (h : segment.Of rows) {key : Bytes}
    (hspan : lookupPair key segment.index = none) : segment.read key = none := by
  rw [h.read_eq, ← h.lookup_bind, hspan]
  rfl

theorem writeSegment_of (h : writeSegment rows = some segment)
    (hsorted : rows.Pairwise fun a b => a.1 < b.1) (hkeys : ∀ row ∈ rows, row.1.length = 32) :
    segment.Of rows := by
  rw [writeSegment] at h
  split at h
  · cases h
    exact ⟨rfl, rfl, hsorted, hkeys⟩
  · cases h

end Segments

section Collating

/-- A collation writes every file of `level_0`. -/
theorem collateExprs_spec {files : List (Bytes × Bytes)} {level0 : Dict Bytes Bytes}
    {segment : Segment} (hperm : files.Perm level0.pairs)
    (h : collateExprs files = some segment) :
    segment.Ordered ∧ ∀ key, segment.read key = level0.get? key := by
  rw [collateExprs] at h
  split at h
  · cases h
  rename_i hfiles
  have hkeys : ∀ file ∈ files, file.1.length = 32 := by
    intro file hfile
    by_contra hne
    exact hfiles (.inr ⟨file, hfile, hne⟩)
  have hnodup : (files.map Prod.fst).Nodup := (hperm.map Prod.fst).nodup_iff.mpr level0.nodup
  have hof : segment.Of (sortRows files) := by
    refine writeSegment_of h (sorted_sortRows hnodup) fun row hrow => ?_
    exact hkeys row ((sortRows_perm files).mem_iff.mp hrow)
  refine ⟨⟨_, hof⟩, fun key => ?_⟩
  rw [hof.read_eq, lookupPair_perm hnodup (sortRows_perm files), lookupPair_perm level0.nodup hperm]
  rfl

end Collating

section Merging

theorem get?_foldl_insert {κ ν ι : Type} [DecidableEq κ] (f : ι → κ × ν) {l : List ι}
    (hnodup : (l.map fun i => (f i).1).Nodup) (d : Dict κ ν) (key : κ) :
    (l.foldl (fun d i => d.insert (f i).1 (f i).2) d).get? key =
      (lookupPair key (l.map f)).or (d.get? key) := by
  induction l generalizing d with
  | nil => rfl
  | cons i l ih =>
    obtain ⟨hi, hl⟩ := List.nodup_cons.mp hnodup
    rw [List.foldl_cons, ih hl, List.map_cons, lookupPair, Dict.get?_insert]
    by_cases hkey : (f i).1 = key
    · have hnone : lookupPair key (l.map f) = none := by
        rw [lookupPair_eq_none, List.map_map]
        exact hkey ▸ hi
      rw [if_pos hkey, if_pos hkey, hnone]
      rfl
    · rw [if_neg hkey, if_neg hkey]

/-- The last segment in the listing that has a key wins. -/
theorem get?_mergedIndex {listing : Level} (h : ∀ s ∈ listing, s.2.Ordered) (key : Bytes) :
    (mergedIndex listing).get? key =
      listing.reverse.findSome? fun s => (lookupPair key s.2.index).map fun span => (s.1, span) := by
  have hfold : ∀ (l : Level) (d : Dict Bytes (Nat × Nat × Nat)), (∀ s ∈ l, s.2.Ordered) →
      (l.foldl (fun merged s =>
        s.2.index.foldl (fun merged row => merged.insert row.1 (s.1, row.2)) merged) d).get? key =
      (l.reverse.findSome? fun s => (lookupPair key s.2.index).map fun span => (s.1, span)).or
        (d.get? key) := by
    intro l
    induction l with
    | nil => exact fun d _ => rfl
    | cons s l ih =>
      intro d hl
      obtain ⟨rows, hrows⟩ := hl s List.mem_cons_self
      have hrow : ((s.2.index.foldl (fun merged row => merged.insert row.1 (s.1, row.2)) d).get?
          key) = ((lookupPair key s.2.index).map fun span => (s.1, span)).or (d.get? key) := by
        rw [← lookupPair_map_snd]
        exact get?_foldl_insert (fun row : Bytes × Nat × Nat => (row.1, s.1, row.2))
          (nodup_of_sorted hrows.sorted_index) d key
      rw [List.foldl_cons, ih _ fun s' hs' => hl s' (List.mem_cons_of_mem _ hs'), hrow,
        List.reverse_cons, List.findSome?_append, Option.or_assoc, List.findSome?_singleton]
  exact (hfold listing Dict.empty h).trans (Option.or_none ..)

theorem lookupPair_mapM {κ ν ν' : Type} [DecidableEq κ] (f : κ × ν → Option ν')
    {rows : List (κ × ν)} {rows' : List (κ × ν')}
    (h : rows.mapM (fun row => (f row).map fun v => (row.1, v)) = some rows') :
    rows'.map Prod.fst = rows.map Prod.fst ∧
      ∀ key, lookupPair key rows' = (lookupPair key rows).bind fun v => f (key, v) := by
  induction rows generalizing rows' with
  | nil =>
    cases h
    exact ⟨rfl, fun _ => rfl⟩
  | cons row rows ih =>
    rw [List.mapM_cons] at h
    obtain ⟨row', hrow, h⟩ := Option.bind_eq_some_iff.mp h
    obtain ⟨rest, hrest, h⟩ := Option.bind_eq_some_iff.mp h
    obtain ⟨v, hv, rfl⟩ := Option.map_eq_some_iff.mp hrow
    cases h
    obtain ⟨hkeys, hlookup⟩ := ih hrest
    refine ⟨by rw [List.map_cons, List.map_cons, hkeys], fun key => ?_⟩
    by_cases hkey : row.1 = key
    · rw [lookupPair, if_pos hkey, lookupPair, if_pos hkey, Option.bind_some, ← hkey]
      exact hv.symm
    · rw [lookupPair, if_neg hkey, lookupPair, if_neg hkey, hlookup]

theorem findSome?_bind {α β γ : Type} {f : α → Option β} {g : β → Option γ} {h : α → Option γ}
    {l : List α} (hnone : ∀ a ∈ l, f a = none → h a = none)
    (hsome : ∀ a ∈ l, ∀ b, f a = some b → ∃ c, g b = some c ∧ h a = some c) :
    (l.findSome? f).bind g = l.findSome? h := by
  induction l with
  | nil => rfl
  | cons a l ih =>
    rw [List.findSome?_cons, List.findSome?_cons]
    rcases hf : f a with - | b
    · rw [hnone a List.mem_cons_self hf]
      exact ih (fun a ha => hnone a (List.mem_cons_of_mem _ ha))
        fun a ha => hsome a (List.mem_cons_of_mem _ ha)
    · obtain ⟨c, hc, hh⟩ := hsome a List.mem_cons_self b hf
      rw [hh]
      exact hc

/-- A merge keeps every key, with the data of the last segment in the listing that has it. -/
theorem mergeExprs_spec {listing : Level} {segment : Segment} (h : ∀ s ∈ listing, s.2.Ordered)
    (hnodup : (listing.map Prod.fst).Nodup) (hmerge : mergeExprs listing = some segment) :
    segment.Ordered ∧
      ∀ key, segment.read key = listing.reverse.findSome? fun s => s.2.read key := by
  rw [mergeExprs] at hmerge
  split at hmerge
  · cases hmerge
  obtain ⟨rows, hrows, hwrite⟩ := Option.bind_eq_some_iff.mp hmerge
  obtain ⟨hkeys, hlookup⟩ := lookupPair_mapM (fun row => readChunk listing row.2) hrows
  have hsorted := sorted_sortRows (mergedIndex listing).nodup
  have hrow : ∀ key row, (mergedIndex listing).get? key = some row →
      ∃ s ∈ listing, lookupPair key s.2.index = some row.2 := by
    intro key row hget
    rw [get?_mergedIndex h] at hget
    obtain ⟨s, hs, hfound⟩ := List.exists_of_findSome?_eq_some hget
    obtain ⟨span, hspan, rfl⟩ := Option.map_eq_some_iff.mp hfound
    exact ⟨s, List.mem_reverse.mp hs, hspan⟩
  have hof : segment.Of rows := by
    refine writeSegment_of hwrite ?_ fun row hrow' => ?_
    · rw [← List.pairwise_map (f := Prod.fst) (R := (· < ·)), hkeys, List.pairwise_map]
      exact hsorted
    · have hmem : row.1 ∈ (sortRows (mergedIndex listing).pairs).map Prod.fst := by
        rw [← hkeys]
        exact List.mem_map.mpr ⟨row, hrow', rfl⟩
      obtain ⟨entry, hentry, hkey⟩ := List.mem_map.mp hmem
      have hget : (mergedIndex listing).get? row.1 = some entry.2 := by
        rw [Dict.get?_eq_some, ← hkey]
        exact (sortRows_perm _).mem_iff.mp hentry
      obtain ⟨s, hs, hspan⟩ := hrow _ _ hget
      obtain ⟨rows', hrows'⟩ := h s hs
      by_contra hlength
      rw [hrows'.lookup_of_length hlength] at hspan
      cases hspan
  refine ⟨⟨rows, hof⟩, fun key => ?_⟩
  rw [hof.read_eq, hlookup, lookupPair_perm (mergedIndex listing).nodup (sortRows_perm _)]
  change (((mergedIndex listing).get? key).bind fun row => readChunk listing row) = _
  rw [get?_mergedIndex h]
  refine findSome?_bind (fun s hs hnone => ?_) fun s hs row hsome => ?_
  · obtain ⟨rows', hrows'⟩ := h s (List.mem_reverse.mp hs)
    exact hrows'.read_none (Option.map_eq_none_iff.mp hnone)
  · obtain ⟨span, hspan, rfl⟩ := Option.map_eq_some_iff.mp hsome
    have hs' := List.mem_reverse.mp hs
    obtain ⟨rows', hrows'⟩ := h s hs'
    obtain ⟨data, hdata, hread⟩ := hrows'.isSome_slice hspan
    refine ⟨data, ?_, hread⟩
    rw [readChunk, lookupPair_of_mem hnodup hs']
    exact hdata

end Merging

section Levels

/-- In the listing of a merge, of two segments with different data for a key the one of the higher
number comes later. -/
def NewestLast (listing : Level) : Prop :=
  listing.Pairwise fun a b => ∀ key v w, a.2.read key = some v → b.2.read key = some w → v ≠ w →
    a.1 < b.1

/-- A level whose segments are sorted, each under a number of its own. -/
structure Level.Sound (level : Level) : Prop where
  ordered : ∀ s ∈ level, s.2.Ordered
  numbers : (level.map Prod.fst).Nodup

/-- What the segment of the highest number with a key has for it. -/
def Level.newest (level : Level) (key : Bytes) : Option Bytes :=
  (byNumber level).findSome? fun s => s.2.read key

/-- What the first level with a key has for it. -/
def newestAmong (levels : List Level) (key : Bytes) : Option Bytes :=
  levels.findSome? fun level => level.newest key

variable {level listing : Level} {levels levels' : List Level} {segment : Segment} {base : Int}

theorem newestFirst_reverse (h : NewestLast listing) (key : Bytes) :
    NewestFirst (fun s => s.2.read key) listing.reverse := by
  rw [NewestFirst, List.pairwise_reverse]
  exact h.imp fun {a b} hab v w hv hw hne => hab key w v hw hv (Ne.symm hne)

theorem Level.Sound.perm (h : level.Sound) (hperm : listing.Perm level) : listing.Sound :=
  ⟨fun s hs => h.ordered s (hperm.mem_iff.mp hs), (hperm.map Prod.fst).nodup_iff.mpr h.numbers⟩

theorem lt_nextCollatedNumber {s : Nat × Segment} (hs : s ∈ level) :
    s.1 < nextCollatedNumber level := by
  rw [nextCollatedNumber]
  induction level with
  | nil => cases hs
  | cons s' level ih =>
    rw [List.map_cons, List.foldr_cons]
    rcases List.mem_cons.mp hs with rfl | hs
    · exact (Nat.lt_succ_self _).trans_le (le_max_left _ _)
    · exact (ih hs).trans_le (le_max_right _ _)

theorem Level.Sound.append (h : level.Sound) (hs : segment.Ordered) :
    Level.Sound (level ++ [(nextCollatedNumber level, segment)]) := by
  refine ⟨fun s hmem => ?_, ?_⟩
  · rcases List.mem_append.mp hmem with hmem | hmem
    · exact h.ordered s hmem
    · rw [List.mem_singleton.mp hmem]
      exact hs
  · rw [List.map_append, List.nodup_append]
    refine ⟨h.numbers, List.nodup_singleton _, fun n hn m hm heq => ?_⟩
    obtain ⟨s, hs, rfl⟩ := List.mem_map.mp hn
    rw [List.mem_singleton.mp hm] at heq
    exact (lt_nextCollatedNumber hs).ne heq

/-- A new segment is the newest of its level. -/
theorem Level.Sound.newest_append (h : level.Sound) (key : Bytes) :
    Level.newest (level ++ [(nextCollatedNumber level, segment)]) key =
      (segment.read key).or (level.newest key) := by
  have hnew : (byNumber (level ++ [(nextCollatedNumber level, segment)])).findSome?
      (fun s => s.2.read key) =
        (segment.read key).or ((byNumber level).findSome? fun s => s.2.read key) :=
    findSome?_byNumber_append h.numbers fun _ hs => lt_nextCollatedNumber hs
  exact hnew

theorem sound_nil : Level.Sound [] := ⟨fun _ h => (nomatch h), List.nodup_nil⟩

theorem newestAmong_cons (level : Level) (levels : List Level) (key : Bytes) :
    newestAmong (level :: levels) key = (level.newest key).or (newestAmong levels key) := by
  rw [newestAmong, List.findSome?_cons, newestAmong]
  cases level.newest key <;> rfl

theorem newest_nil (key : Bytes) : Level.newest [] key = none := by
  rw [Level.newest, byNumber, List.mergeSort_nil]
  rfl

theorem addSegment_spec (h : ∀ level ∈ levels, level.Sound) (hs : segment.Ordered) :
    (∀ level ∈ addSegment segment levels, level.Sound) ∧
      ∀ key, newestAmong (addSegment segment levels) key =
        (segment.read key).or (newestAmong levels key) := by
  cases levels with
  | nil =>
    refine ⟨fun level hlevel => ?_, fun key => ?_⟩
    · rw [List.mem_singleton.mp hlevel]
      exact sound_nil.append hs
    · have hnew : Level.newest ([] ++ [(nextCollatedNumber [], segment)]) key = _ :=
        sound_nil.newest_append key
      rw [newest_nil, Option.or_none] at hnew
      exact (newestAmong_cons _ _ key).trans (congrArg (·.or none) hnew)
  | cons first levels =>
    have hfirst := h first List.mem_cons_self
    refine ⟨fun level hlevel => ?_, fun key => ?_⟩
    · rcases List.mem_cons.mp hlevel with rfl | hlevel
      · exact hfirst.append hs
      · exact h level (List.mem_cons_of_mem _ hlevel)
    · rw [addSegment, newestAmong_cons, hfirst.newest_append, newestAmong_cons, Option.or_assoc]

theorem makeLevel_spec (h : ∀ level ∈ levels, level.Sound) :
    (∀ level ∈ makeLevel levels, level.Sound) ∧
      ∀ key, newestAmong (makeLevel levels) key = newestAmong levels key := by
  cases levels with
  | nil =>
    refine ⟨fun level hlevel => ?_, fun key => ?_⟩
    · rw [List.mem_singleton.mp hlevel]
      exact sound_nil
    · rw [makeLevel, newestAmong_cons, newest_nil, Option.none_or]
  | cons first levels => exact ⟨h, fun _ => rfl⟩

/-- The merge of a level that is listed with its newest segments last has what the level had. -/
theorem merge_newest (h : level.Sound) (hperm : listing.Perm level) (hlast : NewestLast listing)
    (hmerge : mergeExprs listing = some segment) :
    segment.Ordered ∧ ∀ key, segment.read key = level.newest key := by
  have hlisting := h.perm hperm
  obtain ⟨hordered, hread⟩ := mergeExprs_spec hlisting.ordered hlisting.numbers hmerge
  refine ⟨hordered, fun key => ?_⟩
  have hsame : listing.reverse.Perm (byNumber level) :=
    (List.reverse_perm _).trans (hperm.trans (byNumber_perm level).symm)
  rw [hread, findSome?_newest hsame (newestFirst_byNumber _ h.numbers) (newestFirst_reverse hlast
    key)]
  rfl

/-- The merges after a collation change no value. -/
theorem cascade_spec {n : Nat} (hrun : Cascade base NewestLast n levels levels')
    (h : ∀ level ∈ levels, level.Sound) :
    (∀ level ∈ levels', level.Sound) ∧ ∀ key, newestAmong levels' key = newestAmong levels key := by
  induction hrun with
  | last => exact ⟨h, fun _ => rfl⟩
  | noLimit => exact ⟨h, fun _ => rfl⟩
  | within _ _ _ ih =>
    obtain ⟨hsound, hnewest⟩ := ih fun level hlevel => h level (List.mem_cons_of_mem _ hlevel)
    refine ⟨fun level hlevel => ?_, fun key => ?_⟩
    · rcases List.mem_cons.mp hlevel with rfl | hlevel
      · exact h level List.mem_cons_self
      · exact hsound level hlevel
    · rw [newestAmong_cons, newestAmong_cons, hnewest]
  | merged _ _ hperm hlast hmerge _ ih =>
    obtain ⟨hordered, hread⟩ := merge_newest (h _ List.mem_cons_self) hperm hlast hmerge
    obtain ⟨hadded, hadd⟩ := addSegment_spec
      (fun level hlevel => h level (List.mem_cons_of_mem _ hlevel)) hordered
    obtain ⟨hsound, hnewest⟩ := ih hadded
    refine ⟨fun level hlevel => ?_, fun key => ?_⟩
    · rcases List.mem_cons.mp hlevel with rfl | hlevel
      · exact sound_nil
      · exact hsound level hlevel
    · rw [newestAmong_cons, newest_nil, Option.none_or, hnewest, hadd, hread, newestAmong_cons]
  | notMerged =>
    obtain ⟨hsound, hnewest⟩ := makeLevel_spec
      fun level hlevel => h level (List.mem_cons_of_mem _ hlevel)
    refine ⟨fun level hlevel => ?_, fun key => ?_⟩
    · rcases List.mem_cons.mp hlevel with rfl | hlevel
      · exact h level List.mem_cons_self
      · exact hsound level hlevel
    · rw [newestAmong_cons, newestAmong_cons, hnewest]

end Levels

section Runs

/-- What a table has for a key: the file of `level_0`, or what the levels have. -/
def Table.newest (t : Table) (key : Bytes) : Option Bytes :=
  (t.level0.get? key).or (newestAmong t.levels key)

variable {base : Int} {t t' : Table} {blake3 : Bytes → Bytes}

theorem insert_newest (t : Table) (key data : Bytes) (levels : List Level) (key' : Bytes)
    (h : newestAmong levels key' = newestAmong t.levels key') :
    ((t.level0.insert key data).get? key').or (newestAmong levels key') =
      if key = key' then some data else t.newest key' := by
  rw [Dict.get?_insert, h]
  by_cases hkey : key = key'
  · rw [if_pos hkey, if_pos hkey]
    rfl
  · rw [if_neg hkey, if_neg hkey]
    rfl

/-- A write gives its key new data and leaves every other key as it was. -/
theorem write_spec {key data : Bytes} (hrun : Write base NewestLast t key data t')
    (h : ∀ level ∈ t.levels, level.Sound) :
    (∀ level ∈ t'.levels, level.Sound) ∧
      ∀ key', t'.newest key' = if key = key' then some data else t.newest key' := by
  cases hrun with
  | small => exact ⟨h, fun key' => insert_newest t key data t.levels key' rfl⟩
  | notCollated =>
    obtain ⟨hsound, hnewest⟩ := makeLevel_spec h
    exact ⟨hsound, fun key' => insert_newest t key data _ key' (hnewest key')⟩
  | collated _ hperm hcollate hcascade =>
    obtain ⟨hordered, hread⟩ := collateExprs_spec hperm hcollate
    obtain ⟨hadded, hadd⟩ := addSegment_spec h hordered
    obtain ⟨hsound, hnewest⟩ := cascade_spec hcascade hadded
    refine ⟨hsound, fun key' => ?_⟩
    have hsame := insert_newest t key data t.levels key' rfl
    rw [← hsame, Table.newest, hnewest, hadd, hread, Dict.get?_empty, Option.none_or]

/-- After any writes a table has, for every key, what was written last. -/
theorem writes_spec {files : List (Bytes × Expr)}
    (hrun : Writes blake3 base NewestLast Table.empty files t) :
    (∀ level ∈ t.levels, level.Sound) ∧
      ∀ key, t.newest key = (lookupPair key files.reverse).map (encodeExprToBytes blake3) := by
  induction hrun with
  | nil => exact ⟨fun _ h => absurd h List.not_mem_nil, fun _ => rfl⟩
  | snoc _ hwrite ih =>
    obtain ⟨hsound, hnewest⟩ := ih
    obtain ⟨hsound', hwritten⟩ := write_spec hwrite hsound
    refine ⟨hsound', fun key' => ?_⟩
    rw [hwritten, hnewest, List.reverse_append, List.reverse_singleton, List.singleton_append,
      lookupPair]
    split <;> rfl

end Runs

end Astreum
