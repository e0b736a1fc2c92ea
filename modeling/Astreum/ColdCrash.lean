import Astreum.ColdMap

namespace Astreum

/-- The files of a level by their numbers, the temporary ones among them. -/
structure LevelDir where
  index : Dict Nat (List (Bytes × Nat × Nat))
  data : Dict Nat Bytes
  indexTmp : Dict Nat (List (Bytes × Nat × Nat))
  dataTmp : Dict Nat Bytes

/-- The files of a table: those of `level_0`, and the directories from `level_1` on. -/
structure TableDir where
  level0 : Dict Bytes Bytes
  levels : List LevelDir

/-- What happens to a file of a level in one atomic step. -/
inductive DirOp where
  | writeIndexTmp (n : Nat) (rows : List (Bytes × Nat × Nat))
  | writeDataTmp (n : Nat) (data : Bytes)
  | replaceData (n : Nat)
  | replaceIndex (n : Nat)
  | unlinkIndex (n : Nat)
  | unlinkData (n : Nat)
  | unlinkIndexTmp (n : Nat)
  | unlinkDataTmp (n : Nat)
  deriving DecidableEq

/-- An atomic step on the files of a table. The directory at place `i` of the levels is
`level_{i + 1}`. -/
inductive FileOp where
  | unlinkFile (key : Bytes)
  | makeDir (i : Nat)
  | inDir (i : Nat) (op : DirOp)

def DirOp.isUnlink : DirOp → Bool
  | .unlinkIndex _ => true
  | .unlinkData _ => true
  | .unlinkIndexTmp _ => true
  | .unlinkDataTmp _ => true
  | _ => false

namespace LevelDir

def empty : LevelDir := ⟨Dict.empty, Dict.empty, Dict.empty, Dict.empty⟩

def apply (dir : LevelDir) : DirOp → LevelDir
  | .writeIndexTmp n rows => { dir with indexTmp := dir.indexTmp.insert n rows }
  | .writeDataTmp n data => { dir with dataTmp := dir.dataTmp.insert n data }
  | .replaceData n => match dir.dataTmp.get? n with
    | none => dir
    | some data => { dir with data := dir.data.insert n data, dataTmp := dir.dataTmp.erase n }
  | .replaceIndex n => match dir.indexTmp.get? n with
    | none => dir
    | some rows => { dir with index := dir.index.insert n rows, indexTmp := dir.indexTmp.erase n }
  | .unlinkIndex n => { dir with index := dir.index.erase n }
  | .unlinkData n => { dir with data := dir.data.erase n }
  | .unlinkIndexTmp n => { dir with indexTmp := dir.indexTmp.erase n }
  | .unlinkDataTmp n => { dir with dataTmp := dir.dataTmp.erase n }

/-- The segments as the readers and the merge see them. A data file that is gone gives them as
little as an empty one: no cell is empty. -/
def segments (dir : LevelDir) : Level :=
  dir.index.pairs.map fun p => (p.1, ⟨p.2, (dir.data.get? p.1).getD []⟩)

/-- What `merge_exprs` unlinks in the directory. -/
def unlinks (dir : LevelDir) : List DirOp :=
  dir.index.keys.map .unlinkIndex ++ dir.data.keys.map .unlinkData ++
    dir.indexTmp.keys.map .unlinkIndexTmp ++ dir.dataTmp.keys.map .unlinkDataTmp

def indexSize (index : Dict Nat (List (Bytes × Nat × Nat))) : Nat :=
  (index.pairs.map fun p => 64 + 160 * p.2.length).sum

def dataSize (data : Dict Nat Bytes) : Nat := (data.pairs.map fun p => p.2.length).sum

/-- `_level_size` of the directory. -/
def size (dir : LevelDir) : Nat :=
  indexSize dir.index + dataSize dir.data + (indexSize dir.indexTmp + dataSize dir.dataTmp)

end LevelDir

namespace TableDir

def empty : TableDir := ⟨Dict.empty, []⟩

def apply (t : TableDir) : FileOp → TableDir
  | .unlinkFile key => { t with level0 := t.level0.erase key }
  | .makeDir i => if t.levels.length = i then { t with levels := t.levels ++ [.empty] } else t
  | .inDir i op => { t with levels := t.levels.modify i fun dir => dir.apply op }

def run (t : TableDir) (ops : List FileOp) : TableDir := ops.foldl apply t

/-- The table as the readers see it. -/
def table (t : TableDir) : Table := ⟨t.level0, t.levels.map LevelDir.segments, 0⟩

/-- `_next_collated_number` of a directory, which may not be there. -/
def nextNumber (t : TableDir) (i : Nat) : Nat :=
  match t.levels[i]? with
  | none => 0
  | some dir => nextCollatedNumber dir.segments

/-- A new segment in a directory: both files are written under temporary names, then the data and
then the index are put in place. -/
def install (t : TableDir) (i : Nat) (segment : Segment) : List FileOp :=
  let n := t.nextNumber i
  [.makeDir i, .inDir i (.writeIndexTmp n segment.index), .inDir i (.writeDataTmp n segment.data),
    .inDir i (.replaceData n), .inDir i (.replaceIndex n)]

/-- The steps of `_cleanup_temp` after an error. -/
def cleanups (t : TableDir) (i : Nat) : List FileOp :=
  [.inDir i (.unlinkIndexTmp (t.nextNumber i)), .inDir i (.unlinkDataTmp (t.nextNumber i))]

/-- The unlinks of `collate_exprs`. -/
def unlinkFiles (files : List (Bytes × Bytes)) : List FileOp :=
  (sortRows files).map fun file => .unlinkFile file.1

end TableDir

/-- The files of a level that are gone when a merge stops lose nothing: a segment is gone with both
of its files or with none, and of two segments with different data for a key the one of the higher
number is gone only with the other. -/
structure SafelyGone (level : Level) (gone : List DirOp) : Prop where
  paired : ∀ s ∈ level, .unlinkIndex s.1 ∈ gone ↔ .unlinkData s.1 ∈ gone
  oldest : ∀ a ∈ level, ∀ b ∈ level, a.1 < b.1 → ∀ key v w, a.2.read key = some v →
    b.2.read key = some w → v ≠ w → .unlinkIndex b.1 ∈ gone → .unlinkIndex a.1 ∈ gone

/-- A step of a node on a table. Between two puts it is at no place; after a collation it looks at
the directories one after another, and is at the place of the one that comes next. Every collation
and every merge may stop after any of its steps, with its temporary files cleaned up or not. The
merges list a level and leave the unlinks that are `allowed`. -/
inductive ColdStep (base : Int) (allowed : Level → List DirOp → Prop) :
    Option Nat → TableDir → Option (Bytes × Bytes) → Option Nat → TableDir → Prop
  | put {t : TableDir} {key data : Bytes} (hkey : key.length = 32) :
      ColdStep base allowed none t (some (key, data)) none
        { t with level0 := t.level0.insert key data }
  | notCollated {t : TableDir} {files : List (Bytes × Bytes)} (hfiles : files.Perm t.level0.pairs)
      (hcollate : collateExprs files = none) :
      ColdStep base allowed none t none none (t.apply (.makeDir 0))
  | collating {t : TableDir} {files : List (Bytes × Bytes)} {segment : Segment} {done : Nat}
      {cleaned : List FileOp} (hfiles : files.Perm t.level0.pairs)
      (hcollate : collateExprs files = some segment) (hdone : done < 5)
      (hcleaned : cleaned ⊆ t.cleanups 0) :
      ColdStep base allowed none t none none (t.run ((t.install 0 segment).take done ++ cleaned))
  | unlinkingFiles {t : TableDir} {files : List (Bytes × Bytes)} {segment : Segment} {done : Nat}
      (hfiles : files.Perm t.level0.pairs) (hcollate : collateExprs files = some segment) :
      ColdStep base allowed none t none none
        (t.run (t.install 0 segment ++ (TableDir.unlinkFiles files).take done))
  | collated {t : TableDir} {files : List (Bytes × Bytes)} {segment : Segment}
      (hfiles : files.Perm t.level0.pairs) (hcollate : collateExprs files = some segment) :
      ColdStep base allowed none t none (some 0)
        (t.run (t.install 0 segment ++ TableDir.unlinkFiles files))
  | stopped {t : TableDir} {i : Nat} : ColdStep base allowed (some i) t none none t
  | within {t : TableDir} {i : Nat} {dir : LevelDir} (hdir : t.levels[i]? = some dir)
      (hbase : 0 < base) (hsize : dir.size ≤ levelLimit base (i + 1)) :
      ColdStep base allowed (some i) t none (some (i + 1)) t
  | notMerged {t : TableDir} {i : Nat} {dir : LevelDir} {listing : Level}
      (hdir : t.levels[i]? = some dir) (hbase : 0 < base)
      (hsize : levelLimit base (i + 1) < dir.size) (hlisting : listing.Perm dir.segments)
      (hmerge : mergeExprs listing = none) :
      ColdStep base allowed (some i) t none none (t.apply (.makeDir (i + 1)))
  | merging {t : TableDir} {i : Nat} {dir : LevelDir} {listing : Level} {segment : Segment}
      {done : Nat} {cleaned : List FileOp} (hdir : t.levels[i]? = some dir) (hbase : 0 < base)
      (hsize : levelLimit base (i + 1) < dir.size) (hlisting : listing.Perm dir.segments)
      (hmerge : mergeExprs listing = some segment) (hdone : done < 5)
      (hcleaned : cleaned ⊆ t.cleanups (i + 1)) :
      ColdStep base allowed (some i) t none none
        (t.run ((t.install (i + 1) segment).take done ++ cleaned))
  | unlinking {t : TableDir} {i : Nat} {dir : LevelDir} {listing : Level} {segment : Segment}
      {gone : List DirOp} (hdir : t.levels[i]? = some dir) (hbase : 0 < base)
      (hsize : levelLimit base (i + 1) < dir.size) (hlisting : listing.Perm dir.segments)
      (hmerge : mergeExprs listing = some segment) (hgone : gone.Subperm dir.unlinks)
      (hallowed : allowed listing gone) :
      ColdStep base allowed (some i) t none none
        (t.run (t.install (i + 1) segment ++ gone.map (.inDir i)))
  | merged {t : TableDir} {i : Nat} {dir : LevelDir} {listing : Level} {segment : Segment}
      {gone : List DirOp} (hdir : t.levels[i]? = some dir) (hbase : 0 < base)
      (hsize : levelLimit base (i + 1) < dir.size) (hlisting : listing.Perm dir.segments)
      (hmerge : mergeExprs listing = some segment) (hgone : gone.Perm dir.unlinks)
      (hallowed : allowed listing gone) :
      ColdStep base allowed (some i) t none (some (i + 1))
        (t.run (t.install (i + 1) segment ++ gone.map (.inDir i)))

/-- The runs of a table from its start, with what was put, the last first. -/
inductive ColdRun (base : Int) (allowed : Level → List DirOp → Prop) :
    Option Nat → TableDir → List (Bytes × Bytes) → Prop
  | start : ColdRun base allowed none TableDir.empty []
  | step {place place' : Option Nat} {t t' : TableDir} {puts : List (Bytes × Bytes)}
      {put : Option (Bytes × Bytes)} (hrun : ColdRun base allowed place t puts)
      (hstep : ColdStep base allowed place t put place' t') :
      ColdRun base allowed place' t' (put.toList ++ puts)

/-- Every key is read as it was put last. -/
structure ReadsBack (t : TableDir) (puts : List (Bytes × Bytes)) : Prop where
  one : ∀ key, getExprFromColdStorage t.table key = (lookupPair key puts).bind decoded
  many : ∀ keys key, (getExprsFromColdStorage t.table keys).get? key =
    if key ∈ keys then getExprFromColdStorage t.table key else none

/-- The next collation and the next merge find all that they need: they write a segment, unless its
numbers do not fit in their 64 bytes. -/
structure Workable (base : Int) (place : Option Nat) (t : TableDir) : Prop where
  collates : ∀ files, files.Perm t.level0.pairs → files ≠ [] →
    collateExprs files = writeSegment (sortRows files)
  merges : ∀ i dir, place = some i → t.levels[i]? = some dir → 0 < base →
    levelLimit base (i + 1) < dir.size → ∀ listing, listing.Perm dir.segments →
      ∃ rows, mergeExprs listing = writeSegment rows

section Directories

variable {dir : LevelDir}

theorem mem_segments {s : Nat × Segment} : s ∈ dir.segments ↔
    dir.index.get? s.1 = some s.2.index ∧ (dir.data.get? s.1).getD [] = s.2.data := by
  rw [LevelDir.segments, List.mem_map, Dict.get?_eq_some]
  constructor
  · rintro ⟨p, hp, rfl⟩
    exact ⟨hp, rfl⟩
  · rintro ⟨hindex, hdata⟩
    exact ⟨(s.1, s.2.index), hindex, by rw [hdata]⟩

theorem map_fst_segments : dir.segments.map Prod.fst = dir.index.keys := by
  rw [LevelDir.segments, List.map_map, Dict.keys]
  rfl

theorem pairs_insert_of_none {κ ν : Type} [DecidableEq κ] {d : Dict κ ν} {k : κ} (v : ν)
    (h : d.get? k = none) : (d.insert k v).pairs = d.pairs ++ [(k, v)] := by
  obtain ⟨ps, hps⟩ := d
  have hk : k ∉ ps.map Prod.fst := lookupPair_eq_none.mp h
  change putPair k v ps = ps ++ [(k, v)]
  clear hps h
  induction ps with
  | nil => rfl
  | cons p ps ih =>
    obtain ⟨hp, hps⟩ := not_or.mp (mt List.mem_cons.mpr hk)
    rw [putPair, if_neg (Ne.symm hp), ih hps, List.cons_append]

/-- A data file without an index beside it is not seen. -/
theorem segments_replaceData {n : Nat} (hfree : dir.index.get? n = none) :
    (dir.apply (.replaceData n)).segments = dir.segments := by
  rw [LevelDir.apply.eq_def]
  rcases hdata : dir.dataTmp.get? n with _ | data
  · simp only [hdata]
  · simp only [hdata]
    refine List.map_congr_left fun p hp => ?_
    have hne : n ≠ p.1 := by
      rintro rfl
      rw [Dict.get?_eq_some.mpr hp] at hfree
      cases hfree
    rw [Dict.get?_insert_of_ne _ _ hne]

/-- The number of the next segment is free. -/
theorem next_free (dir : LevelDir) : dir.index.get? (nextCollatedNumber dir.segments) = none := by
  rcases hrows : dir.index.get? (nextCollatedNumber dir.segments) with - | rows
  · rfl
  · have hmem : (nextCollatedNumber dir.segments,
        ⟨rows, (dir.data.get? (nextCollatedNumber dir.segments)).getD []⟩) ∈ dir.segments :=
      mem_segments.mpr ⟨hrows, rfl⟩
    exact absurd (lt_nextCollatedNumber hmem) (lt_irrefl _)

def installOps (n : Nat) (segment : Segment) : List DirOp :=
  [.writeIndexTmp n segment.index, .writeDataTmp n segment.data, .replaceData n, .replaceIndex n]

def cleanOps (n : Nat) : List DirOp := [.unlinkIndexTmp n, .unlinkDataTmp n]

/-- A file of the directory that belongs to no segment. -/
def LevelDir.Stale (dir : LevelDir) (m : Nat) : Prop :=
  dir.indexTmp.get? m ≠ none ∨ dir.dataTmp.get? m ≠ none ∨
    (dir.data.get? m ≠ none ∧ dir.index.get? m = none)

def LevelDir.Tidy (dir : LevelDir) : Prop := ∀ m, ¬dir.Stale m

/-- The next segment takes the place of all stale files. -/
def LevelDir.Near (dir : LevelDir) : Prop :=
  ∀ m, dir.Stale m → m = nextCollatedNumber dir.segments

theorem LevelDir.Tidy.near (h : dir.Tidy) : dir.Near := fun m hm => absurd hm (h m)

theorem tidy_empty : LevelDir.empty.Tidy := by
  intro m hm
  rcases hm with hm | hm | hm
  · exact hm rfl
  · exact hm rfl
  · exact hm.1 rfl

theorem stale_apply {n m : Nat} {segment : Segment} {op : DirOp}
    (hop : op ∈ installOps n segment ++ cleanOps n) (hm : (dir.apply op).Stale m) :
    m = n ∨ dir.Stale m := by
  by_cases hmn : m = n
  · exact .inl hmn
  have hnm : n ≠ m := Ne.symm hmn
  refine .inr ?_
  simp only [installOps, cleanOps, List.cons_append, List.nil_append, List.mem_cons,
    List.not_mem_nil, or_false] at hop
  rcases hop with rfl | rfl | rfl | rfl | rfl | rfl
  · simpa only [LevelDir.Stale, LevelDir.apply, Dict.get?_insert, if_neg hnm] using hm
  · simpa only [LevelDir.Stale, LevelDir.apply, Dict.get?_insert, if_neg hnm] using hm
  · rw [LevelDir.apply.eq_def] at hm
    rcases hdata : dir.dataTmp.get? n with - | data
    · simpa only [hdata] using hm
    · simpa only [hdata, LevelDir.Stale, Dict.get?_insert, Dict.get?_erase, if_neg hnm,
        if_neg hmn] using hm
  · rw [LevelDir.apply.eq_def] at hm
    rcases hrows : dir.indexTmp.get? n with - | rows
    · simpa only [hrows] using hm
    · simpa only [hrows, LevelDir.Stale, Dict.get?_insert, Dict.get?_erase, if_neg hnm,
        if_neg hmn] using hm
  · simpa only [LevelDir.Stale, LevelDir.apply, Dict.get?_erase, if_neg hmn] using hm
  · simpa only [LevelDir.Stale, LevelDir.apply, Dict.get?_erase, if_neg hmn] using hm

theorem stale_foldl {n m : Nat} {segment : Segment} {ops : List DirOp}
    (hops : ops ⊆ installOps n segment ++ cleanOps n)
    (hm : (ops.foldl LevelDir.apply dir).Stale m) : m = n ∨ dir.Stale m := by
  induction ops generalizing dir with
  | nil => exact .inr hm
  | cons op ops ih =>
    obtain ⟨hop, hrest⟩ := List.cons_subset.mp hops
    rcases ih hrest hm with hn | hm'
    · exact .inl hn
    · exact stale_apply hop hm'

theorem segments_cleaned {n : Nat} {ops : List DirOp} (hops : ops ⊆ cleanOps n) :
    (ops.foldl LevelDir.apply dir).segments = dir.segments := by
  induction ops generalizing dir with
  | nil => rfl
  | cons op ops ih =>
    obtain ⟨hop, hrest⟩ := List.cons_subset.mp hops
    rw [List.foldl_cons, ih hrest]
    rcases List.mem_cons.mp hop with rfl | hop
    · rfl
    · rw [List.mem_singleton.mp hop]
      rfl

/-- Until its last step an installation changes nothing that is seen. -/
theorem segments_partly {n : Nat} (segment : Segment) (hfree : dir.index.get? n = none) {done : Nat}
    (hdone : done < 4) :
    (((installOps n segment).take done).foldl LevelDir.apply dir).segments = dir.segments := by
  have hwritten : ∀ d : LevelDir, d.index = dir.index → d.data = dir.data →
      d.segments = dir.segments := by
    intro d hindex hdata
    rw [LevelDir.segments, hindex, hdata, LevelDir.segments]
  have hplaced : ∀ d : LevelDir, d.index = dir.index → d.data = dir.data →
      (d.apply (.replaceData n)).segments = dir.segments := by
    intro d hindex hdata
    rw [segments_replaceData (by rwa [hindex]), hwritten d hindex hdata]
  match done with
  | 0 => exact rfl
  | 1 => exact hwritten _ rfl rfl
  | 2 => exact hwritten _ rfl rfl
  | 3 => exact hplaced _ rfl rfl

theorem segments_installed {n : Nat} (segment : Segment) (hfree : dir.index.get? n = none) :
    ((installOps n segment).foldl LevelDir.apply dir).segments =
      dir.segments ++ [(n, segment)] := by
  simp only [installOps, List.foldl_cons, List.foldl_nil, LevelDir.apply, Dict.get?_insert_self]
  rw [LevelDir.segments, pairs_insert_of_none _ hfree, List.map_append]
  congr 1
  · refine List.map_congr_left fun p hp => ?_
    have hne : n ≠ p.1 := by
      rintro rfl
      rw [Dict.get?_eq_some.mpr hp] at hfree
      cases hfree
    rw [Dict.get?_insert_of_ne _ _ hne]
  · simp

theorem near_partly (segment : Segment) {done : Nat} (hdone : done < 4) {ops : List DirOp}
    (hops : ops ⊆ cleanOps (nextCollatedNumber dir.segments)) :
    let dir' := ((installOps (nextCollatedNumber dir.segments) segment).take done ++ ops).foldl
      LevelDir.apply dir
    dir'.segments = dir.segments ∧ (dir.Near → dir'.Near) := by
  have hsegments : (((installOps (nextCollatedNumber dir.segments) segment).take done ++ ops).foldl
      LevelDir.apply dir).segments = dir.segments := by
    rw [List.foldl_append, segments_cleaned hops, segments_partly segment (next_free dir) hdone]
  refine ⟨hsegments, fun hnear m hm => ?_⟩
  have hsubset : (installOps (nextCollatedNumber dir.segments) segment).take done ++ ops ⊆
      installOps (nextCollatedNumber dir.segments) segment ++
        cleanOps (nextCollatedNumber dir.segments) := by
    refine List.append_subset.mpr ⟨fun op hop => ?_, fun op hop => ?_⟩
    · exact List.mem_append_left _ (List.take_subset _ _ hop)
    · exact List.mem_append_right _ (hops hop)
  rw [hsegments]
  rcases stale_foldl hsubset hm with hn | hm
  · exact hn
  · exact hnear m hm

theorem tidy_installed (segment : Segment) (hnear : dir.Near) :
    ((installOps (nextCollatedNumber dir.segments) segment).foldl LevelDir.apply dir).Tidy := by
  intro m hm
  have hn : m = nextCollatedNumber dir.segments := by
    rcases stale_foldl (List.subset_append_left _ _) hm with hn | hm
    · exact hn
    · exact hnear m hm
  subst hn
  simp [installOps, LevelDir.apply, LevelDir.Stale, Dict.get?_erase] at hm

theorem isUnlink_of_mem {op : DirOp} (h : op ∈ dir.unlinks) : op.isUnlink = true := by
  simp only [LevelDir.unlinks, List.mem_append, List.mem_map] at h
  rcases h with ((⟨n, -, rfl⟩ | ⟨n, -, rfl⟩) | ⟨n, -, rfl⟩) | ⟨n, -, rfl⟩ <;> rfl

/-- The indexes that are left after unlinks. -/
theorem index_foldl_unlink {ops : List DirOp} (hops : ∀ op ∈ ops, op.isUnlink = true) :
    (ops.foldl LevelDir.apply dir).index.pairs =
      dir.index.pairs.filter fun p => DirOp.unlinkIndex p.1 ∉ ops := by
  induction ops generalizing dir with
  | nil => simp
  | cons op ops ih =>
    obtain ⟨hop, hrest⟩ := List.forall_mem_cons.mp hops
    rw [List.foldl_cons, ih hrest]
    cases op with
    | unlinkIndex n =>
      change (dir.index.pairs.filter fun p => decide (p.1 ≠ n)).filter _ = _
      rw [List.filter_filter]
      refine List.filter_congr fun p _ => ?_
      by_cases hn : p.1 = n <;> simp [hn]
    | unlinkData n => simp [LevelDir.apply]
    | unlinkIndexTmp n => simp [LevelDir.apply]
    | unlinkDataTmp n => simp [LevelDir.apply]
    | _ => cases hop

theorem data_foldl_unlink {ops : List DirOp} (hops : ∀ op ∈ ops, op.isUnlink = true) (n : Nat) :
    (ops.foldl LevelDir.apply dir).data.get? n =
      if .unlinkData n ∈ ops then none else dir.data.get? n := by
  induction ops generalizing dir with
  | nil => simp
  | cons op ops ih =>
    obtain ⟨hop, hrest⟩ := List.forall_mem_cons.mp hops
    rw [List.foldl_cons, ih hrest]
    cases op with
    | unlinkData m =>
      simp only [LevelDir.apply, Dict.get?_erase, List.mem_cons, DirOp.unlinkData.injEq]
      by_cases hm : n = m <;> by_cases hmem : DirOp.unlinkData n ∈ ops <;> simp [hm, hmem]
    | unlinkIndex m => simp [LevelDir.apply]
    | unlinkIndexTmp m => simp [LevelDir.apply]
    | unlinkDataTmp m => simp [LevelDir.apply]
    | _ => cases hop

theorem index_get?_foldl_unlink {ops : List DirOp} (hops : ∀ op ∈ ops, op.isUnlink = true)
    {n : Nat} (hn : .unlinkIndex n ∉ ops) :
    (ops.foldl LevelDir.apply dir).index.get? n = dir.index.get? n := by
  induction ops generalizing dir with
  | nil => rfl
  | cons op ops ih =>
    obtain ⟨hop, hrest⟩ := List.forall_mem_cons.mp hops
    obtain ⟨hne, hn⟩ := not_or.mp (mt List.mem_cons.mpr hn)
    rw [List.foldl_cons, ih hrest hn]
    cases op with
    | unlinkIndex m =>
      have hnm : n ≠ m := fun heq => hne (by rw [heq])
      exact dir.index.get?_erase_of_ne hnm
    | unlinkData m => rfl
    | unlinkIndexTmp m => rfl
    | unlinkDataTmp m => rfl
    | _ => cases hop

theorem tmp_foldl_unlink {ops : List DirOp} (hops : ∀ op ∈ ops, op.isUnlink = true) (n : Nat) :
    (dir.indexTmp.get? n = none → (ops.foldl LevelDir.apply dir).indexTmp.get? n = none) ∧
      (dir.dataTmp.get? n = none → (ops.foldl LevelDir.apply dir).dataTmp.get? n = none) := by
  induction ops generalizing dir with
  | nil => exact ⟨id, id⟩
  | cons op ops ih =>
    obtain ⟨hop, hrest⟩ := List.forall_mem_cons.mp hops
    obtain ⟨hindex, hdata⟩ := @ih (dir.apply op) hrest
    rw [List.foldl_cons]
    refine ⟨fun h => hindex ?_, fun h => hdata ?_⟩
    · cases op with
      | unlinkIndexTmp m => simp [LevelDir.apply, Dict.get?_erase, h]
      | unlinkIndex m => exact h
      | unlinkData m => exact h
      | unlinkDataTmp m => exact h
      | _ => cases hop
    · cases op with
      | unlinkDataTmp m => simp [LevelDir.apply, Dict.get?_erase, h]
      | unlinkIndex m => exact h
      | unlinkData m => exact h
      | unlinkIndexTmp m => exact h
      | _ => cases hop

/-- What is seen after unlinks that leave no index without its data. -/
theorem segments_foldl_unlink {ops : List DirOp} (hops : ∀ op ∈ ops, op.isUnlink = true)
    (hdata : ∀ s ∈ dir.segments, .unlinkData s.1 ∈ ops → .unlinkIndex s.1 ∈ ops) :
    (ops.foldl LevelDir.apply dir).segments =
      dir.segments.filter fun s => DirOp.unlinkIndex s.1 ∉ ops := by
  rw [LevelDir.segments, index_foldl_unlink hops, LevelDir.segments, List.filter_map]
  refine List.map_congr_left fun p hp => ?_
  obtain ⟨hp, hkept⟩ := List.mem_filter.mp hp
  have hindex : DirOp.unlinkIndex p.1 ∉ ops := by simpa using hkept
  have hs : (p.1, ⟨p.2, (dir.data.get? p.1).getD []⟩) ∈ dir.segments :=
    List.mem_map.mpr ⟨p, hp, rfl⟩
  rw [data_foldl_unlink hops, if_neg (mt (hdata _ hs) hindex)]

/-- Unlinks that take a segment with both of its files or with none leave no stale files. -/
theorem LevelDir.Tidy.unlinked (h : dir.Tidy) {ops : List DirOp}
    (hops : ∀ op ∈ ops, op.isUnlink = true)
    (hpaired : ∀ s ∈ dir.segments, .unlinkIndex s.1 ∈ ops ↔ .unlinkData s.1 ∈ ops) :
    (ops.foldl LevelDir.apply dir).Tidy := by
  rintro m (hm | hm | ⟨hdata, hindex⟩)
  · exact hm ((tmp_foldl_unlink hops m).1 (by_contra fun h' => h m (.inl h')))
  · exact hm ((tmp_foldl_unlink hops m).2 (by_contra fun h' => h m (.inr (.inl h'))))
  · rw [data_foldl_unlink hops] at hdata
    by_cases hgone : DirOp.unlinkData m ∈ ops
    · exact hdata (if_pos hgone)
    rw [if_neg hgone] at hdata
    rcases hrows : dir.index.get? m with - | rows
    · exact h m (.inr (.inr ⟨hdata, hrows⟩))
    have hmem : (m, ⟨rows, (dir.data.get? m).getD []⟩) ∈ dir.segments :=
      mem_segments.mpr ⟨hrows, rfl⟩
    rw [index_get?_foldl_unlink hops (mt (hpaired _ hmem).mp hgone), hrows] at hindex
    cases hindex

end Directories

section Files

variable {t : TableDir}

theorem modify_append {α : Type} (pre post : List α) (a : α) (f : α → α) :
    (pre ++ a :: post).modify pre.length f = pre ++ f a :: post := by
  induction pre with
  | nil => rfl
  | cons b pre ih => simp [ih]

theorem run_append (t : TableDir) (ops ops' : List FileOp) :
    t.run (ops ++ ops') = (t.run ops).run ops' := List.foldl_append

/-- Steps in one directory. -/
theorem run_inDir {pre post : List LevelDir} {dir : LevelDir} {level0 : Dict Bytes Bytes}
    (ops : List DirOp) :
    TableDir.run ⟨level0, pre ++ dir :: post⟩ (ops.map (.inDir pre.length)) =
      ⟨level0, pre ++ ops.foldl LevelDir.apply dir :: post⟩ := by
  induction ops generalizing dir with
  | nil => rfl
  | cons op ops ih =>
    rw [List.map_cons, TableDir.run, List.foldl_cons, List.foldl_cons, ← ih]
    simp only [TableDir.apply, modify_append]
    rfl

/-- The directory for a new segment, which is made where there is none. -/
def makeDirs : List LevelDir → List LevelDir
  | [] => [.empty]
  | dirs => dirs

variable {pre post rest : List LevelDir} {dir : LevelDir} {level0 : Dict Bytes Bytes}

theorem nextNumber_eq (hpost : makeDirs post = dir :: rest) :
    TableDir.nextNumber ⟨level0, pre ++ post⟩ pre.length = nextCollatedNumber dir.segments := by
  cases post with
  | nil =>
    cases hpost
    simp only [TableDir.nextNumber, List.append_nil, List.getElem?_length]
    rfl
  | cons d ds =>
    cases hpost
    simp [TableDir.nextNumber]

theorem apply_makeDir (hpost : makeDirs post = dir :: rest) :
    TableDir.apply ⟨level0, pre ++ post⟩ (.makeDir pre.length) =
      ⟨level0, pre ++ dir :: rest⟩ := by
  cases post with
  | nil =>
    cases hpost
    simp [TableDir.apply]
  | cons d ds =>
    cases hpost
    simp [TableDir.apply]

theorem install_run (hpost : makeDirs post = dir :: rest) (segment : Segment) (done : Nat) :
    TableDir.run ⟨level0, pre ++ post⟩
        ((TableDir.install ⟨level0, pre ++ post⟩ pre.length segment).take (done + 1)) =
      ⟨level0, pre ++ ((installOps (nextCollatedNumber dir.segments) segment).take done).foldl
        LevelDir.apply dir :: rest⟩ := by
  have hops : (TableDir.install ⟨level0, pre ++ post⟩ pre.length segment).take (done + 1) =
      .makeDir pre.length ::
        ((installOps (nextCollatedNumber dir.segments) segment).take done).map
          (.inDir pre.length) := by
    rw [TableDir.install, nextNumber_eq hpost, List.take_succ_cons, List.map_take]
    rfl
  rw [hops, TableDir.run, List.foldl_cons, apply_makeDir hpost]
  exact run_inDir _

theorem install_all (hpost : makeDirs post = dir :: rest) (segment : Segment) :
    TableDir.run ⟨level0, pre ++ post⟩
        (TableDir.install ⟨level0, pre ++ post⟩ pre.length segment) =
      ⟨level0, pre ++ (installOps (nextCollatedNumber dir.segments) segment).foldl
        LevelDir.apply dir :: rest⟩ := install_run hpost segment 4

/-- Cleaning up in a directory that is not there does nothing. -/
theorem run_nowhere {ops : List DirOp} :
    TableDir.run ⟨level0, pre⟩ (ops.map (.inDir pre.length)) = ⟨level0, pre⟩ := by
  induction ops with
  | nil => rfl
  | cons op ops ih =>
    rw [List.map_cons, TableDir.run, List.foldl_cons]
    have hsame : TableDir.apply ⟨level0, pre⟩ (.inDir pre.length op) = ⟨level0, pre⟩ := by
      rw [TableDir.apply, List.modify_eq_self (le_refl _)]
    rw [hsame]
    exact ih

theorem exists_cleanOps {cleaned : List FileOp} {i n : Nat}
    (h : cleaned ⊆ [.inDir i (.unlinkIndexTmp n), .inDir i (.unlinkDataTmp n)]) :
    ∃ ops ⊆ cleanOps n, cleaned = ops.map (.inDir i) := by
  induction cleaned with
  | nil => exact ⟨[], List.nil_subset _, rfl⟩
  | cons op cleaned ih =>
    obtain ⟨hop, hrest⟩ := List.cons_subset.mp h
    obtain ⟨ops, hops, rfl⟩ := ih hrest
    rcases List.mem_cons.mp hop with rfl | hop
    · exact ⟨_ :: ops, List.cons_subset.mpr ⟨List.mem_cons_self, hops⟩, rfl⟩
    · rw [List.mem_singleton.mp hop]
      exact ⟨_ :: ops, List.cons_subset.mpr
        ⟨List.mem_cons_of_mem _ (List.mem_singleton_self _), hops⟩, rfl⟩

/-- An installation that stops before its end. -/
theorem stopped_install (hpost : makeDirs post = dir :: rest) (segment : Segment) {done : Nat}
    (hdone : done < 5) {cleaned : List FileOp}
    (hcleaned : cleaned ⊆ TableDir.cleanups ⟨level0, pre ++ post⟩ pre.length) :
    ∃ post', TableDir.run ⟨level0, pre ++ post⟩
        ((TableDir.install ⟨level0, pre ++ post⟩ pre.length segment).take done ++ cleaned) =
        ⟨level0, pre ++ post'⟩ ∧
      (post' = post ∨ ∃ dir', post' = dir' :: rest ∧ dir'.segments = dir.segments ∧
        (dir.Near → dir'.Near)) := by
  rw [TableDir.cleanups, nextNumber_eq hpost] at hcleaned
  obtain ⟨ops, hops, rfl⟩ := exists_cleanOps hcleaned
  have hrun : ∀ d ds, TableDir.run ⟨level0, pre ++ d :: ds⟩ (ops.map (.inDir pre.length)) =
      ⟨level0, pre ++ ops.foldl LevelDir.apply d :: ds⟩ := fun d ds => run_inDir ops
  rw [run_append]
  cases done with
  | zero =>
    cases post with
    | nil =>
      refine ⟨[], ?_, .inl rfl⟩
      simp only [List.append_nil]
      exact run_nowhere
    | cons d ds =>
      cases hpost
      exact ⟨_, hrun dir rest, .inr ⟨_, rfl, near_partly segment (show 0 < 4 by omega) hops⟩⟩
  | succ done =>
    rw [install_run hpost, hrun, ← List.foldl_append]
    exact ⟨_, rfl, .inr ⟨_, rfl, near_partly segment (by omega) hops⟩⟩

theorem run_unlinkFiles (levels : List LevelDir) (keys : List Bytes) :
    ∃ left : Dict Bytes Bytes,
      TableDir.run ⟨level0, levels⟩ (keys.map .unlinkFile) = ⟨left, levels⟩ ∧
        ∀ key, left.get? key = if key ∈ keys then none else level0.get? key := by
  induction keys generalizing level0 with
  | nil => exact ⟨level0, rfl, fun key => by simp⟩
  | cons k keys ih =>
    obtain ⟨left, hrun, hleft⟩ := @ih (level0.erase k)
    refine ⟨left, hrun, fun key => ?_⟩
    rw [hleft, Dict.get?_erase]
    by_cases hk : key = k <;> by_cases hkey : key ∈ keys <;> simp [hk, hkey]

end Files

section Sizes

variable {dir : LevelDir}

theorem sum_pairs {ν : Type} (d : Dict Nat ν) (f : ν → Nat) :
    (d.pairs.map fun p => f p.2).sum = ∑ n ∈ d.keys.toFinset, ((d.get? n).map f).getD 0 := by
  have hnodup : d.keys.Nodup := d.nodup
  rw [List.sum_toFinset _ hnodup, Dict.keys, List.map_map]
  refine congrArg List.sum (List.map_congr_left fun p hp => ?_)
  rw [Function.comp_apply, Dict.get?_eq_some.mpr hp]
  rfl

/-- What the data files of the segments take. -/
theorem sum_segments (dir : LevelDir) :
    (dir.index.pairs.map fun p => ((dir.data.get? p.1).getD []).length).sum =
      ∑ n ∈ dir.index.keys.toFinset, ((dir.data.get? n).map List.length).getD 0 := by
  have hnodup : dir.index.keys.Nodup := dir.index.nodup
  rw [List.sum_toFinset _ hnodup, Dict.keys, List.map_map]
  refine congrArg List.sum (List.map_congr_left fun p _ => ?_)
  rw [Function.comp_apply]
  cases dir.data.get? p.1 <;> rfl

theorem levelSize_segments (dir : LevelDir) :
    levelSize dir.segments = LevelDir.indexSize dir.index +
      (dir.index.pairs.map fun p => ((dir.data.get? p.1).getD []).length).sum := by
  rw [levelSize, LevelDir.segments, List.map_map, LevelDir.indexSize, ← List.sum_map_add]
  rfl

theorem levelSize_le_size (dir : LevelDir) : levelSize dir.segments ≤ dir.size := by
  have hdata : (dir.index.pairs.map fun p => ((dir.data.get? p.1).getD []).length).sum ≤
      LevelDir.dataSize dir.data := by
    rw [sum_segments, LevelDir.dataSize, sum_pairs dir.data List.length]
    refine Finset.sum_le_sum_of_ne_zero fun n _ hn => ?_
    rw [List.mem_toFinset]
    by_contra hmem
    rw [Dict.get?_eq_none.mpr hmem] at hn
    exact hn rfl
  rw [levelSize_segments, LevelDir.size]
  omega

/-- Where every file belongs to a segment, the files take what the segments take. -/
theorem LevelDir.Tidy.size_le (h : dir.Tidy) : dir.size ≤ levelSize dir.segments := by
  have hempty : ∀ {ν : Type} {d : Dict Nat ν}, (∀ m, d.get? m = none) → d.pairs = [] := by
    intro ν d hd
    refine List.eq_nil_iff_forall_not_mem.mpr fun p hp => ?_
    have hp' := Dict.get?_eq_some.mpr hp
    rw [hd] at hp'
    cases hp'
  have hindexTmp : dir.indexTmp.pairs = [] :=
    hempty fun m => by_contra fun hm => h m (.inl hm)
  have hdataTmp : dir.dataTmp.pairs = [] :=
    hempty fun m => by_contra fun hm => h m (.inr (.inl hm))
  have hdata : LevelDir.dataSize dir.data ≤
      (dir.index.pairs.map fun p => ((dir.data.get? p.1).getD []).length).sum := by
    rw [sum_segments, LevelDir.dataSize, sum_pairs dir.data List.length]
    refine Finset.sum_le_sum_of_ne_zero fun n hn _ => ?_
    rw [List.mem_toFinset] at hn ⊢
    by_contra hmem
    exact h n (.inr (.inr ⟨mt Dict.get?_eq_none.mp (not_not.mpr hn), Dict.get?_eq_none.mpr hmem⟩))
  rw [levelSize_segments, LevelDir.size]
  simp only [LevelDir.indexSize, LevelDir.dataSize, hindexTmp, hdataTmp, List.map_nil,
    List.sum_nil] at hdata ⊢
  omega

end Sizes

section Levels

variable {base : Int} {dir dir' next : LevelDir} {pre post rest : List LevelDir}

/-- Every file of a directory belongs to a segment, or is allowed to be stale, as in every directory
that comes after one that is due to be merged into it. -/
def TidyOrDue (base : Int) : Nat → Prop → List LevelDir → Prop
  | _, _, [] => True
  | n, stale, dir :: dirs => (dir.Tidy ∨ stale) ∧
      TidyOrDue base (n + 1) (levelLimit base n < levelSize dir.segments) dirs

theorem TidyOrDue.imp {n : Nat} {stale stale' : Prop} {dirs : List LevelDir} (h : TidyOrDue base n stale dirs)
    (himp : stale → stale') : TidyOrDue base n stale' dirs := by
  cases dirs with
  | nil => exact trivial
  | cons dir dirs => exact ⟨h.1.imp_right himp, h.2⟩

theorem TidyOrDue.append {n : Nat} {stale : Prop} (h : TidyOrDue base n stale (pre ++ post))
    (hpost : ∀ stale, TidyOrDue base (n + pre.length) stale post →
      TidyOrDue base (n + pre.length) stale rest) : TidyOrDue base n stale (pre ++ rest) := by
  induction pre generalizing n stale with
  | nil => exact hpost _ h
  | cons dir pre ih =>
    have hlength : n + 1 + pre.length = n + (dir :: pre).length := by
      rw [List.length_cons]
      omega
    refine ⟨h.1, ih h.2 fun stale' h' => ?_⟩
    rw [hlength] at h' ⊢
    exact hpost _ h'

theorem TidyOrDue.tidy {n : Nat} {stale : Prop} (h : TidyOrDue base n stale (pre ++ next :: dir :: post))
    (hsize : levelSize next.segments ≤ levelLimit base (n + pre.length)) : dir.Tidy := by
  induction pre generalizing n stale with
  | nil => exact h.2.1.resolve_right (not_lt.mpr hsize)
  | cons d pre ih =>
    refine ih h.2 ?_
    rwa [List.length_cons, Nat.add_comm pre.length 1, ← Nat.add_assoc] at hsize

/-- A directory that takes in a segment, or a part of its files. -/
theorem TidyOrDue.makeDirs {n : Nat} {stale stale' : Prop} (h : TidyOrDue base n stale post)
    (hpost : makeDirs post = dir :: rest) (hdir : dir'.Tidy ∨ stale')
    (hsize : levelSize dir.segments ≤ levelSize dir'.segments) :
    TidyOrDue base n stale' (dir' :: rest) := by
  refine ⟨hdir, ?_⟩
  cases post with
  | nil =>
    cases hpost
    trivial
  | cons d ds =>
    cases hpost
    refine h.2.imp fun hlt => ?_
    omega

/-- A directory whose segments are whole and whose stale files do no harm. -/
structure LevelDir.Good (dir : LevelDir) : Prop where
  sound : dir.segments.Sound
  full : ∀ s ∈ dir.segments, s.2.index ≠ []
  near : dir.Near

theorem good_empty : LevelDir.empty.Good :=
  ⟨sound_nil, fun _ h => absurd h List.not_mem_nil, tidy_empty.near⟩

theorem good_makeDirs (h : ∀ d ∈ post, d.Good) (hpost : makeDirs post = dir :: rest) :
    dir.Good ∧ ∀ d ∈ rest, d.Good := by
  cases post with
  | nil =>
    cases hpost
    exact ⟨good_empty, fun _ h => absurd h List.not_mem_nil⟩
  | cons d ds =>
    cases hpost
    exact List.forall_mem_cons.mp h

/-- What the directories have for a key. -/
def newestIn (dirs : List LevelDir) (key : Bytes) : Option Bytes :=
  newestAmong (dirs.map LevelDir.segments) key

theorem newestIn_cons (dir : LevelDir) (dirs : List LevelDir) (key : Bytes) :
    newestIn (dir :: dirs) key = (dir.segments.newest key).or (newestIn dirs key) :=
  newestAmong_cons _ _ key

theorem newestIn_append (pre post : List LevelDir) (key : Bytes) :
    newestIn (pre ++ post) key = (newestIn pre key).or (newestIn post key) := by
  rw [newestIn, List.map_append, newestAmong, List.findSome?_append]
  rfl

theorem newestIn_makeDirs (hpost : makeDirs post = dir :: rest) (key : Bytes) :
    newestIn (dir :: rest) key = newestIn post key := by
  cases post with
  | nil =>
    cases hpost
    rw [newestIn_cons]
    rw [show LevelDir.empty.segments = [] from rfl, newest_nil, Option.none_or]
  | cons d ds =>
    cases hpost
    rfl

/-- A level without some of its older segments, of those that differ, has nothing for a key or has
what it had. -/
theorem newest_filter {level : Level} (h : level.Sound) {kept : Nat × Segment → Bool} {key : Bytes}
    (hkept : ∀ a ∈ level, ∀ b ∈ level, a.1 < b.1 → ∀ v w, a.2.read key = some v →
      b.2.read key = some w → v ≠ w → kept a = true → kept b = true) :
    Level.newest (level.filter kept) key = none ∨
      Level.newest (level.filter kept) key = level.newest key := by
  have hfirst : ∀ l : Level, l ⊆ level → NewestFirst (fun s => s.2.read key) l →
      (l.filter kept).findSome? (fun s => s.2.read key) = none ∨
        (l.filter kept).findSome? (fun s => s.2.read key) = l.findSome? fun s => s.2.read key := by
    intro l
    induction l with
    | nil => exact fun _ _ => .inl rfl
    | cons a l ih =>
      intro hsub hnewest
      obtain ⟨ha, hl⟩ := List.cons_subset.mp hsub
      obtain ⟨hhead, htail⟩ := List.pairwise_cons.mp hnewest
      rw [List.findSome?_cons]
      rcases hread : a.2.read key with - | v
      · have hskip : ((a :: l).filter kept).findSome? (fun s => s.2.read key) =
            (l.filter kept).findSome? fun s => s.2.read key := by
          by_cases hka : kept a = true
          · rw [List.filter_cons_of_pos hka, List.findSome?_cons, hread]
          · rw [List.filter_cons_of_neg hka]
        rw [hskip]
        exact ih hl htail
      · by_cases hka : kept a = true
        · refine .inr ?_
          rw [List.filter_cons_of_pos hka, List.findSome?_cons, hread]
        · rw [List.filter_cons_of_neg hka]
          rcases hw : (l.filter kept).findSome? (fun s => s.2.read key) with - | w
          · exact .inl hw
          obtain ⟨b, hb, hbw⟩ := List.exists_of_findSome?_eq_some hw
          obtain ⟨hbl, hkb⟩ := List.mem_filter.mp hb
          refine .inr (hw.trans (congrArg some ?_))
          by_contra hne
          have hlt := hhead b hbl v w hread hbw (Ne.symm hne)
          exact hka (hkept b (hl hbl) a ha hlt w v hbw hread hne hkb)
  have hbyNumber : ((byNumber level).filter kept).Perm (byNumber (level.filter kept)) :=
    ((byNumber_perm level).filter kept).trans (byNumber_perm _).symm
  have hnumbers : ((level.filter kept).map Prod.fst).Nodup :=
    h.numbers.sublist (List.filter_sublist.map _)
  have hsame : Level.newest (level.filter kept) key =
      ((byNumber level).filter kept).findSome? fun s => s.2.read key := by
    refine (findSome?_newest hbyNumber (newestFirst_byNumber _ hnumbers) ?_).symm
    exact (newestFirst_byNumber _ h.numbers).filter _
  rw [hsame]
  exact hfirst _ (byNumber_perm level).subset (newestFirst_byNumber _ h.numbers)

end Levels

section Segments

variable {listing : Level} {segment : Segment}

theorem index_ne_nil_of_write {rows : List (Bytes × Bytes)} (hrows : rows ≠ [])
    (h : writeSegment rows = some segment) : segment.index ≠ [] := by
  rw [writeSegment] at h
  split at h
  · cases h
    intro hnil
    have hkeys := map_fst_spans 0 rows
    rw [show spans 0 rows = [] from hnil] at hkeys
    exact hrows (List.map_eq_nil_iff.mp hkeys.symm)
  · cases h

theorem sortRows_ne_nil {ν : Type} {rows : List (Bytes × ν)} (h : rows ≠ []) :
    sortRows rows ≠ [] := by
  intro hnil
  have hperm := sortRows_perm rows
  rw [hnil] at hperm
  exact h hperm.nil_eq.symm

theorem index_ne_nil_of_collate {files : List (Bytes × Bytes)}
    (h : collateExprs files = some segment) : segment.index ≠ [] := by
  rw [collateExprs] at h
  split at h
  · cases h
  · rename_i hfiles
    exact index_ne_nil_of_write (sortRows_ne_nil (not_or.mp hfiles).1) h

theorem index_ne_nil_of_merge (h : mergeExprs listing = some segment) : segment.index ≠ [] := by
  rw [mergeExprs] at h
  split at h
  · cases h
  · rename_i hpairs
    obtain ⟨rows, hrows, hwrite⟩ := Option.bind_eq_some_iff.mp h
    have hkeys := (lookupPair_mapM (fun row => readChunk listing row.2) hrows).1
    refine index_ne_nil_of_write (fun hnil => ?_) hwrite
    rw [hnil] at hkeys
    exact sortRows_ne_nil hpairs (List.map_eq_nil_iff.mp hkeys.symm)

theorem exists_mapM {α β : Type} {f : α → Option β} {l : List α} (h : ∀ a ∈ l, ∃ b, f a = some b) :
    ∃ bs, l.mapM f = some bs := by
  induction l with
  | nil => exact ⟨[], rfl⟩
  | cons a l ih =>
    obtain ⟨⟨b, hb⟩, hl⟩ := List.forall_mem_cons.mp h
    obtain ⟨bs, hbs⟩ := ih hl
    exact ⟨b :: bs, by rw [List.mapM_cons, hb, hbs]; rfl⟩

/-- Segments that are whole can be merged. -/
theorem merge_writes (h : listing.Sound) (hfull : ∀ s ∈ listing, s.2.index ≠ [])
    (hlisting : listing ≠ []) : ∃ rows, mergeExprs listing = writeSegment rows := by
  have hpairs : (mergedIndex listing).pairs ≠ [] := by
    obtain ⟨s, hs⟩ := List.exists_mem_of_ne_nil listing hlisting
    obtain ⟨row, hrow⟩ := List.exists_mem_of_ne_nil _ (hfull s hs)
    have hget := get?_mergedIndex h.ordered row.1
    intro hnil
    have hnone : (mergedIndex listing).get? row.1 = none := by
      rw [Dict.get?, hnil]
      rfl
    rw [hnone] at hget
    have hmiss := List.findSome?_eq_none_iff.mp hget.symm s (List.mem_reverse.mpr hs)
    refine lookupPair_eq_none.mp (Option.map_eq_none_iff.mp hmiss) ?_
    exact List.mem_map.mpr ⟨row, hrow, rfl⟩
  have hchunks : ∀ row ∈ sortRows (mergedIndex listing).pairs,
      ∃ entry, (readChunk listing row.2).map (fun chunk => (row.1, chunk)) = some entry := by
    intro row hrow
    have hget := Dict.get?_eq_some.mpr ((sortRows_perm _).mem_iff.mp hrow)
    rw [get?_mergedIndex h.ordered] at hget
    obtain ⟨s, hs, hfound⟩ := List.exists_of_findSome?_eq_some hget
    obtain ⟨span, hspan, hrow'⟩ := Option.map_eq_some_iff.mp hfound
    have hs' := List.mem_reverse.mp hs
    obtain ⟨rows', hrows'⟩ := h.ordered s hs'
    obtain ⟨data, hdata, -⟩ := hrows'.isSome_slice hspan
    refine ⟨(row.1, data), ?_⟩
    rw [← hrow', readChunk, lookupPair_of_mem h.numbers hs', Option.bind_some, hdata]
    rfl
  obtain ⟨rows, hrows⟩ := exists_mapM hchunks
  refine ⟨rows, ?_⟩
  rw [mergeExprs, if_neg hpairs, hrows]
  rfl

end Segments

section Runs

variable {base : Int} {place place' : Option Nat} {t t' : TableDir}
  {puts : List (Bytes × Bytes)}

/-- Between any two steps a table has what was put last under every key, in segments that are whole,
and stale files only where the next put replaces them before it looks there. -/
structure Intact (base : Int) (place : Option Nat) (t : TableDir) (puts : List (Bytes × Bytes)) :
    Prop where
  good : ∀ dir ∈ t.levels, dir.Good
  keys : ∀ key data, t.level0.get? key = some data → key.length = 32
  newest : ∀ key, (t.level0.get? key).or (newestIn t.levels key) = lookupPair key puts
  kept : TidyOrDue base 1 (place = none) t.levels
  passed : ∀ i dir, place = some (i + 1) → t.levels[i]? = some dir →
    levelSize dir.segments ≤ levelLimit base (i + 1)

theorem intact_start : Intact base none TableDir.empty [] where
  good := fun _ h => absurd h List.not_mem_nil
  keys := fun _ _ h => by cases h
  newest := fun _ => rfl
  kept := trivial
  passed := fun _ _ h => by cases h

theorem Intact.put (h : Intact base none t puts) {key data : Bytes} (hkey : key.length = 32) :
    Intact base none { t with level0 := t.level0.insert key data } ((key, data) :: puts) where
  good := h.good
  keys := by
    intro key' data' hdata
    rw [Dict.get?_insert] at hdata
    split at hdata
    · rename_i heq
      rwa [← heq]
    · exact h.keys key' data' hdata
  newest := by
    intro key'
    rw [Dict.get?_insert, lookupPair]
    by_cases heq : key = key'
    · rw [if_pos heq, if_pos heq]
      rfl
    · rw [if_neg heq, if_neg heq, h.newest]
  kept := h.kept
  passed := fun _ _ h => by cases h

/-- An installation that stops leaves the table as it was. -/
theorem Intact.stoppedInstall {level0 : Dict Bytes Bytes} {pre post rest post' : List LevelDir}
    {dir : LevelDir} (h : Intact base place ⟨level0, pre ++ post⟩ puts)
    (hpost : makeDirs post = dir :: rest)
    (hpost' : post' = post ∨ ∃ dir', post' = dir' :: rest ∧ dir'.segments = dir.segments ∧
      (dir.Near → dir'.Near))
    (hkept : TidyOrDue base 1 ((none : Option Nat) = none) (pre ++ post')) :
    Intact base none ⟨level0, pre ++ post'⟩ puts := by
  rcases hpost' with rfl | ⟨dir', rfl, hsegments, hnear⟩
  · exact ⟨h.good, h.keys, h.newest, hkept, fun _ _ h => by cases h⟩
  obtain ⟨hpre, hgood⟩ := List.forall_mem_append.mp h.good
  obtain ⟨hdir, hrest⟩ := good_makeDirs hgood hpost
  refine ⟨?_, h.keys, fun key => ?_, hkept, fun _ _ h => by cases h⟩
  · refine List.forall_mem_append.mpr ⟨hpre, List.forall_mem_cons.mpr ⟨⟨?_, ?_, ?_⟩, hrest⟩⟩
    · rw [hsegments]
      exact hdir.sound
    · rw [hsegments]
      exact hdir.full
    · exact hnear hdir.near
  · have hsame : newestIn (dir' :: rest) key = newestIn post key := by
      rw [newestIn_cons, hsegments, ← newestIn_cons, newestIn_makeDirs hpost]
    rw [← h.newest, newestIn_append, hsame, newestIn_append]

theorem exists_makeDirs (post : List LevelDir) : ∃ dir rest, makeDirs post = dir :: rest := by
  cases post with
  | nil => exact ⟨_, _, rfl⟩
  | cons dir rest => exact ⟨dir, rest, rfl⟩

theorem exists_split {α : Type} {l : List α} {i : Nat} {a : α} (h : l[i]? = some a) :
    ∃ pre post, l = pre ++ a :: post ∧ pre.length = i := by
  induction l generalizing i with
  | nil => cases h
  | cons b l ih =>
    cases i with
    | zero =>
      cases h
      exact ⟨[], l, rfl, rfl⟩
    | succ i =>
      obtain ⟨pre, post, rfl, rfl⟩ := ih h
      exact ⟨b :: pre, post, rfl, rfl⟩

theorem Intact.collating (h : Intact base none t puts) (segment : Segment) {done : Nat}
    (hdone : done < 5) {cleaned : List FileOp} (hcleaned : cleaned ⊆ t.cleanups 0) :
    Intact base none (t.run ((t.install 0 segment).take done ++ cleaned)) puts := by
  obtain ⟨level0, levels⟩ := t
  obtain ⟨dir, rest, hlevels⟩ := exists_makeDirs levels
  obtain ⟨post', hrun, hpost'⟩ :=
    @stopped_install [] _ _ _ level0 hlevels segment _ hdone _ hcleaned
  have hkept : TidyOrDue base 1 ((none : Option Nat) = none) ([] ++ post') := by
    rcases hpost' with rfl | ⟨dir', rfl, hsegments, -⟩
    · exact h.kept
    · exact h.kept.makeDirs hlevels (.inr rfl) (by rw [hsegments])
  have hintact : Intact base none ⟨level0, [] ++ levels⟩ puts := h
  have hstopped := hintact.stoppedInstall hlevels hpost' hkept
  rw [← hrun] at hstopped
  exact hstopped

/-- The directory that a put looks at has no stale files. -/
theorem Intact.tidy {i : Nat} {dir : LevelDir} (h : Intact base (some i) t puts)
    (hdir : t.levels[i]? = some dir) : dir.Tidy := by
  obtain ⟨pre, post, hlevels, hi⟩ := exists_split hdir
  have hkept := h.kept
  rw [hlevels] at hkept
  rcases List.eq_nil_or_concat pre with rfl | ⟨pre, next, rfl⟩
  · exact hkept.1.resolve_right (fun heq => by cases heq)
  · rw [List.concat_eq_append, List.length_append] at hi
    rw [List.concat_eq_append] at hlevels hkept
    have hnext : t.levels[pre.length]? = some next := by
      rw [hlevels]
      simp
    have hsize := h.passed pre.length next (by rw [← hi]; rfl) hnext
    rw [List.append_assoc] at hkept
    exact hkept.tidy (by rwa [Nat.add_comm])

theorem Intact.merging {i : Nat} {dir : LevelDir} (h : Intact base (some i) t puts)
    (hdir : t.levels[i]? = some dir) (hsize : levelLimit base (i + 1) < dir.size)
    (segment : Segment) {done : Nat} (hdone : done < 5) {cleaned : List FileOp}
    (hcleaned : cleaned ⊆ t.cleanups (i + 1)) :
    Intact base none (t.run ((t.install (i + 1) segment).take done ++ cleaned)) puts := by
  have hdue : levelLimit base (i + 1) < levelSize dir.segments := by
    have hle := (h.tidy hdir).size_le
    omega
  obtain ⟨pre, post, hlevels, rfl⟩ := exists_split hdir
  obtain ⟨level0, levels⟩ := t
  obtain rfl : levels = pre ++ dir :: post := hlevels
  obtain ⟨d, rest, hpost⟩ := exists_makeDirs post
  have hlength : (pre ++ [dir]).length = pre.length + 1 := List.length_append
  have hsplit : ∀ l, pre ++ dir :: l = (pre ++ [dir]) ++ l := fun l => by simp
  rw [hsplit, ← hlength] at hcleaned
  obtain ⟨post', hrun, hpost'⟩ := stopped_install hpost segment hdone hcleaned
  have hkept : TidyOrDue base 1 (some pre.length = none) (pre ++ dir :: post') := by
    refine h.kept.append fun stale h' => ⟨h'.1, ?_⟩
    rcases hpost' with rfl | ⟨dir', rfl, hsegments, -⟩
    · exact h'.2
    · exact h'.2.makeDirs hpost (.inr (by rwa [Nat.add_comm 1])) (by rw [hsegments])
  rw [hsplit] at hkept
  have hintact : Intact base (some pre.length) ⟨level0, (pre ++ [dir]) ++ post⟩ puts := by
    rwa [← hsplit]
  have hstopped := hintact.stoppedInstall hpost hpost' (hkept.imp fun _ => rfl)
  rw [← hrun, ← hsplit, hlength] at hstopped
  exact hstopped

/-- A segment that was put in place. -/
theorem LevelDir.Good.installed {dir : LevelDir} (h : dir.Good) {segment : Segment}
    (hordered : segment.Ordered) (hindex : segment.index ≠ []) :
    let dir' := (installOps (nextCollatedNumber dir.segments) segment).foldl LevelDir.apply dir
    dir'.Good ∧ dir'.Tidy ∧ levelSize dir.segments ≤ levelSize dir'.segments ∧
      ∀ key, dir'.segments.newest key = (segment.read key).or (dir.segments.newest key) := by
  have hsegments := segments_installed segment (next_free dir)
  have htidy := tidy_installed segment h.near
  refine ⟨⟨?_, ?_, htidy.near⟩, htidy, ?_, fun key => ?_⟩
  · rw [hsegments]
    exact h.sound.append hordered
  · rw [hsegments]
    refine List.forall_mem_append.mpr ⟨h.full, fun s hs => ?_⟩
    rw [List.mem_singleton.mp hs]
    exact hindex
  · rw [hsegments, levelSize, levelSize, List.map_append, List.sum_append]
    exact Nat.le_add_right _ _
  · rw [hsegments]
    exact h.sound.newest_append key

theorem Intact.collated (h : Intact base none t puts) {files : List (Bytes × Bytes)}
    {segment : Segment} (hfiles : files.Perm t.level0.pairs)
    (hcollate : collateExprs files = some segment) {keys : List Bytes}
    (hplace : ∀ i, place' ≠ some (i + 1)) :
    Intact base place' (t.run (t.install 0 segment ++ keys.map .unlinkFile)) puts := by
  obtain ⟨level0, levels⟩ := t
  obtain ⟨dir, rest, hlevels⟩ := exists_makeDirs levels
  obtain ⟨hordered, hread⟩ := collateExprs_spec hfiles hcollate
  obtain ⟨hdir, hrest⟩ := good_makeDirs h.good hlevels
  obtain ⟨hgood, htidy, hsize, hnewest⟩ :=
    hdir.installed hordered (index_ne_nil_of_collate hcollate)
  have hinstall := @install_all [] _ _ _ level0 hlevels segment
  obtain ⟨left, hrun, hleft⟩ := @run_unlinkFiles level0
    ((installOps (nextCollatedNumber dir.segments) segment).foldl LevelDir.apply dir :: rest) keys
  have hresult : TableDir.run ⟨level0, levels⟩
      (TableDir.install ⟨level0, levels⟩ 0 segment ++ keys.map .unlinkFile) =
      ⟨left, (installOps (nextCollatedNumber dir.segments) segment).foldl LevelDir.apply dir ::
        rest⟩ := by
    rw [run_append]
    exact (congrArg (TableDir.run · _) hinstall).trans hrun
  rw [hresult]
  refine ⟨List.forall_mem_cons.mpr ⟨hgood, hrest⟩, fun key data hdata => ?_, fun key => ?_,
    h.kept.makeDirs hlevels (.inl htidy) hsize, fun i _ hi => absurd hi (hplace i)⟩
  · refine h.keys key data ?_
    change left.get? key = some data at hdata
    rw [hleft] at hdata
    split at hdata
    · cases hdata
    · exact hdata
  · have hold := h.newest key
    rw [← newestIn_makeDirs hlevels, newestIn_cons] at hold
    rw [hleft, newestIn_cons, hnewest, hread, ← hold]
    change _ = (level0.get? key).or _
    by_cases hkey : key ∈ keys
    · rw [if_pos hkey, Option.none_or, Option.or_assoc]
    · rw [if_neg hkey]
      cases level0.get? key <;> rfl

/-- A merge of a directory without stale files that stopped in its unlinks, or went on. -/
theorem Intact.unlinked {level0 : Dict Bytes Bytes} {pre post : List LevelDir} {dir : LevelDir}
    (h : Intact base (some pre.length) ⟨level0, pre ++ dir :: post⟩ puts) (htidy : dir.Tidy)
    {listing : Level} {segment : Segment} (hlisting : listing.Perm dir.segments)
    (hlast : NewestLast listing) (hmerge : mergeExprs listing = some segment) {gone : List DirOp}
    (hunlinks : ∀ op ∈ gone, op.isUnlink = true) (hsafe : SafelyGone listing gone)
    (hbase : 0 < base)
    (hplace : place' = none ∨ place' = some (pre.length + 1) ∧
      ∀ s ∈ dir.segments, .unlinkIndex s.1 ∈ gone) {d : LevelDir} {rest : List LevelDir}
    (hpost : makeDirs post = d :: rest) :
    Intact base place' ⟨level0, pre ++ gone.foldl LevelDir.apply dir ::
      (installOps (nextCollatedNumber d.segments) segment).foldl LevelDir.apply d :: rest⟩
        puts := by
  obtain ⟨hpre, hafter⟩ := List.forall_mem_append.mp h.good
  obtain ⟨hdir, hposts⟩ := List.forall_mem_cons.mp hafter
  obtain ⟨hd, hrest⟩ := good_makeDirs hposts hpost
  obtain ⟨hordered, hread⟩ := merge_newest hdir.sound hlisting hlast hmerge
  obtain ⟨hgood, htidy', hsize, hnewest⟩ := hd.installed hordered (index_ne_nil_of_merge hmerge)
  have hpaired : ∀ s ∈ dir.segments, .unlinkIndex s.1 ∈ gone ↔ .unlinkData s.1 ∈ gone :=
    fun s hs => hsafe.paired s (hlisting.mem_iff.mpr hs)
  have hsegments := segments_foldl_unlink hunlinks fun s hs => (hpaired s hs).mpr
  have hleft := htidy.unlinked hunlinks hpaired
  have hkept : TidyOrDue base 1 (some pre.length = none) (pre ++ gone.foldl LevelDir.apply dir ::
      (installOps (nextCollatedNumber d.segments) segment).foldl LevelDir.apply d :: rest) := by
    refine h.kept.append fun stale h' => ⟨.inl hleft, ?_⟩
    exact h'.2.makeDirs hpost (.inl htidy') hsize
  refine ⟨?_, h.keys, fun key => ?_, hkept.imp fun hi => (by cases hi), fun i dir' hi hdir' => ?_⟩
  · refine List.forall_mem_append.mpr ⟨hpre, List.forall_mem_cons.mpr ⟨?_,
      List.forall_mem_cons.mpr ⟨hgood, hrest⟩⟩⟩
    refine ⟨?_, ?_, hleft.near⟩
    · rw [hsegments]
      refine ⟨fun s hs => hdir.sound.ordered s (List.mem_of_mem_filter hs), ?_⟩
      exact hdir.sound.numbers.sublist (List.filter_sublist.map _)
    · rw [hsegments]
      exact fun s hs => hdir.full s (List.mem_of_mem_filter hs)
  · have hsame : (gone.foldl LevelDir.apply dir).segments.newest key = none ∨
        (gone.foldl LevelDir.apply dir).segments.newest key = dir.segments.newest key := by
      rw [hsegments]
      refine newest_filter hdir.sound fun a ha b hb hlt v w hv hw hne hka => ?_
      rw [decide_eq_true_eq] at hka ⊢
      exact fun hgb => hka (hsafe.oldest a (hlisting.mem_iff.mpr ha) b (hlisting.mem_iff.mpr hb)
        hlt key v w hv hw hne hgb)
    have hnewer : newestIn (gone.foldl LevelDir.apply dir ::
        (installOps (nextCollatedNumber d.segments) segment).foldl LevelDir.apply d :: rest) key =
          newestIn (dir :: post) key := by
      rw [newestIn_cons, newestIn_cons, newestIn_cons, hnewest, hread, Option.or_assoc,
        ← newestIn_cons, newestIn_makeDirs hpost]
      rcases hsame with hnone | hsame
      · rw [hnone, Option.none_or]
      · rw [hsame]
        cases dir.segments.newest key <;> rfl
    rw [← h.newest, newestIn_append, hnewer, newestIn_append]
  · rcases hplace with hplace | ⟨hplace, hall⟩
    · rw [hplace] at hi
      cases hi
    · obtain rfl : pre.length = i := by
        rw [hplace] at hi
        exact Nat.succ.inj (Option.some.inj hi)
      have hdir'' : gone.foldl LevelDir.apply dir = dir' := by
        simpa using hdir'
      have hnil : dir'.segments = [] := by
        rw [← hdir'', hsegments, List.filter_eq_nil_iff]
        intro s hs hgone
        exact of_decide_eq_true hgone (hall s hs)
      rw [hnil]
      exact mul_nonneg hbase.le (pow_nonneg (by decide) _)

theorem Intact.merged {i : Nat} {dir : LevelDir} (h : Intact base (some i) t puts)
    (hdir : t.levels[i]? = some dir) {listing : Level} {segment : Segment}
    (hlisting : listing.Perm dir.segments) (hlast : NewestLast listing)
    (hmerge : mergeExprs listing = some segment) {gone : List DirOp}
    (hgone : ∀ op ∈ gone, op ∈ dir.unlinks) (hsafe : SafelyGone listing gone) (hbase : 0 < base)
    (hplace : place' = none ∨ place' = some (i + 1) ∧
      ∀ s ∈ dir.segments, .unlinkIndex s.1 ∈ gone) :
    Intact base place' (t.run (t.install (i + 1) segment ++ gone.map (.inDir i))) puts := by
  have htidy := h.tidy hdir
  have hunlinks := fun op hop => isUnlink_of_mem (hgone op hop)
  obtain ⟨pre, post, hlevels, rfl⟩ := exists_split hdir
  obtain ⟨level0, levels⟩ := t
  obtain rfl : levels = pre ++ dir :: post := hlevels
  obtain ⟨d, rest, hpost⟩ := exists_makeDirs post
  have hlength : (pre ++ [dir]).length = pre.length + 1 := List.length_append
  have hsplit : ∀ l, pre ++ dir :: l = (pre ++ [dir]) ++ l := fun l => by simp
  have hunlinked := h.unlinked htidy hlisting hlast hmerge hunlinks hsafe hbase hplace hpost
  have hinstall := @install_all (pre ++ [dir]) post rest d level0 hpost segment
  rw [← hsplit, ← hsplit, hlength] at hinstall
  rwa [run_append, hinstall, run_inDir]

/-- What a step preserves. -/
theorem ColdStep.intact {put : Option (Bytes × Bytes)}
    (hstep : ColdStep base (fun listing gone => NewestLast listing ∧ SafelyGone listing gone)
      place t put place' t') (h : Intact base place t puts) :
    Intact base place' t' (put.toList ++ puts) := by
  cases hstep with
  | put hkey => exact h.put hkey
  | notCollated => exact h.collating ⟨[], []⟩ (show 1 < 5 by omega) (List.nil_subset _)
  | collating _ _ hdone hcleaned => exact h.collating _ hdone hcleaned
  | @unlinkingFiles _ files segment done hfiles hcollate =>
    have hkeys : (TableDir.unlinkFiles files).take done =
        (((sortRows files).take done).map Prod.fst).map FileOp.unlinkFile := by
      rw [TableDir.unlinkFiles, List.map_map, List.map_take]
      rfl
    rw [hkeys]
    exact h.collated hfiles hcollate fun i hi => by cases hi
  | @collated _ files segment hfiles hcollate =>
    have hkeys : TableDir.unlinkFiles files =
        ((sortRows files).map Prod.fst).map FileOp.unlinkFile := by
      rw [TableDir.unlinkFiles, List.map_map]
      rfl
    rw [hkeys]
    exact h.collated hfiles hcollate fun i hi => by cases hi
  | stopped =>
    exact ⟨h.good, h.keys, h.newest, h.kept.imp fun _ => rfl, fun _ _ hi => by cases hi⟩
  | @within _ i dir hdir hbase hsize =>
    refine ⟨h.good, h.keys, h.newest, h.kept.imp fun hi => (by cases hi), fun j dir' hj hdir' => ?_⟩
    obtain rfl : i = j := Nat.succ.inj (Option.some.inj hj)
    obtain rfl : dir = dir' := Option.some.inj (hdir.symm.trans hdir')
    exact (Int.ofNat_le.mpr (levelSize_le_size dir)).trans hsize
  | notMerged hdir hbase hsize =>
    exact h.merging hdir hsize ⟨[], []⟩ (show 1 < 5 by omega) (List.nil_subset _)
  | merging hdir _ hsize _ _ hdone hcleaned => exact h.merging hdir hsize _ hdone hcleaned
  | unlinking hdir hbase _ hlisting hmerge hgone hallowed =>
    exact h.merged hdir hlisting hallowed.1 hmerge (fun _ hop => hgone.subset hop) hallowed.2 hbase
      (.inl rfl)
  | @merged _ i dir listing segment gone hdir hbase _ hlisting hmerge hgone hallowed =>
    refine h.merged hdir hlisting hallowed.1 hmerge (fun _ hop => hgone.subset hop) hallowed.2 hbase
      (.inr ⟨rfl, fun s hs => ?_⟩)
    have hkey : s.1 ∈ dir.index.keys := by
      rw [← map_fst_segments]
      exact List.mem_map.mpr ⟨s, hs, rfl⟩
    refine hgone.mem_iff.mpr ?_
    simp [LevelDir.unlinks, hkey]

theorem ColdRun.intact
    (hrun : ColdRun base (fun listing gone => NewestLast listing ∧ SafelyGone listing gone)
      place t puts) : Intact base place t puts := by
  induction hrun with
  | start => exact intact_start
  | step _ hstep ih => exact hstep.intact ih

theorem Intact.readsBack (h : Intact base place t puts) : ReadsBack t puts := by
  have hsound : ∀ level ∈ t.table.levels, level.Sound := by
    intro level hlevel
    obtain ⟨dir, hdir, rfl⟩ := List.mem_map.mp hlevel
    exact (h.good dir hdir).sound
  refine ⟨fun key => ?_, getExprsFromColdStorage_eq hsound⟩
  rw [getExprFromColdStorage_eq hsound, ← h.newest]
  rfl

theorem Intact.workable (h : Intact base place t puts) : Workable base place t := by
  refine ⟨fun files hfiles hne => ?_, fun i dir hplace hdir hbase hsize listing hlisting => ?_⟩
  · rw [collateExprs, if_neg]
    rintro (hnil | ⟨file, hfile, hlength⟩)
    · exact hne hnil
    · exact hlength (h.keys file.1 file.2 (Dict.get?_eq_some.mpr (hfiles.mem_iff.mp hfile)))
  · subst hplace
    have hgood := h.good dir (List.mem_of_getElem? hdir)
    refine merge_writes (hgood.sound.perm hlisting)
      (fun s hs => hgood.full s (hlisting.mem_iff.mp hs)) fun hnil => ?_
    subst hnil
    have hle := (h.tidy hdir).size_le
    rw [hlisting.nil_eq.symm] at hle
    have hlimit : 0 ≤ levelLimit base (i + 1) := mul_nonneg hbase.le (pow_nonneg (by decide) _)
    have hempty : levelSize [] = 0 := rfl
    omega

/-- Where the merges list, of two segments with different data for a key, the one of the higher
number later, and stop only with unlinks that lose nothing, every key is read as it was put last
after every step and every stop, and the next collation and merge write their segments. -/
theorem stopped_merges_lose_nothing
    (hrun : ColdRun base (fun listing gone => NewestLast listing ∧ SafelyGone listing gone)
      place t puts) : ReadsBack t puts ∧ Workable base place t :=
  ⟨hrun.intact.readsBack, hrun.intact.workable⟩

/-- The encoding of a record. -/
def recordData (b : UInt8) : Bytes := 2 :: List.replicate 40 b

def recordDir (b : UInt8) : LevelDir :=
  ⟨Dict.empty.insert 0 (recordSegment b).index, Dict.empty.insert 0 (recordSegment b).data,
    Dict.empty, Dict.empty⟩

/-- A record is put and collated. -/
theorem collate_record {allowed : Level → List DirOp → Prop} {levels : List LevelDir} {b : UInt8}
    (hrun : ColdRun base allowed none ⟨Dict.empty, levels⟩ puts)
    (hcollate : collateExprs [(recordKey, recordData b)] = some (recordSegment b)) :
    ColdRun base allowed (some 0)
      (TableDir.run ⟨Dict.empty.insert recordKey (recordData b), levels⟩
        (TableDir.install ⟨Dict.empty.insert recordKey (recordData b), levels⟩ 0
          (recordSegment b) ++ [.unlinkFile recordKey])) ((recordKey, recordData b) :: puts) := by
  have hput : ColdRun base allowed none ⟨Dict.empty.insert recordKey (recordData b), levels⟩
      ((recordKey, recordData b) :: puts) := .step hrun (.put (by decide))
  have hfiles : TableDir.unlinkFiles [(recordKey, recordData b)] = [.unlinkFile recordKey] := by
    rw [TableDir.unlinkFiles, sortRows, List.mergeSort_singleton]
    rfl
  rw [← hfiles]
  exact .step hput (.collated (.refl _) hcollate)

/-- A merge of a record that was put twice stops with the older segment gone. -/
theorem stopped_merge_keeps_record :
    ∃ t, ReadsBack t [(recordKey, recordData 2), (recordKey, recordData 1)] ∧
      Workable 40 none t := by
  have hfirst : ColdRun 40 (fun listing gone => NewestLast listing ∧ SafelyGone listing gone)
      (some 0) ⟨Dict.empty, [recordDir 1]⟩ [(recordKey, recordData 1)] :=
    collate_record .start (by decide +kernel)
  have hsecond := collate_record (.step hfirst .stopped) (b := 2) (by decide +kernel)
  have hsafe : SafelyGone [(0, recordSegment 1), (1, recordSegment 2)]
      [.unlinkIndex 0, .unlinkData 0] := by
    refine ⟨fun s hs => ?_, fun a ha b hb hlt key v w _ _ _ hgone => ?_⟩
    · rcases List.mem_cons.mp hs with rfl | hs
      · decide
      · rw [List.mem_singleton.mp hs]
        decide
    · have hb0 : b.1 = 0 := by simpa using hgone
      omega
  have hlast : NewestLast [(0, recordSegment 1), (1, recordSegment 2)] :=
    List.pairwise_pair.mpr fun _ _ _ _ _ _ => by decide
  have hmerge : mergeExprs [(0, recordSegment 1), (1, recordSegment 2)] = some (recordSegment 2) :=
    by decide +kernel
  exact ⟨_, stopped_merges_lose_nothing (.step hsecond (.unlinking rfl (by decide)
    (by decide) (.refl _) hmerge (by decide) ⟨hlast, hsafe⟩))⟩

/-- A record is collated, and the merge that follows unlinks the data of `level_1` first and stops
there: the index that is left hides the segment of `level_2`. -/
theorem stopped_merge_hides_record :
    ∃ t t', ColdRun 1 (fun _ _ => True) (some 0) t [(recordKey, recordData 1)] ∧
      ColdStep 1 (fun _ _ => True) (some 0) t none none t' ∧
      getExprFromColdStorage t.table recordKey = some (recordCell 1) ∧
      getExprFromColdStorage t'.table recordKey = none := by
  have hrun : ColdRun 1 (fun _ _ => True) (some 0) ⟨Dict.empty, [recordDir 1]⟩
      [(recordKey, recordData 1)] := collate_record .start (by decide +kernel)
  have hunlinking : ColdStep 1 (fun _ _ => True) (some 0) ⟨Dict.empty, [recordDir 1]⟩ none none
      (TableDir.run ⟨Dict.empty, [recordDir 1]⟩
        (TableDir.install ⟨Dict.empty, [recordDir 1]⟩ 1 (recordSegment 1) ++
          [DirOp.unlinkData 0].map (.inDir 0))) :=
    .unlinking rfl (by decide) (by decide +kernel) (.refl _) (by decide +kernel)
      (by decide) trivial
  exact ⟨_, _, hrun, hunlinking, by decide +kernel, by decide +kernel⟩

end Runs

end Astreum
