import Astreum.BloomTree
import Astreum.BlockCodec
import Mathlib.Data.List.Dedup

namespace Astreum.Bloom

/-- A block of an era: its hash, and what was inserted in it, with the node or without. -/
structure EraBlock where
  hash : Bytes
  inserts : List (Bool × List Bytes)

def EraBlock.elements (block : EraBlock) : List Bytes := block.inserts.flatMap Prod.snd

/-- Everything that was inserted in an era, with the offset of its block. -/
def logOf (blocks : List EraBlock) : List (Nat × Bytes) :=
  blocks.zipIdx.flatMap fun block => block.1.elements.map (Prod.mk block.2)

/-- The start hashes in the tree of the last block: that of a block is set by the next one. -/
def startsOf (blocks : List EraBlock) (offset : Nat) : Option Bytes :=
  if offset + 1 < blocks.length then blocks[offset]?.map EraBlock.hash else none

def previousHash (blocks : List EraBlock) : Bytes :=
  (blocks.getLast?.map EraBlock.hash).getD zero32

/-- The first blocks of an era, each with its tree built from that of the block before by a node
that holds the cells of the trees before, the cells of all these trees, and the last bloom hash. -/
inductive EraRun (digest blake3 : Bytes → Bytes) : List EraBlock → List Expr → Bytes → Prop
  | start : EraRun digest blake3 [] [] zero32
  | next {blocks : List EraBlock} {written : List Expr} {root : Bytes} {node : Node}
      {block : EraBlock} {tree : Option BloomNode} (hrun : EraRun digest blake3 blocks written root)
      (hnode : Reads blake3 written node) (hlength : blocks.length < 1024)
      (hhash : block.hash.length = 32)
      (htree : buildTree digest node blocks.length root (previousHash blocks) block.inserts =
        .ok tree) :
      EraRun digest blake3 (blocks ++ [block]) (written ++ newExprs blake3 tree)
        (bloomHash blake3 tree)

section Trees

variable {digest blake3 : Bytes → Bytes} {written : List Expr} {node : Node}
  {tree : Option BloomNode} {index index' : Index} {root blockHash : Bytes} {offset : Nat}
  {log : List (Nat × Bytes)} {starts : Nat → Option Bytes} {variants : List Bytes}

def rootSlot : Option BloomNode → BloomSlot
  | none => .absent
  | some n => n.slot

/-- A bloom hash of a header stands for an index. -/
def Stands (blake3 : Bytes → Bytes) (written : List Expr) (root : Bytes) (index : Index) : Prop :=
  root = zero32 ∧ index = .empty ∨ Denotes blake3 written (.unread ⟨root, none⟩) index

theorem loadTree_denotes (hdigest : ∀ x, (blake3 x).length = 32) (hnode : Reads blake3 written node)
    (hroot : Stands blake3 written root index) (hhash : blockHash.length = 32) :
    ∃ tree, loadTree node root blockHash = .ok tree ∧
      Denotes blake3 written (rootSlot tree) index := by
  cases hroot with
  | inl hnone =>
    obtain ⟨rfl, rfl⟩ := hnone
    exact ⟨none, if_pos (.inr rfl), .absent⟩
  | inr hsome =>
    cases hsome with
    | @unread p r left right hkept hsized hleft hright =>
      have hp : Pointer.Sized ⟨root, some blockHash⟩ := by
        refine ⟨hsized.1, fun b hb => ?_⟩
        cases hb
        exact hhash
      have hne : ¬ (root = [] ∨ root = zero32) := by
        rintro (hnil | hzero)
        · exact hkept.ne_nil hdigest hnil
        · exact hkept.ne_zero hnode hzero
      refine ⟨some (BloomNode.read node ⟨root, some blockHash⟩ (r.within (some blockHash))), ?_,
        hkept.denotes_read (p := ⟨root, some blockHash⟩) hnode hp hleft hright⟩
      rw [loadTree, if_neg hne, hkept.read hnode]
      rfl

theorem setLeafStartHash_denotes (hdigest : ∀ x, (blake3 x).length = 32)
    (hnode : Reads blake3 written node) (hhash : blockHash.length = 32)
    (h : Denotes blake3 written (rootSlot tree) index) (offset : Nat) :
    ∃ tree', setLeafStartHash node offset blockHash tree = .ok tree' ∧
      Denotes blake3 written (rootSlot tree') (index.setStart offset blockHash 10 0) ∧
      Opened offset 10 0 (rootSlot tree') := by
  cases tree with
  | none =>
    cases h
    exact ⟨none, rfl, .absent, trivial⟩
  | some n =>
    obtain ⟨n', done, hset, hdenotes, hopen, -⟩ :=
      @setLeaf_denotes _ _ _ _ _ 10 0 offset _ hdigest hnode hhash h
    refine ⟨some n', ?_, hdenotes, hopen⟩
    have hset' : setLeaf node offset blockHash 10 0 1024 n = .ok (n', done) := hset
    rw [setLeafStartHash, hset']
    rfl

theorem insertAt_denotes (reader : Option Node) (h : Denotes blake3 written (rootSlot tree) index)
    (hopen : Opened offset 10 0 (rootSlot tree))
    (hinsert : index.insert digest variants offset 10 0 = .ok index') :
    ∃ tree', insertAt digest reader offset variants tree = .ok tree' ∧
      Denotes blake3 written (rootSlot tree') index' ∧ Opened offset 10 0 (rootSlot tree') := by
  have hwalk : ∀ n : BloomNode, Parts blake3 written n index → Opened offset 10 0 n.slot →
      ∃ tree', (do return some (← walk digest reader variants offset 10 0 1024 n) :
        Py (Option BloomNode)) = .ok tree' ∧ Denotes blake3 written (rootSlot tree') index' ∧
        Opened offset 10 0 (rootSlot tree') := by
    intro n hparts hopened
    obtain ⟨n', hn', hdenotes, hopen'⟩ := walk_denotes reader hparts hopened hinsert
    have hn'' : walk digest reader variants offset 10 0 1024 n = .ok n' := hn'
    refine ⟨some n', ?_, hdenotes, hopen'⟩
    rw [hn'']
    rfl
  cases tree with
  | none =>
    cases h
    exact hwalk {} (parts_fresh _ _) (opened_fresh _ _ _)
  | some n => exact hwalk n h.parts hopen

/-- The inserts of a block never raise, and the index holds their elements. -/
theorem inserts_denote (h : Denotes blake3 written (rootSlot tree) index)
    (hopen : Opened offset 10 0 (rootSlot tree))
    (hcovers : Index.Covers digest log starts (offset + 1) 10 0 index)
    (hoffset : offset < 1024) (hstart : starts offset = none) (inserts : List (Bool × List Bytes)) :
    ∃ tree' index', inserts.foldlM (fun root entry =>
        insertAt digest (if entry.1 then some node else none) offset entry.2 root) tree =
          .ok tree' ∧
      Denotes blake3 written (rootSlot tree') index' ∧
      Index.Covers digest (log ++ (inserts.flatMap Prod.snd).map (Prod.mk offset)) starts
        (offset + 1) 10 0 index' := by
  induction inserts generalizing tree index log with
  | nil =>
    refine ⟨tree, index, rfl, h, ?_⟩
    simpa using hcovers
  | cons entry inserts ih =>
    obtain ⟨index₁, hinsert, hcovers₁⟩ := Index.covers_insert hcovers (Nat.zero_le offset)
      (by simpa using hoffset) (Nat.le_refl _) (Nat.lt_succ_self offset) hstart entry.2
    obtain ⟨tree₁, htree₁, hdenotes₁, hopen₁⟩ :=
      insertAt_denotes (if entry.1 then some node else none) h hopen hinsert
    obtain ⟨tree₂, index₂, htree₂, hdenotes₂, hcovers₂⟩ := ih hdenotes₁ hopen₁ hcovers₁
    refine ⟨tree₂, index₂, ?_, hdenotes₂, ?_⟩
    · rw [List.foldlM_cons, htree₁]
      exact htree₂
    · simpa using hcovers₂

theorem rewriteRoot_denotes (h : Denotes blake3 written (rootSlot tree) index) :
    Denotes blake3 written (rootSlot (rewriteRoot tree)) index := by
  cases tree with
  | none => exact h
  | some n => exact h.rewrite

/-- Once the cells of a tree are written, its bloom hash stands for what the tree does. -/
theorem stands_bloomHash (hdigest : ∀ x, (blake3 x).length = 32)
    (h : Denotes blake3 written (rootSlot tree) index) :
    Stands blake3 (written ++ newExprs blake3 tree) (bloomHash blake3 tree) index := by
  cases tree with
  | none =>
    cases h
    exact .inl ⟨rfl, rfl⟩
  | some n =>
    have hpointer := h.pointer hdigest
    change Denotes blake3 _ (.unread _) index at hpointer
    cases hpointer with
    | unread hkept hsized hleft hright =>
      exact .inr (.unread hkept ⟨hsized.1, fun b hb => by cases hb⟩ hleft hright)

end Trees

section Runs

variable {digest blake3 : Bytes → Bytes} {written : List Expr} {node : Node} {root : Bytes}
  {blocks : List EraBlock} {block : EraBlock} {index : Index}

theorem mem_logOf {k : Nat} {element : Bytes} :
    (k, element) ∈ logOf blocks ↔ ∃ block, blocks[k]? = some block ∧ element ∈ block.elements := by
  simp only [logOf, List.mem_flatMap, List.mem_map, Prod.mk.injEq]
  constructor
  · rintro ⟨⟨block, i⟩, hblock, other, hother, rfl, rfl⟩
    exact ⟨block, (List.mem_zipIdx_iff_getElem?.mp hblock), hother⟩
  · rintro ⟨block, hblock, helement⟩
    exact ⟨(block, k), List.mem_zipIdx_iff_getElem?.mpr hblock, element, helement, rfl, rfl⟩

theorem logOf_append (blocks : List EraBlock) (block : EraBlock) :
    logOf (blocks ++ [block]) = logOf blocks ++ block.elements.map (Prod.mk blocks.length) := by
  simp [logOf, List.zipIdx_append]

/-- The start hashes for the next block: that of the last block is set now. -/
theorem startsOf_append (hne : blocks ≠ []) :
    startsOf (blocks ++ [block]) = Function.update (startsOf blocks) (blocks.length - 1)
      (some (previousHash blocks)) := by
  have hpos : 0 < blocks.length := List.length_pos_iff.mpr hne
  funext offset
  by_cases hlast : offset = blocks.length - 1
  · subst hlast
    rw [Function.update_self, startsOf, if_pos (by rw [List.length_append]; simp; omega),
      List.getElem?_append_left (by omega), previousHash, List.getLast?_eq_getElem?]
    rw [List.getElem?_eq_getElem (by omega)]
    rfl
  · rw [Function.update_of_ne hlast, startsOf, startsOf, List.length_append]
    by_cases hbefore : offset + 1 < blocks.length
    · rw [if_pos hbefore, if_pos (by omega), List.getElem?_append_left (by omega)]
    · rw [if_neg hbefore, if_neg (by simp; omega)]

theorem startsOf_last (blocks : List EraBlock) (block : EraBlock) :
    startsOf (blocks ++ [block]) blocks.length = none := by
  rw [startsOf, if_neg (by simp)]

/-- The tree of the next block is built, and stands for an index that holds its inserts too. -/
theorem buildTree_covers (hdigest : ∀ x, (blake3 x).length = 32)
    (hnode : Reads blake3 written node) (hroot : Stands blake3 written root index)
    (hcovers : Index.Covers digest (logOf blocks) (startsOf blocks) blocks.length 10 0 index)
    (hlength : blocks.length < 1024) (hhash : (previousHash blocks).length = 32)
    (block : EraBlock) :
    ∃ tree index', buildTree digest node blocks.length root (previousHash blocks) block.inserts =
        .ok tree ∧ Denotes blake3 written (rootSlot tree) index' ∧
      Index.Covers digest (logOf (blocks ++ [block])) (startsOf (blocks ++ [block]))
        (blocks.length + 1) 10 0 index' := by
  have hstart := startsOf_last blocks block
  have hopened : ∃ tree index', openTree node blocks.length root (previousHash blocks) = .ok tree ∧
      Denotes blake3 written (rootSlot tree) index' ∧
      Opened blocks.length 10 0 (rootSlot tree) ∧
      Index.Covers digest (logOf blocks) (startsOf (blocks ++ [block])) blocks.length 10 0
        index' := by
    by_cases hfirst : blocks.length = 0
    · have hnil : blocks = [] := List.length_eq_zero_iff.mp hfirst
      subst hnil
      exact ⟨none, .empty, rfl, .absent, trivial, rfl⟩
    · rw [openTree, if_neg hfirst]
      obtain ⟨tree₁, htree₁, hdenotes₁⟩ := loadTree_denotes hdigest hnode hroot hhash
      obtain ⟨tree₂, htree₂, hdenotes₂, hopen₂⟩ :=
        setLeafStartHash_denotes hdigest hnode hhash hdenotes₁ (blocks.length - 1)
      have hset := Index.covers_setStart hcovers (Nat.zero_le (blocks.length - 1))
        (by simp; omega) (previousHash blocks)
      rw [← @startsOf_append blocks block
        (fun hnil => hfirst (List.length_eq_zero_iff.mpr hnil))] at hset
      have hnext : blocks.length - 1 + 1 = blocks.length := by omega
      refine ⟨tree₂, _, ?_, hdenotes₂, ?_, hset⟩
      · rw [htree₁]
        exact htree₂
      · have hbelow := hset
        rw [← hnext] at hbelow ⊢
        exact hdenotes₂.opened_succ hbelow hopen₂ (Nat.zero_le _)
  obtain ⟨tree₁, index₁, htree₁, hdenotes₁, hopen₁, hcovers₁⟩ := hopened
  obtain ⟨tree₂, index₂, htree₂, hdenotes₂, hcovers₂⟩ := @inserts_denote _ _ _ node _ _ _ _ _
    hdenotes₁ hopen₁ (hcovers₁.congr (Nat.le_succ _) (fun _ _ _ _ => rfl) fun _ _ _ => rfl)
    hlength hstart block.inserts
  refine ⟨rewriteRoot tree₂, index₂, ?_, rewriteRoot_denotes hdenotes₂, ?_⟩
  · rw [buildTree, htree₁, py_ok_bind, htree₂]
    rfl
  · rw [logOf_append]
    exact hcovers₂

/-- What holds after every run of an era. -/
theorem EraRun.covers (hdigest : ∀ x, (blake3 x).length = 32)
    (h : EraRun digest blake3 blocks written root) :
    (∃ index, Stands blake3 written root index ∧
      Index.Covers digest (logOf blocks) (startsOf blocks) blocks.length 10 0 index) ∧
      (previousHash blocks).length = 32 ∧ blocks.length ≤ 1024 := by
  induction h with
  | start => exact ⟨⟨.empty, .inl ⟨rfl, rfl⟩, rfl⟩, rfl, Nat.zero_le _⟩
  | @next blocks written root node block tree hrun hnode hlength hhash htree ih =>
    obtain ⟨⟨index, hroot, hcovers⟩, hprevious, -⟩ := ih
    obtain ⟨tree', index', htree', hdenotes, hcovers'⟩ :=
      buildTree_covers hdigest hnode hroot hcovers hlength hprevious block
    rw [htree] at htree'
    cases htree'
    refine ⟨⟨index', stands_bloomHash hdigest hdenotes, ?_⟩, ?_, ?_⟩
    · rw [List.length_append]
      exact hcovers'
    · rw [previousHash, List.getLast?_append]
      exact hhash
    · rw [List.length_append]
      exact hlength

/-- The storage is searched as the index is. -/
theorem bloomSearchLeaves_denotes (hdigest : ∀ x, (blake3 x).length = 32)
    (hnode : Reads blake3 written node) {held : Option Bytes}
    (hheld : ∀ b, held = some b → b.length = 32)
    (h : Denotes blake3 written (.unread ⟨root, none⟩) index) (element : Bytes) :
    (bloomSearchLeaves digest node root element held).map (List.map NodeRecord.parts) =
      (Index.search digest element 10 index).map (List.map Filter.parts) := by
  cases h with
  | @unread p r left right hkept hsized hleft hright =>
    have hsearch := @searchLeaves_denotes _ digest _ _ left right (r.within held) element 10 hdigest
      hnode hkept.sized.start (hleft.within hheld) (hright.within hheld)
    rw [bloomSearchLeaves, hkept.read hnode]
    exact hsearch

/-- What a search of the storage finds, where the index covers the insertions of an era. -/
theorem bloomSearchLeaves_found (hdigest : ∀ x, (blake3 x).length = 32)
    (hnode : Reads blake3 written node) {held : Option Bytes}
    (hheld : ∀ b, held = some b → b.length = 32)
    (h : Denotes blake3 written (.unread ⟨root, none⟩) index) {element : Bytes}
    {leaves : List Filter} (hsearch : Index.search digest element 10 index = .ok leaves) :
    ∃ found, bloomSearchLeaves digest node root element held = .ok found ∧
      found.map NodeRecord.filter = leaves ∧
      ∀ leaf ∈ found, leaf.startHash = leaf.filter.startHash := by
  have hfound := @bloomSearchLeaves_denotes digest _ _ _ _ _ hdigest hnode _ hheld h element
  rw [hsearch] at hfound
  cases hleaves : bloomSearchLeaves digest node root element held with
  | error e =>
    rw [hleaves] at hfound
    cases hfound
  | ok found =>
    rw [hleaves] at hfound
    have hparts : found.map NodeRecord.parts = leaves.map Filter.parts := Except.ok.inj hfound
    have hfirst : found.map NodeRecord.filter = leaves := by
      have hfirst := congrArg (List.map Prod.fst) hparts
      rw [List.map_map, List.map_map] at hfirst
      exact hfirst.trans (List.map_id _)
    refine ⟨found, rfl, hfirst, List.map_inj_left.mp ?_⟩
    have hsecond := congrArg (List.map Prod.snd) hparts
    rw [List.map_map, List.map_map, ← hfirst, List.map_map] at hsecond
    exact hsecond

theorem storageFindLeaf_denotes (hnode : Reads blake3 written node) {held : Option Bytes}
    (hheld : ∀ b, held = some b → b.length = 32)
    (h : Denotes blake3 written (.unread ⟨root, none⟩) index) (offset : Nat) :
    storageFindLeaf node root offset held = .ok (index.startAt offset 10 0) := by
  cases h with
  | @unread p r left right hkept hsized hleft hright =>
    have hfind := @findLeaf_denotes _ _ _ left right (r.within held) 10 0 offset hnode
      hkept.sized.start (hleft.within hheld) (hright.within hheld)
    rw [storageFindLeaf, hkept.read hnode]
    exact hfind

/-- In an era of which a node holds the bloom trees a search of the last one finds every block that
inserted the element: by its hash, or without one if it is the last block. It finds nothing but
blocks of the era, and the tree of a next block can always be built. -/
theorem era_is_searchable (hdigest : ∀ x, (blake3 x).length = 32)
    (hrun : EraRun digest blake3 blocks written root) (hnode : Reads blake3 written node)
    {held : Option Bytes} (hheld : ∀ b, held = some b → b.length = 32) :
    (root = zero32 → ∀ block ∈ blocks, block.elements = []) ∧
    (root ≠ zero32 → ∀ element, ∃ hits,
      bloomSearchStorage digest node root element held = .ok hits ∧
      (∀ k block, blocks[k]? = some block → element ∈ block.elements →
        (if k + 1 < blocks.length then some block.hash else none) ∈ hits) ∧
      ∀ hash, some hash ∈ hits → ∃ block ∈ blocks, block.hash = hash) ∧
    (blocks.length < 1024 → ∀ inserts, ∃ tree,
      buildTree digest node blocks.length root (previousHash blocks) inserts = .ok tree) := by
  obtain ⟨⟨index, hroot, hcovers⟩, hprevious, hsize⟩ := hrun.covers hdigest
  have hbelow : ∀ {k : Nat} {block : EraBlock}, blocks[k]? = some block → k < 0 + 2 ^ 10 := by
    intro k block hblock
    obtain ⟨hk, -⟩ := List.getElem?_eq_some_iff.mp hblock
    exact Nat.lt_of_lt_of_le hk (by simpa using hsize)
  refine ⟨fun hzero => ?_, fun hne element => ?_, fun hlength inserts => ?_⟩
  · have hempty : index = .empty := by
      cases hroot with
      | inl hnone => exact hnone.2
      | inr hsome =>
        cases hsome with
        | unread hkept _ _ _ => exact absurd hzero (hkept.ne_zero hnode)
    rw [hempty] at hcovers
    intro block hblock
    obtain ⟨k, hk⟩ := List.mem_iff_getElem?.mp hblock
    rw [List.eq_nil_iff_forall_not_mem]
    intro element helement
    have hmem := Index.mem_inserted.mpr
      ⟨k, Nat.zero_le k, hbelow hk, mem_logOf.mpr ⟨block, hk, helement⟩⟩
    rw [show Index.inserted (logOf blocks) 0 (0 + 2 ^ 10) = [] from hcovers] at hmem
    cases hmem
  · cases hroot with
    | inl hnone => exact absurd hnone.1 hne
    | inr hsome =>
      obtain ⟨hit, leaves, hsearch, hleaves, hhits⟩ := Index.covers_search hcovers element
      obtain ⟨found, hfound, hfilter, hsame⟩ :=
        bloomSearchLeaves_found hdigest hnode hheld hsome hsearch
      have hstarts : found.map NodeRecord.startHash = leaves.map Filter.startHash := by
        rw [← hfilter, List.map_map]
        exact List.map_congr_left hsame
      refine ⟨found.map NodeRecord.startHash, by rw [bloomSearchStorage, hfound]; rfl,
        fun k block hblock helement => ?_, fun hash hhash => ?_⟩
      · have hk : k ∈ (List.range' 0 (2 ^ 10)).filter hit :=
          List.mem_filter.mpr ⟨List.mem_range'_1.mpr ⟨Nat.zero_le k, hbelow hblock⟩,
            (hhits k (Nat.zero_le k) (hbelow hblock)).1 (mem_logOf.mpr ⟨block, hblock, helement⟩)⟩
        obtain ⟨leaf, hleaf, hat⟩ := Index.exists_leafAt hleaves hk
        have hstart : leaf.startHash = if k + 1 < blocks.length then some block.hash else none := by
          rw [hat.start, startsOf, hblock]
          rfl
        rw [← hstart, hstarts]
        exact List.mem_map_of_mem hleaf
      · rw [hstarts] at hhash
        obtain ⟨leaf, hleaf, hstart⟩ := List.mem_map.mp hhash
        obtain ⟨w, -, hat⟩ := Index.exists_offset hleaves hleaf
        rw [hat.start, startsOf] at hstart
        split at hstart
        · obtain ⟨block, hblock, rfl⟩ := Option.map_eq_some_iff.mp hstart
          exact ⟨block, List.mem_of_getElem? hblock, rfl⟩
        · cases hstart
  · obtain ⟨tree, index', htree, -, -⟩ :=
      buildTree_covers hdigest hnode hroot hcovers hlength hprevious ⟨zero32, inserts⟩
    exact ⟨tree, htree⟩

end Runs

section Samples

/-- Eleven times eight bytes of a digest. -/
def sampleBloomDigest (element : Bytes) : Bytes :=
  (List.range 11).flatMap fun i => (sampleDigest (UInt8.ofNat i :: element)).take 8

/-- The tree of the first block of an era, with one element. -/
def sampleTree : Py (Option BloomNode) :=
  buildTree sampleBloomDigest (sampleNode 40) 0 zero32 zero32 [(false, [[1]])]

def sampleWritten : List Expr :=
  match sampleTree with
  | .ok tree => newExprs sampleDigest tree
  | .error _ => []

def sampleCells : List Expr := (sampleWritten.flatMap Expr.cells).dedup

theorem sampleCells_apart : (sampleCells.map fun c => c.hash sampleDigest).Nodup ∧
    (∀ c ∈ sampleCells, c.hash sampleDigest = zero32 → c = .nil) ∧
    (∀ c ∈ sampleCells, ∀ tag ∈ builtinTypeNames,
      c.hash sampleDigest = terminalHash sampleDigest 1 (utf8 tag) → c = .symbol tag) ∧
    ∀ e ∈ sampleWritten, e.linkDepth < 40 := by
  decide +kernel

theorem sample_era_is_searchable : ∃ root node hits, root ≠ zero32 ∧
    bloomSearchStorage sampleBloomDigest node root [1] none = .ok hits ∧ none ∈ hits := by
  have hdigest : ∀ x, (sampleDigest x).length = 32 := fun x => by simp [sampleDigest]
  have hempty : Reads sampleDigest [] (sampleNode 40) :=
    ⟨rfl, fun e he => absurd he List.not_mem_nil, fun e he => absurd he List.not_mem_nil⟩
  have hnone : Stands sampleDigest [] zero32 .empty := .inl ⟨rfl, rfl⟩
  obtain ⟨tree, index, htree, hdenotes, -⟩ := @buildTree_covers sampleBloomDigest _ _ _ _ [] _
    hdigest hempty hnone rfl (by decide) rfl ⟨zero32, [(false, [[1]])]⟩
  obtain ⟨hnodup, hzero, htype, hdepth⟩ := sampleCells_apart
  have hwritten : sampleWritten = newExprs sampleDigest tree := by
    have hsample : sampleTree = .ok tree := htree
    rw [sampleWritten, hsample]
  have hwritable : ∀ e ∈ sampleWritten, e.Writable := by
    rw [hwritten]
    cases tree with
    | none => exact fun e he => by cases he
    | some n => exact hdenotes.writable hdigest
  have hcells : ∀ c, c ∈ sampleCells ↔ ∃ e ∈ sampleWritten, c ∈ e.cells := fun c => by
    rw [sampleCells, List.mem_dedup, List.mem_flatMap]
  have hapart : DistinctHashes sampleDigest sampleCells :=
    ⟨fun c hc c' hc' h => by rw [List.inj_on_of_nodup_map hnodup hc hc' h], hzero, htype⟩
  have hnode : Reads sampleDigest ([] ++ newExprs sampleDigest tree)
      ((sampleNode 40).storing sampleCells) := by
    rw [List.nil_append, ← hwritten]
    refine ⟨rfl, fun e he => ?_, hdepth⟩
    refine @holds_storing (sampleNode 40) e sampleCells hdigest (fun c hc => ?_) hapart
      fun c hc => (hcells c).mpr ⟨e, he, hc⟩
    obtain ⟨e', he', hc'⟩ := (hcells c).mp hc
    exact Expr.cells_writable e' (hwritable e' he') c hc'
  have hrun := EraRun.next EraRun.start hempty (by decide) rfl htree
  obtain ⟨hzero, hfinds, -⟩ := era_is_searchable hdigest hrun hnode
    (fun (b : Bytes) (hb : none = some b) => by cases hb)
  have hroot : bloomHash sampleDigest tree ≠ zero32 := fun h => by
    have hnil := hzero h _ (List.mem_singleton_self _)
    cases hnil
  obtain ⟨hits, hhits, hfound, -⟩ := hfinds hroot [1]
  exact ⟨_, _, hits, hroot, hhits, hfound 0 _ rfl (List.mem_singleton_self _)⟩

end Samples

end Astreum.Bloom
