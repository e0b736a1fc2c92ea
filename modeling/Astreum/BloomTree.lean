import Astreum.BloomIndex
import Astreum.BloomCells

namespace Astreum.Bloom

/-- A child in memory, or the root: none, known by its hash, or loaded. Of a loaded node `stored`
and `expr` are `_stored` and `_expr`, and it is `touched` when it is in `_touched`. -/
inductive BloomSlot
  | absent
  | unread (p : Pointer)
  | loaded (stored : Option Pointer) (expr : Option Expr) (touched : Bool)
      (startHash : Option Bytes) (filter : Filter) (left right : BloomSlot)

/-- `BloomNode`. Its level is that of its place. -/
structure BloomNode where
  stored : Option Pointer := none
  expr : Option Expr := none
  touched : Bool := false
  startHash : Option Bytes := none
  filter : Filter := {}
  left : BloomSlot := .absent
  right : BloomSlot := .absent

def BloomNode.slot (n : BloomNode) : BloomSlot :=
  .loaded n.stored n.expr n.touched n.startHash n.filter n.left n.right

/-- The node as one that was changed. -/
def BloomNode.touch (n : BloomNode) : BloomNode := { n with expr := none, touched := true }

/-- A child that is known by its hash, if there is one. -/
def slotOf : Option Pointer → BloomSlot
  | none => .absent
  | some p => .unread p

section Writing

variable (blake3 : Bytes → Bytes)

/-- `h` and `block` of `_child_item`. -/
def BloomSlot.pointer : BloomSlot → Option Pointer
  | absent => none
  | unread p => some p
  | loaded stored expr _ startHash filter left right =>
    let written := expr.getD (NodeRecord.toExpr ⟨startHash, left.pointer, right.pointer, filter⟩)
    let id := written.hash blake3
    some ⟨id, match stored with
      | some s => if s.id = id then s.block else none
      | none => none⟩

/-- `expr`. -/
def BloomNode.written (n : BloomNode) : Expr :=
  n.expr.getD (NodeRecord.toExpr
    ⟨n.startHash, n.left.pointer blake3, n.right.pointer blake3, n.filter⟩)

/-- `new_exprs`. -/
def BloomSlot.newExprs : BloomSlot → List Expr
  | loaded stored expr touched startHash filter left right =>
    (if touched then [BloomNode.written blake3
      ⟨stored, expr, touched, startHash, filter, left, right⟩] else []) ++
      left.newExprs ++ right.newExprs
  | _ => []

end Writing

section Walking

variable (digest : Bytes → Bytes) (reader : Option Node) (node : Node)

/-- What `bloom_node_from_expr` makes of the record that it reads under a hash. -/
def BloomNode.read (p : Pointer) (r : NodeRecord) : BloomNode where
  stored := (getExpr node p.id).map fun expr => ⟨expr.hash node.blake3, p.block⟩
  expr := getExpr node p.id
  startHash := r.startHash
  filter := r.filter
  left := slotOf r.left
  right := slotOf r.right

/-- The child that `_walk` goes down to, by `_resolve_child` when it is not loaded. -/
def resolveChild : BloomSlot → Py BloomNode
  | .loaded stored expr touched startHash filter left right =>
    .ok ⟨stored, expr, touched, startHash, filter, left, right⟩
  | .absent => .ok {}
  | .unread p => match reader with
    | none => .ok {}
    | some node =>
      if p.id = [] then .ok {} else do
        match ← readBloomNode node p.block p.id with
        | none => return {}
        | some r => return BloomNode.read node p r

/-- `_walk`, `d` levels over the leaves. -/
def walk (variants : List Bytes) (offset : Nat) : Nat → Nat → Nat → BloomNode → Py BloomNode
  | 0, _, _, n => do
    return { n.touch with filter := ← variants.foldlM (bloomInsert digest) n.filter }
  | d + 1, lo, hi, n => do
    let filter ← variants.foldlM (bloomInsert digest) n.filter
    let mid := (lo + hi) / 2
    if offset < mid then
      let child ← walk variants offset d lo mid (← resolveChild reader n.left)
      return { n.touch with filter := filter, left := child.slot }
    else
      let child ← walk variants offset d mid hi (← resolveChild reader n.right)
      return { n.touch with filter := filter, right := child.slot }

/-- The child that `_set_leaf` goes down to. -/
def existingChild : BloomSlot → Py (Option BloomNode)
  | .absent => .ok none
  | .unread p =>
    if p.id = [] then .ok none else do return some (← resolveChild (some node) (.unread p))
  | slot => do return some (← resolveChild (some node) slot)

/-- `_set_leaf`, `d` levels over the leaves. -/
def setLeaf (offset : Nat) (blockHash : Bytes) :
    Nat → Nat → Nat → BloomNode → Py (BloomNode × Bool)
  | 0, _, _, n =>
    .ok ({ n.touch with
      startHash := some blockHash
      filter := { n.filter with startHash := some blockHash } }, true)
  | d + 1, lo, hi, n => do
    let mid := (lo + hi) / 2
    if offset < mid then
      match ← existingChild node n.left with
      | none => return (n, false)
      | some child =>
        let (child, done) ← setLeaf offset blockHash d lo mid child
        let n := { n with left := child.slot }
        return (if done then n.touch else n, done)
    else
      match ← existingChild node n.right with
      | none => return (n, false)
      | some child =>
        let (child, done) ← setLeaf offset blockHash d mid hi child
        let n := { n with right := child.slot }
        return (if done then n.touch else n, done)

end Walking

section Searching

variable (digest : Bytes → Bytes) (node : Node)

/-- A child of `_search_leaves`, with how it is searched. -/
def childLeaves (search : NodeRecord → Py (List NodeRecord)) :
    Option Pointer → Py (List NodeRecord)
  | none => .ok []
  | some p =>
    if p.id = [] then .ok [] else do
      match ← readBloomNode node p.block p.id with
      | none => return []
      | some child => search child

/-- `_search_leaves`, `d` levels over the leaves. -/
def searchLeaves (element : Bytes) : Nat → NodeRecord → Py (List NodeRecord)
  | 0, n => do if ← bloomTest digest n.filter element then return [n] else return []
  | d + 1, n => do
    if ← bloomTest digest n.filter element then
      return (← childLeaves node (searchLeaves element d) n.left) ++
        (← childLeaves node (searchLeaves element d) n.right)
    else return []

/-- `bloom_search_leaves`. -/
def bloomSearchLeaves (rootHash element : Bytes) (held : Option Bytes) : Py (List NodeRecord) := do
  match ← readBloomNode node held rootHash with
  | none => return []
  | some root => searchLeaves digest node element 10 root

/-- `bloom_search_storage`. -/
def bloomSearchStorage (rootHash element : Bytes) (held : Option Bytes) :
    Py (List (Option Bytes)) := do
  return (← bloomSearchLeaves digest node rootHash element held).map fun leaf => leaf.startHash

/-- The descent of `_storage_find_leaf`, `d` levels over the leaves. -/
def findLeaf (offset : Nat) : Nat → Nat → Nat → NodeRecord → Py (Option Bytes)
  | 0, _, _, n => .ok n.startHash
  | d + 1, lo, hi, n => do
    let mid := (lo + hi) / 2
    match if offset < mid then n.left else n.right with
    | none => return none
    | some p => match ← readBloomNode node p.block p.id with
      | none => return none
      | some c => if offset < mid then findLeaf offset d lo mid c else findLeaf offset d mid hi c

/-- `_storage_find_leaf`. -/
def storageFindLeaf (rootHash : Bytes) (offset : Nat) (held : Option Bytes) :
    Py (Option Bytes) := do
  match ← readBloomNode node held rootHash with
  | none => return none
  | some root => findLeaf node offset 10 0 1024 root

end Searching

section Trees

variable (digest blake3 : Bytes → Bytes) (node : Node)

/-- The root of a `BloomTree` that is loaded from the block that holds it. -/
def loadTree (rootHash blockHash : Bytes) : Py (Option BloomNode) :=
  if rootHash = [] ∨ rootHash = zero32 then .ok none else do
    match ← readBloomNode node (some blockHash) rootHash with
    | none => return none
    | some r => return some (BloomNode.read node ⟨rootHash, some blockHash⟩ r)

/-- `BloomTree.insert`. -/
def insertAt (reader : Option Node) (offset : Nat) (variants : List Bytes)
    (root : Option BloomNode) : Py (Option BloomNode) := do
  return some (← walk digest reader variants offset 10 0 1024 (root.getD {}))

/-- `set_leaf_start_hash`. -/
def setLeafStartHash (offset : Nat) (blockHash : Bytes) (root : Option BloomNode) :
    Py (Option BloomNode) :=
  match root with
  | none => .ok none
  | some n => do
    let (n, _) ← setLeaf node offset blockHash 10 0 1024 n
    return some n

/-- `rewrite_root`. -/
def rewriteRoot (root : Option BloomNode) : Option BloomNode :=
  root.map fun n => { n.touch with stored := none }

/-- The bloom hash of the header of a block with a tree. -/
def bloomHash : Option BloomNode → Bytes
  | none => zero32
  | some n => (n.written blake3).hash blake3

def newExprs : Option BloomNode → List Expr
  | none => []
  | some n => n.slot.newExprs blake3

/-- The tree that a block at an offset of its era starts with: a new one, or that of the block
before with the start hash of that block. -/
def openTree (offset : Nat) (previousRoot previousHash : Bytes) : Py (Option BloomNode) :=
  if offset = 0 then .ok none else do
    let root ← loadTree node previousRoot previousHash
    setLeafStartHash node (offset - 1) previousHash root

/-- The tree of a block: an insert gives the node or does not. -/
def buildTree (offset : Nat) (previousRoot previousHash : Bytes)
    (inserts : List (Bool × List Bytes)) : Py (Option BloomNode) := do
  let root ← openTree node offset previousRoot previousHash
  let root ← inserts.foldlM (fun root entry =>
    insertAt digest (if entry.1 then some node else none) offset entry.2 root) root
  return rewriteRoot root

end Trees

section Denoting

variable (blake3 : Bytes → Bytes) (written : List Expr)

/-- A node that holds the cells of the bloom nodes that were written. -/
structure Reads (node : Node) : Prop where
  blake3 : node.blake3 = blake3
  holds : ∀ e ∈ written, node.Holds e
  fuel : ∀ e ∈ written, e.linkDepth < node.fuel

/-- A record that was written under a hash. -/
structure Kept (id : Bytes) (r : NodeRecord) : Prop where
  mem : r.toExpr ∈ written
  hash : r.toExpr.hash blake3 = id
  sized : r.Sized
  start : ∀ h, r.startHash = some h → h.length = 32

/-- The index that a node in memory stands for with what was written. One that was not changed is
still the one that is stored. -/
inductive Denotes : BloomSlot → Index → Prop
  | absent : Denotes .absent .empty
  | unread {p : Pointer} {r : NodeRecord} {left right : Index}
      (hkept : Kept blake3 written p.id r) (hsized : p.Sized)
      (hleft : Denotes (slotOf r.left) left) (hright : Denotes (slotOf r.right) right) :
      Denotes (.unread p) (.node r.filter left right)
  | changed {stored : Option Pointer} {start : Option Bytes} {filter : Filter}
      {l r : BloomSlot} {left right : Index} (hstored : ∀ p, stored = some p → p.Sized)
      (hfilter : filter.startHash = start) (hstart : ∀ h, start = some h → h.length = 32)
      (hleft : Denotes l left) (hright : Denotes r right) :
      Denotes (.loaded stored none true start filter l r) (.node filter left right)
  | same {p : Pointer} {e : Expr} {start : Option Bytes} {filter : Filter} {l r : BloomSlot}
      {left right : Index} (hexpr : e.hash blake3 = p.id)
      (hstored : Denotes (.unread p) (.node filter left right))
      (hfilter : filter.startHash = start) (hstart : ∀ h, start = some h → h.length = 32)
      (hleft : Denotes l left) (hright : Denotes r right) :
      Denotes (.loaded (some p) (some e) false start filter l r) (.node filter left right)

/-- No node is unread on the way to an offset. -/
def Opened (offset : Nat) : Nat → Nat → BloomSlot → Prop
  | _, _, .absent => True
  | _, _, .unread _ => False
  | 0, _, .loaded .. => True
  | d + 1, lo, .loaded _ _ _ _ _ left right =>
    if offset < lo + 2 ^ d then Opened offset d lo left else Opened offset d (lo + 2 ^ d) right

/-- What a node has of the index that it stands for. -/
structure Parts (n : BloomNode) (index : Index) : Prop where
  stored : ∀ p, n.stored = some p → p.Sized
  same : n.filter.startHash = n.startHash
  start : ∀ h, n.startHash = some h → h.length = 32
  filter : n.filter = index.filter
  left : Denotes blake3 written n.left index.left
  right : Denotes blake3 written n.right index.right

end Denoting

section Reading

variable {blake3 digest : Bytes → Bytes} {written written' : List Expr} {node : Node}
  {n : BloomNode} {r : NodeRecord} {p : Pointer} {id : Bytes} {held : Option Bytes}
  {slot : BloomSlot} {index left right : Index}

theorem NodeRecord.writable (hsized : r.Sized)
    (hstart : ∀ h, r.startHash = some h → h.length = 32) :
    r.toExpr.Writable := by
  have hpointer : ∀ child : Option Pointer, (∀ p, child = some p → p.Sized) →
      (childItem child).Writable := by
    intro child hchild
    cases child with
    | none => trivial
    | some p =>
      obtain ⟨id, block⟩ := p
      have hp := hchild ⟨id, block⟩ rfl
      cases block with
      | none => exact writable_refTo hp.1
      | some block =>
        exact writable_link trivial (writable_link trivial (writable_link trivial trivial))
  have hhead : (startHead r.filter.startHash).Writable := by
    rw [hsized.start]
    cases hs : r.startHash with
    | none => trivial
    | some h => exact hstart h hs
  have htiers : (spine (r.filter.tiers.map fun tier => Child.loaded (.bytes tier))).Writable := by
    induction r.filter.tiers with
    | nil => trivial
    | cons tier tiers ih => exact .inl ⟨rfl, trivial, ih⟩
  have hfilter : (filterExpr r.filter).Writable :=
    .inl ⟨rfl, hhead, .inl ⟨rfl, writable_int _, htiers⟩⟩
  have hblock : (refOf r.startHash).Writable := by
    cases hs : r.startHash with
    | none => trivial
    | some h => exact writable_refTo (hstart h hs)
  exact .inl ⟨rfl, hblock, .inl ⟨rfl, hpointer _ hsized.left, .inl ⟨rfl, hpointer _ hsized.right,
    .inl ⟨rfl, hfilter, trivial⟩⟩⟩⟩

theorem Kept.mono (h : Kept blake3 written id r) (hsub : written ⊆ written') :
    Kept blake3 written' id r :=
  ⟨hsub h.mem, h.hash, h.sized, h.start⟩

theorem Denotes.mono (h : Denotes blake3 written slot index) (hsub : written ⊆ written') :
    Denotes blake3 written' slot index := by
  induction h with
  | absent => exact .absent
  | unread hkept hsized _ _ ihl ihr => exact .unread (hkept.mono hsub) hsized ihl ihr
  | changed hstored hfilter hstart _ _ ihl ihr => exact .changed hstored hfilter hstart ihl ihr
  | same hexpr _ hfilter hstart _ _ ih ihl ihr => exact .same hexpr ih hfilter hstart ihl ihr

/-- The block of a pointer does not matter to what it stands for. -/
theorem Denotes.within {child : Option Pointer} (h : Denotes blake3 written (slotOf child) index)
    (hheld : ∀ b, held = some b → b.length = 32) :
    Denotes blake3 written (slotOf (child.map (Pointer.within held))) index := by
  cases child with
  | none => exact h
  | some p =>
    cases h with
    | unread hkept hsized hleft hright =>
      refine .unread hkept ⟨hsized.1, fun b hb => ?_⟩ hleft hright
      cases hblock : p.block with
      | none =>
        rw [Pointer.within, hblock] at hb
        exact hheld b hb
      | some block =>
        rw [Pointer.within, hblock] at hb
        exact hsized.2 b (hblock.trans hb)

theorem Denotes.parts (h : Denotes blake3 written n.slot index) : Parts blake3 written n index := by
  obtain ⟨stored, expr, touched, start, filter, l, r⟩ := n
  change Denotes blake3 written (.loaded stored expr touched start filter l r) index at h
  cases h with
  | changed hstored hfilter hstart hleft hright =>
    exact ⟨hstored, hfilter, hstart, rfl, hleft, hright⟩
  | same hexpr hstored hfilter hstart hleft hright =>
    refine ⟨fun p hp => ?_, hfilter, hstart, rfl, hleft, hright⟩
    cases hp
    cases hstored with
    | unread hkept hsized _ _ => exact hsized

theorem parts_fresh (blake3 : Bytes → Bytes) (written : List Expr) :
    Parts blake3 written {} .empty := by
  constructor
  · intro p hp
    cases hp
  · rfl
  · intro h hh
    cases hh
  · rfl
  · exact .absent
  · exact .absent

theorem Kept.ne_nil (hdigest : ∀ x, (blake3 x).length = 32) (h : Kept blake3 written id r) :
    id ≠ [] := by
  rintro rfl
  have hlength := length_hash_of_writable hdigest (NodeRecord.writable h.sized h.start)
  rw [h.hash] at hlength
  cases hlength

theorem Kept.ne_zero (hnode : Reads blake3 written node) (h : Kept blake3 written id r) :
    id ≠ zero32 := by
  intro hzero
  have hnil := (hnode.holds _ h.mem).zero _ (Expr.mem_cells _) (by
    rw [Node.hash, hnode.blake3, h.hash, hzero])
  cases hnil

theorem le_linkDepth_spine (heads : List Child) : heads.length ≤ (spine heads).linkDepth := by
  induction heads with
  | nil => exact Nat.zero_le _
  | cons head heads ih =>
    change heads.length + 1 ≤ max _ (spine heads).linkDepth + 1
    omega

theorem Kept.read (hnode : Reads blake3 written node) (h : Kept blake3 written id r)
    (held : Option Bytes) : readBloomNode node held id = .ok (some (r.within held)) := by
  have hfuel : r.filter.tiers.length ≤ node.fuel := by
    have hdepth := hnode.fuel _ h.mem
    have hfilter := le_linkDepth_spine (startHead r.filter.startHash ::
      .loaded (int_ r.filter.count) :: r.filter.tiers.map fun tier => .loaded (.bytes tier))
    change (spine [_, _, _, .loaded (filterExpr r.filter)]).linkDepth < _ at hdepth
    change _ ≤ (filterExpr r.filter).linkDepth at hfilter
    simp [spine, Expr.linkDepth, Child.linkDepth] at hdepth hfilter
    omega
  have hread := @readBloomNode_stored _ held _ (hnode.holds _ h.mem) h.sized hfuel
  rw [Node.hash, hnode.blake3, h.hash] at hread
  exact hread

theorem Kept.get (hnode : Reads blake3 written node) (h : Kept blake3 written id r) :
    getExpr node id = some (r.toExpr.stored node.blake3) := by
  have hself := (hnode.holds _ h.mem).self
  rw [Node.hash, hnode.blake3, h.hash] at hself
  rw [hself, hnode.blake3]

/-- A node that is read stands for what is stored. -/
theorem Kept.denotes_read (hnode : Reads blake3 written node)
    (hkept : Kept blake3 written p.id r) (hsized : p.Sized)
    (hleft : Denotes blake3 written (slotOf r.left) left)
    (hright : Denotes blake3 written (slotOf r.right) right) :
    Denotes blake3 written (BloomNode.read node p (r.within p.block)).slot
      (.node r.filter left right) := by
  have hget := hkept.get hnode
  have hhash : (r.toExpr.stored node.blake3).hash node.blake3 = p.id := by
    have hne : r.toExpr ≠ .nil := fun h => by cases h
    rw [stored_of_ne hne,
      hash_wireOf_writable hne (NodeRecord.writable hkept.sized hkept.start), hnode.blake3,
      hkept.hash]
  have hstored : (BloomNode.read node p (r.within p.block)).slot =
      .loaded (some p) (some (r.toExpr.stored node.blake3)) false r.startHash r.filter
        (slotOf (r.left.map (Pointer.within p.block)))
        (slotOf (r.right.map (Pointer.within p.block))) := by
    simp only [BloomNode.read, BloomNode.slot, hget, Option.map_some, hhash, NodeRecord.within]
  rw [hstored]
  rw [hnode.blake3] at hhash ⊢
  exact .same hhash (.unread hkept hsized hleft hright) hkept.sized.start hkept.start
    (hleft.within hsized.2) (hright.within hsized.2)

/-- A child that is there is read or loaded already. -/
theorem existingChild_denotes (hdigest : ∀ x, (blake3 x).length = 32)
    (hnode : Reads blake3 written node) (h : Denotes blake3 written slot index) :
    existingChild node slot = .ok none ∧ slot = .absent ∧ index = .empty ∨
      ∃ n, existingChild node slot = .ok (some n) ∧ Denotes blake3 written n.slot index := by
  cases h with
  | absent => exact .inl ⟨rfl, rfl, rfl⟩
  | @unread p r left right hkept hsized hleft hright =>
    refine .inr ⟨_, ?_, hkept.denotes_read hnode hsized hleft hright⟩
    have hne := hkept.ne_nil hdigest
    rw [existingChild, if_neg hne, resolveChild]
    simp only [if_neg hne, hkept.read hnode]
    rfl
  | changed hstored hfilter hstart hleft hright =>
    exact .inr ⟨⟨_, _, _, _, _, _, _⟩, rfl, .changed hstored hfilter hstart hleft hright⟩
  | same hexpr hstored hfilter hstart hleft hright =>
    exact .inr ⟨⟨_, _, _, _, _, _, _⟩, rfl, .same hexpr hstored hfilter hstart hleft hright⟩

end Reading

section Changing

variable {blake3 digest : Bytes → Bytes} {written : List Expr} {node : Node}
  {reader : Option Node} {n : BloomNode} {slot slot' : BloomSlot} {index index' left right : Index}
  {log : List (Nat × Bytes)} {starts : Nat → Option Bytes} {d lo offset : Nat}
  {variants : List Bytes} {blockHash : Bytes} {filter : Filter}

theorem opened_absent (offset d lo : Nat) : Opened offset d lo .absent := by
  cases d <;> exact trivial

theorem opened_fresh (offset d lo : Nat) : Opened offset d lo (BloomNode.slot {}) := by
  cases d with
  | zero => exact trivial
  | succ d =>
    change if _ then _ else _
    split <;> exact opened_absent _ _ _

theorem midpoint (lo d : Nat) : (lo + (lo + 2 ^ (d + 1))) / 2 = lo + 2 ^ d := by
  rw [Nat.pow_succ]
  omega

theorem Parts.changed (h : Parts blake3 written n index) :
    Denotes blake3 written n.touch.slot (.node n.filter index.left index.right) :=
  .changed h.stored h.same h.start h.left h.right

/-- Where nothing is unread no reader is needed. -/
theorem resolveChild_opened (reader : Option Node) (h : Denotes blake3 written slot index)
    (hopen : Opened offset d lo slot) :
    ∃ n, resolveChild reader slot = .ok n ∧ Parts blake3 written n index ∧
      Opened offset d lo n.slot := by
  cases h with
  | absent => exact ⟨{}, rfl, parts_fresh _ _, opened_fresh _ _ _⟩
  | unread hkept hsized hleft hright => cases d <;> exact hopen.elim
  | changed hstored hfilter hstart hleft hright =>
    exact ⟨⟨_, _, _, _, _, _, _⟩, rfl, ⟨hstored, hfilter, hstart, rfl, hleft, hright⟩, hopen⟩
  | same hexpr hstored hfilter hstart hleft hright =>
    exact ⟨⟨_, _, _, _, _, _, _⟩, rfl,
      Denotes.parts (.same hexpr hstored hfilter hstart hleft hright), hopen⟩

/-- An insert on a way that is open does to the index what it should, with a node to read from or
without one. -/
theorem walk_denotes (reader : Option Node) (h : Parts blake3 written n index)
    (hopen : Opened offset d lo n.slot)
    (hinsert : index.insert digest variants offset d lo = .ok index') :
    ∃ n', walk digest reader variants offset d lo (lo + 2 ^ d) n = .ok n' ∧
      Denotes blake3 written n'.slot index' ∧ Opened offset d lo n'.slot := by
  induction d generalizing lo n index index' with
  | zero =>
    rw [Index.insert] at hinsert
    rw [walk, h.filter]
    cases hfilter : variants.foldlM (bloomInsert digest) index.filter with
    | error e =>
      rw [hfilter] at hinsert
      cases hinsert
    | ok filter =>
      rw [hfilter] at hinsert
      cases hinsert
      refine ⟨{ n.touch with filter := filter }, rfl, ?_, trivial⟩
      refine .changed h.stored ?_ h.start h.left h.right
      rw [startHash_inserts hfilter, ← h.filter]
      exact h.same
  | succ d ih =>
    rw [Index.insert] at hinsert
    rw [walk, midpoint, h.filter]
    cases hfilter : variants.foldlM (bloomInsert digest) index.filter with
    | error e =>
      rw [hfilter] at hinsert
      cases hinsert
    | ok filter =>
      rw [hfilter] at hinsert
      have hsame : filter.startHash = n.startHash := by
        rw [startHash_inserts hfilter, ← h.filter]
        exact h.same
      change (if offset < lo + 2 ^ d then _ else _) = _ at hinsert
      change if offset < lo + 2 ^ d then _ else _ at hopen
      by_cases hside : offset < lo + 2 ^ d
      · rw [if_pos hside] at hinsert hopen
        obtain ⟨child, hchild, hparts, hopened⟩ := resolveChild_opened reader h.left hopen
        cases hdeep : index.left.insert digest variants offset d lo with
        | error e =>
          rw [hdeep] at hinsert
          cases hinsert
        | ok left =>
          rw [hdeep] at hinsert
          cases hinsert
          obtain ⟨child', hwalk, hdenotes, hopen'⟩ := ih hparts hopened hdeep
          refine ⟨{ n.touch with filter := filter, left := child'.slot }, ?_,
            .changed h.stored hsame h.start hdenotes h.right, ?_⟩
          · change (if offset < lo + 2 ^ d then _ else _) = _
            rw [if_pos hside, hchild]
            change (walk digest reader variants offset d lo (lo + 2 ^ d) child >>= _) = _
            rw [hwalk]
            rfl
          · change if offset < lo + 2 ^ d then _ else _
            rw [if_pos hside]
            exact hopen'
      · rw [if_neg hside] at hinsert hopen
        obtain ⟨child, hchild, hparts, hopened⟩ := resolveChild_opened reader h.right hopen
        cases hdeep : index.right.insert digest variants offset d (lo + 2 ^ d) with
        | error e =>
          rw [hdeep] at hinsert
          cases hinsert
        | ok right =>
          rw [hdeep] at hinsert
          cases hinsert
          obtain ⟨child', hwalk, hdenotes, hopen'⟩ := ih hparts hopened hdeep
          refine ⟨{ n.touch with filter := filter, right := child'.slot }, ?_,
            .changed h.stored hsame h.start h.left hdenotes, ?_⟩
          · change (if offset < lo + 2 ^ d then _ else _) = _
            rw [if_neg hside, hchild]
            change (walk digest reader variants offset d (lo + 2 ^ d) (lo + 2 ^ (d + 1)) child >>=
              _) = _
            rw [Index.two_pow_halves, hwalk]
            rfl
          · change if offset < lo + 2 ^ d then _ else _
            rw [if_neg hside]
            exact hopen'

/-- A node whose child is replaced by one that stands for the same is as it was. -/
theorem Denotes.setLeft (h : Denotes blake3 written n.slot (.node filter left right))
    (hslot : Denotes blake3 written slot left) :
    Denotes blake3 written (BloomNode.slot { n with left := slot }) (.node filter left right) := by
  obtain ⟨stored, expr, touched, start, filter, l, r⟩ := n
  change Denotes blake3 written (.loaded stored expr touched start filter l r) _ at h
  cases h with
  | changed hstored hfilter hstart hleft hright =>
    exact .changed hstored hfilter hstart hslot hright
  | same hexpr hstored hfilter hstart hleft hright =>
    exact .same hexpr hstored hfilter hstart hslot hright

theorem Denotes.setRight (h : Denotes blake3 written n.slot (.node filter left right))
    (hslot : Denotes blake3 written slot right) :
    Denotes blake3 written (BloomNode.slot { n with right := slot }) (.node filter left right) := by
  obtain ⟨stored, expr, touched, start, filter, l, r⟩ := n
  change Denotes blake3 written (.loaded stored expr touched start filter l r) _ at h
  cases h with
  | changed hstored hfilter hstart hleft hright =>
    exact .changed hstored hfilter hstart hleft hslot
  | same hexpr hstored hfilter hstart hleft hright =>
    exact .same hexpr hstored hfilter hstart hleft hslot

theorem Denotes.eq_node (h : Denotes blake3 written n.slot index) :
    ∃ left right, index = .node n.filter left right := by
  obtain ⟨stored, expr, touched, start, filter, l, r⟩ := n
  change Denotes blake3 written (.loaded stored expr touched start filter l r) _ at h
  cases h with
  | changed => exact ⟨_, _, rfl⟩
  | same => exact ⟨_, _, rfl⟩

/-- Setting a start hash leaves the way to its offset open, whether there is a leaf or not. -/
theorem setLeaf_denotes (hdigest : ∀ x, (blake3 x).length = 32) (hnode : Reads blake3 written node)
    (hhash : blockHash.length = 32) (h : Denotes blake3 written n.slot index) :
    ∃ n' done, setLeaf node offset blockHash d lo (lo + 2 ^ d) n = .ok (n', done) ∧
      Denotes blake3 written n'.slot (index.setStart offset blockHash d lo) ∧
      Opened offset d lo n'.slot ∧
      (done = false → index.setStart offset blockHash d lo = index) := by
  induction d generalizing lo n index with
  | zero =>
    have hparts := h.parts
    obtain ⟨left, right, rfl⟩ := h.eq_node
    refine ⟨_, true, rfl, ?_, trivial, fun hdone => by cases hdone⟩
    refine .changed hparts.stored rfl (fun b hb => ?_) hparts.left hparts.right
    cases hb
    exact hhash
  | succ d ih =>
    have hparts := h.parts
    obtain ⟨left, right, rfl⟩ := h.eq_node
    rw [setLeaf, midpoint, Index.setStart]
    by_cases hside : offset < lo + 2 ^ d
    · simp only [if_pos hside]
      cases existingChild_denotes hdigest hnode hparts.left with
      | inl hnone =>
        obtain ⟨hexisting, hslot, hempty⟩ := hnone
        change left = .empty at hempty
        have hsame : left.setStart offset blockHash d lo = left := by
          rw [hempty]
          cases d <;> rfl
        rw [hexisting, hsame]
        refine ⟨n, false, rfl, h, ?_, fun _ => rfl⟩
        change if offset < lo + 2 ^ d then Opened offset d lo n.left else _
        rw [if_pos hside, hslot]
        exact opened_absent _ _ _
      | inr hsome =>
        obtain ⟨child, hexisting, hchild⟩ := hsome
        obtain ⟨child', done, hset, hdenotes, hopen, hkept⟩ := ih hchild
        rw [hexisting]
        change ∃ n' done, (setLeaf node offset blockHash d lo (lo + 2 ^ d) child >>= _) = _ ∧ _
        rw [hset]
        have hopen' : ∀ m : BloomNode, m.left = child'.slot → Opened offset (d + 1) lo m.slot := by
          intro m hm
          change if offset < lo + 2 ^ d then Opened offset d lo m.left else _
          rw [if_pos hside, hm]
          exact hopen
        cases done with
        | true =>
          exact ⟨BloomNode.touch { n with left := child'.slot }, true, rfl,
            .changed hparts.stored hparts.same hparts.start hdenotes hparts.right,
            hopen' _ rfl, fun hdone => by cases hdone⟩
        | false =>
          have hsame := hkept rfl
          change left.setStart offset blockHash d lo = left at hsame
          rw [hsame]
          change Denotes blake3 written child'.slot
            (left.setStart offset blockHash d lo) at hdenotes
          rw [hsame] at hdenotes
          exact ⟨{ n with left := child'.slot }, false, rfl, h.setLeft hdenotes, hopen' _ rfl,
            fun _ => rfl⟩
    · simp only [if_neg hside]
      cases existingChild_denotes hdigest hnode hparts.right with
      | inl hnone =>
        obtain ⟨hexisting, hslot, hempty⟩ := hnone
        change right = .empty at hempty
        have hsame : right.setStart offset blockHash d (lo + 2 ^ d) = right := by
          rw [hempty]
          cases d <;> rfl
        rw [hexisting, hsame]
        refine ⟨n, false, rfl, h, ?_, fun _ => rfl⟩
        change if offset < lo + 2 ^ d then _ else Opened offset d (lo + 2 ^ d) n.right
        rw [if_neg hside, hslot]
        exact opened_absent _ _ _
      | inr hsome =>
        obtain ⟨child, hexisting, hchild⟩ := hsome
        obtain ⟨child', done, hset, hdenotes, hopen, hkept⟩ := ih hchild
        rw [hexisting]
        change ∃ n' done, (setLeaf node offset blockHash d (lo + 2 ^ d) (lo + 2 ^ (d + 1)) child >>=
          _) = _ ∧ _
        rw [Index.two_pow_halves, hset]
        have hopen' : ∀ m : BloomNode, m.right = child'.slot → Opened offset (d + 1) lo m.slot := by
          intro m hm
          change if offset < lo + 2 ^ d then _ else Opened offset d (lo + 2 ^ d) m.right
          rw [if_neg hside, hm]
          exact hopen
        cases done with
        | true =>
          exact ⟨BloomNode.touch { n with right := child'.slot }, true, rfl,
            .changed hparts.stored hparts.same hparts.start hparts.left hdenotes,
            hopen' _ rfl, fun hdone => by cases hdone⟩
        | false =>
          have hsame := hkept rfl
          change right.setStart offset blockHash d (lo + 2 ^ d) = right at hsame
          rw [hsame]
          change Denotes blake3 written child'.slot
            (right.setStart offset blockHash d (lo + 2 ^ d)) at hdenotes
          rw [hsame] at hdenotes
          exact ⟨{ n with right := child'.slot }, false, rfl, h.setRight hdenotes, hopen' _ rfl,
            fun _ => rfl⟩

/-- Where nothing is beyond an offset, the way to the next one is open too. -/
theorem Denotes.opened_succ (h : Denotes blake3 written slot index)
    (hcovers : Index.Covers digest log starts (offset + 1) d lo index)
    (hopen : Opened offset d lo slot) (hlo : lo ≤ offset) : Opened (offset + 1) d lo slot := by
  induction d generalizing lo slot index with
  | zero =>
    cases h with
    | absent => exact trivial
    | unread => exact hopen.elim
    | changed => exact trivial
    | same => exact trivial
  | succ d ih =>
    obtain ⟨hleft, hright⟩ := hcovers.halves
    have hboth : ∀ l r : BloomSlot, Denotes blake3 written l index.left →
        Denotes blake3 written r index.right →
        (if offset < lo + 2 ^ d then Opened offset d lo l else Opened offset d (lo + 2 ^ d) r) →
        if offset + 1 < lo + 2 ^ d then Opened (offset + 1) d lo l
          else Opened (offset + 1) d (lo + 2 ^ d) r := by
      intro l r hl hr hway
      by_cases hside : offset < lo + 2 ^ d
      · rw [if_pos hside] at hway
        by_cases hnext : offset + 1 < lo + 2 ^ d
        · rw [if_pos hnext]
          exact ih hl hleft hway hlo
        · rw [if_neg hnext]
          have hempty := hright.eq_empty (by omega)
          rw [hempty] at hr
          cases hr
          exact opened_absent _ _ _
      · rw [if_neg hside] at hway
        rw [if_neg (by omega)]
        exact ih hr hright hway (by omega)
    cases h with
    | absent => exact trivial
    | unread => exact hopen.elim
    | changed hstored hfilter hstart hl hr => exact hboth _ _ hl hr hopen
    | same hexpr hstored hfilter hstart hl hr => exact hboth _ _ hl hr hopen

end Changing

section Keeping

variable {blake3 digest : Bytes → Bytes} {written : List Expr} {node : Node} {n : BloomNode}
  {slot : BloomSlot} {index left right : Index} {r : NodeRecord} {element : Bytes}
  {d lo offset : Nat}

theorem Denotes.sized (hdigest : ∀ x, (blake3 x).length = 32)
    (h : Denotes blake3 written slot index) :
    ∀ p, slot.pointer blake3 = some p → p.Sized := by
  induction h with
  | absent =>
    intro p hp
    cases hp
  | unread hkept hsized _ _ _ _ =>
    intro p hp
    cases hp
    exact hsized
  | @changed stored start filter l r left right hstored hfilter hstart _ _ ihl ihr =>
    intro p hp
    cases hp
    refine ⟨length_hash_of_writable hdigest
      (NodeRecord.writable ⟨ihl, ihr, hfilter⟩ hstart), fun b hb => ?_⟩
    cases stored with
    | none => cases hb
    | some s =>
      change (if s.id = _ then s.block else none) = some b at hb
      split at hb
      · exact (hstored s rfl).2 b hb
      · cases hb
  | @same p e start filter l r left right hexpr _ _ _ _ _ ih _ _ =>
    intro q hq
    refine ih q ?_
    rw [← hq]
    simp [BloomSlot.pointer, hexpr]

theorem Denotes.writable (hdigest : ∀ x, (blake3 x).length = 32)
    (h : Denotes blake3 written slot index) : ∀ e ∈ slot.newExprs blake3, e.Writable := by
  induction h with
  | absent =>
    intro e he
    cases he
  | unread =>
    intro e he
    cases he
  | changed hstored hfilter hstart hleft hright ihl ihr =>
    intro e he
    rw [BloomSlot.newExprs, List.mem_append, List.mem_append] at he
    obtain (he | he) | he := he
    · rw [if_pos rfl, List.mem_singleton] at he
      rw [he]
      exact NodeRecord.writable ⟨hleft.sized hdigest, hright.sized hdigest, hfilter⟩ hstart
    · exact ihl e he
    · exact ihr e he
  | same hexpr hstored hfilter hstart hleft hright _ ihl ihr =>
    intro e he
    rw [BloomSlot.newExprs, List.mem_append, List.mem_append] at he
    obtain (he | he) | he := he
    · cases he
    · exact ihl e he
    · exact ihr e he

/-- What a node in memory stands for is what its pointer names, once its new cells are written. -/
theorem Denotes.pointer (hdigest : ∀ x, (blake3 x).length = 32)
    (h : Denotes blake3 written slot index) :
    Denotes blake3 (written ++ slot.newExprs blake3) (slotOf (slot.pointer blake3)) index := by
  induction h with
  | absent => exact .absent
  | unread hkept hsized hleft hright _ _ =>
    exact Denotes.mono (.unread hkept hsized hleft hright) (List.subset_append_left _ _)
  | @changed stored start filter l r left right hstored hfilter hstart hleft hright ihl ihr =>
    have hsub : ∀ child : Bool, written ++ (if child then l else r).newExprs blake3 ⊆ written ++
        (BloomSlot.loaded stored none true start filter l r).newExprs blake3 := by
      intro child e he
      rw [BloomSlot.newExprs]
      cases List.mem_append.mp he with
      | inl hold => exact List.mem_append_left _ hold
      | inr hnew =>
        cases child with
        | true => simp only [if_true] at hnew; simp [hnew]
        | false => simp only [Bool.false_eq_true, if_false] at hnew; simp [hnew]
    have hrecord : NodeRecord.Sized ⟨start, l.pointer blake3, r.pointer blake3, filter⟩ :=
      ⟨hleft.sized hdigest, hright.sized hdigest, hfilter⟩
    refine .unread ⟨?_, rfl, hrecord, hstart⟩ ?_ (ihl.mono (hsub true)) (ihr.mono (hsub false))
    · rw [BloomSlot.newExprs]
      simp [BloomNode.written]
    · exact Denotes.sized hdigest (.changed hstored hfilter hstart hleft hright) _ rfl
  | @same p e start filter l r left right hexpr hstored hfilter hstart _ _ _ _ _ =>
    have hpointer : (BloomSlot.loaded (some p) (some e) false start filter l r).pointer blake3 =
        some p := by
      simp [BloomSlot.pointer, hexpr]
    rw [hpointer]
    exact hstored.mono (List.subset_append_left _ _)

theorem Denotes.rewrite (h : Denotes blake3 written n.slot index) :
    Denotes blake3 written (BloomNode.slot { n.touch with stored := none }) index := by
  have hparts := h.parts
  obtain ⟨left, right, rfl⟩ := h.eq_node
  refine .changed (fun p hp => ?_) hparts.same hparts.start hparts.left hparts.right
  cases hp

def NodeRecord.parts (leaf : NodeRecord) : Filter × Option Bytes := (leaf.filter, leaf.startHash)

def Filter.parts (leaf : Filter) : Filter × Option Bytes := (leaf, leaf.startHash)

theorem map_append_congr {α β γ : Type} {f : α → γ} {g : β → γ} {a a' : Py (List α)}
    {b b' : Py (List β)} (h : a.map (List.map f) = b.map (List.map g))
    (h' : a'.map (List.map f) = b'.map (List.map g)) :
    (do return (← a) ++ (← a') : Py (List α)).map (List.map f) =
      (do return (← b) ++ (← b') : Py (List β)).map (List.map g) := by
  cases a with
  | error e =>
    cases b with
    | error e' => exact congrArg Except.error (Except.error.inj h)
    | ok ys => cases h
  | ok xs =>
    cases b with
    | error e' => cases h
    | ok ys =>
      cases a' with
      | error e =>
        cases b' with
        | error e' => exact congrArg Except.error (Except.error.inj h')
        | ok ys' => cases h'
      | ok xs' =>
        cases b' with
        | error e' => cases h'
        | ok ys' =>
          have hxs := Except.ok.inj h
          have hxs' := Except.ok.inj h'
          change Except.ok ((xs ++ xs').map f) = Except.ok ((ys ++ ys').map g)
          rw [List.map_append, List.map_append, hxs, hxs']

/-- A search of the storage finds the leaves that one of the index does. -/
theorem searchLeaves_denotes (hdigest : ∀ x, (blake3 x).length = 32)
    (hnode : Reads blake3 written node) (hstart : r.filter.startHash = r.startHash)
    (hleft : Denotes blake3 written (slotOf r.left) left)
    (hright : Denotes blake3 written (slotOf r.right) right) :
    (searchLeaves digest node element d r).map (List.map NodeRecord.parts) =
      (Index.search digest element d (.node r.filter left right)).map (List.map Filter.parts) := by
  induction d generalizing r left right with
  | zero =>
    rw [searchLeaves, Index.search]
    cases bloomTest digest r.filter element with
    | error e => rfl
    | ok found =>
      cases found with
      | true => exact congrArg (fun start => Except.ok [(r.filter, start)]) hstart.symm
      | false => rfl
  | succ d ih =>
    have hbelow : ∀ (child : Option Pointer) (index : Index),
        Denotes blake3 written (slotOf child) index →
        (childLeaves node (searchLeaves digest node element d) child).map
          (List.map NodeRecord.parts) =
            (Index.search digest element d index).map (List.map Filter.parts) := by
      intro child index hchild
      cases child with
      | none =>
        cases hchild
        cases d <;> rfl
      | some p =>
        cases hchild with
        | unread hkept hsized hl hr =>
          rw [childLeaves]
          simp only [if_neg (hkept.ne_nil hdigest), hkept.read hnode]
          exact ih hkept.sized.start (hl.within hsized.2) (hr.within hsized.2)
    rw [searchLeaves, Index.search]
    cases bloomTest digest r.filter element with
    | error e => rfl
    | ok found =>
      cases found with
      | false => rfl
      | true => exact map_append_congr (hbelow r.left left hleft) (hbelow r.right right hright)

/-- The descent to an offset ends at the leaf of the index. -/
theorem findLeaf_denotes (hnode : Reads blake3 written node)
    (hstart : r.filter.startHash = r.startHash)
    (hleft : Denotes blake3 written (slotOf r.left) left)
    (hright : Denotes blake3 written (slotOf r.right) right) :
    findLeaf node offset d lo (lo + 2 ^ d) r =
      .ok (Index.startAt offset d lo (.node r.filter left right)) := by
  induction d generalizing lo r left right with
  | zero =>
    rw [findLeaf, Index.startAt, hstart]
  | succ d ih =>
    rw [findLeaf, midpoint, Index.startAt]
    by_cases hside : offset < lo + 2 ^ d
    · simp only [if_pos hside]
      cases hchild : r.left with
      | none =>
        rw [hchild] at hleft
        cases hleft
        cases d <;> rfl
      | some p =>
        rw [hchild] at hleft
        cases hleft with
        | unread hkept hsized hl hr =>
          simp only [hkept.read hnode]
          exact ih hkept.sized.start (hl.within hsized.2) (hr.within hsized.2)
    · simp only [if_neg hside]
      cases hchild : r.right with
      | none =>
        rw [hchild] at hright
        cases hright
        cases d <;> rfl
      | some p =>
        rw [hchild] at hright
        cases hright with
        | unread hkept hsized hl hr =>
          simp only [hkept.read hnode]
          rw [Index.two_pow_halves]
          exact ih hkept.sized.start (hl.within hsized.2) (hr.within hsized.2)

end Keeping

end Astreum.Bloom
