import Astreum.BloomFilter
import Astreum.RadixCells

namespace Astreum.Bloom

/-- A bloom node as its cells tell it. -/
structure NodeRecord where
  startHash : Option Bytes
  left : Option Pointer
  right : Option Pointer
  filter : Filter

section Writing

/-- `_ref`. -/
def refOf : Option Bytes → Expr
  | none => .nil
  | some hash => refTo hash

/-- `pointer_item`. -/
def pointerItem (p : Pointer) : Expr :=
  match p.block with
  | none => refTo p.id
  | some block => refExpr block p.id

/-- `_child_item` of a child that is known by its hash. -/
def childItem : Option Pointer → Expr
  | none => .nil
  | some p => pointerItem p

def startHead : Option Bytes → Child
  | none => .loaded .nil
  | some hash => .byHash hash

/-- `bloom_to_expr`. -/
def filterExpr (bf : Filter) : Expr :=
  spine (startHead bf.startHash :: .loaded (int_ bf.count) ::
    bf.tiers.map fun tier => .loaded (.bytes tier))

/-- `bloom_node_to_expr`. -/
def NodeRecord.toExpr (n : NodeRecord) : Expr :=
  spine [.loaded (refOf n.startHash), .loaded (childItem n.left), .loaded (childItem n.right),
    .loaded (filterExpr n.filter)]

end Writing

section Reading

variable (node : Node) (held : Option Bytes)

/-- `head` of `bloom_node_from_expr`. -/
def headCell (cell : Option Expr) : Option Expr := do
  let head ← childPart node (← cell).headChild
  if isNilTail node (.loaded head) then none else some head

/-- `tail` of `bloom_node_from_expr`. -/
def tailCell (cell : Option Expr) : Option Expr := do
  let tail ← childPart node (← cell).tailChild
  if isNilTail node (.loaded tail) then none else some tail

/-- `_int_value`. -/
def filterCount (cell : Expr) : Py Int :=
  match cell.value with
  | .none => match childPart node cell.headChild with
    | some (.bytes encoded) => .ok (decodeInt encoded)
    | _ => .error .valueError
  | value => value.toInt

def tiersFrom : Nat → Option Expr → Py (List Bytes)
  | _, none => .ok []
  | 0, some _ => .error .outOfFuel
  | fuel + 1, some current => do
    let tier ← match headCell node (some current) with
      | none => pure []
      | some tier => do
        let bytes ← tier.value.toBytes
        pure [bytes]
    return tier ++ (← tiersFrom fuel (tailCell node (some current)))

def readChildItem : Option Expr → Py (Option Pointer)
  | none => .ok none
  | some item => do return (← readField node item).map (Pointer.within held)

/-- `bloom_node_from_expr`, under the block `held`. -/
def bloomNodeFromExpr (expr : Expr) : Py NodeRecord := do
  let c2 := tailCell node (some expr)
  let c3 := tailCell node c2
  let some c4 := tailCell node c3 | .error .valueError
  let some filterCell := headCell node (some c4) | .error .valueError
  let startHash ← match headCell node (some expr) with
    | none => pure none
    | some blockRef => do
      let hash ← getReferencedHash node blockRef
      pure (some hash)
  let left ← readChildItem node held (headCell node c2)
  let right ← readChildItem node held (headCell node c3)
  let counted := tailCell node (some filterCell)
  let some countCell := headCell node counted | .error .valueError
  let count ← filterCount node countCell
  let tiers ← tiersFrom node node.fuel (tailCell node counted)
  return ⟨startHash, left, right, ⟨count, tiers, startHash⟩⟩

/-- `read_bloom_node`. -/
def readBloomNode (exprId : Bytes) : Py (Option NodeRecord) :=
  match getExpr node exprId with
  | none => .ok none
  | some expr => match bloomNodeFromExpr node held expr with
    | .ok n => .ok (some n)
    | .error .valueError => .ok none
    | .error e => .error e

end Reading

section RoundTrip

variable {node : Node} {held : Option Bytes} {n : NodeRecord}

/-- The node with the blocks that its pointers have where it is held. -/
def NodeRecord.within (held : Option Bytes) (n : NodeRecord) : NodeRecord :=
  { n with
    left := n.left.map (Pointer.within held)
    right := n.right.map (Pointer.within held) }

/-- The hashes of a node have 32 bytes, and its filter is that of its block. -/
structure NodeRecord.Sized (n : NodeRecord) : Prop where
  left : ∀ p, n.left = some p → p.Sized
  right : ∀ p, n.right = some p → p.Sized
  start : n.filter.startHash = n.startHash

theorem isNilTail_stored {e : Expr} (hne : e ≠ .nil) :
    isNilTail node (.loaded (e.stored node.blake3)) = false := by
  rw [stored_of_ne hne]
  cases e with
  | nil => exact absurd rfl hne
  | symbol s => simp [isNilTail, wireOf, Node.tag, Expr.builtinTag, Expr.base, Base.name]
  | bytes b => simp [isNilTail, wireOf, Node.tag, Expr.builtinTag, Expr.base, Base.name]
  | bytesOf e => simp [isNilTail, wireOf, Expr.headChild]
  | link v h t => simp [isNilTail, wireOf, Expr.headChild]

theorem Holds.first {e : Expr} {rest : List Child} (h : node.Holds (spine (.loaded e :: rest))) :
    node.Holds e :=
  h.mono fun c hc => by
    change c ∈ _ :: (e.cells ++ (payloadCells _ _ ++ (spine rest).cells))
    exact List.mem_cons_of_mem _ (List.mem_append_left _ hc)

theorem tailCell_spine {head next : Child} {rest : List Child}
    (h : node.Holds (spine (head :: next :: rest))) :
    tailCell node (some ((spine (head :: next :: rest)).stored node.blake3)) =
      some ((spine (next :: rest)).stored node.blake3) := by
  have hne : spine (next :: rest) ≠ .nil := fun hnil => by cases hnil
  rw [stored_spine]
  simp [tailCell, Expr.tailChild, childPart_of_holds h.rest hne, isNilTail_stored hne]

theorem tailCell_last (node : Node) (head : Child) :
    tailCell node (some ((spine [head]).stored node.blake3)) = none := by
  have hzero : node.hash (spine []) = zero32 := rfl
  rw [stored_spine]
  simp [tailCell, Expr.tailChild, childPart, hzero]

theorem headCell_spine {e : Expr} {rest : List Child}
    (h : node.Holds (spine (.loaded e :: rest))) :
    headCell node (some ((spine (.loaded e :: rest)).stored node.blake3)) =
      if e = .nil then none else some (e.stored node.blake3) := by
  rw [stored_spine]
  by_cases hne : e = .nil
  · subst hne
    have hzero : Child.hash node.blake3 (.loaded .nil) = zero32 := rfl
    simp [headCell, Expr.headChild, childPart, hzero]
  · have hpart := childPart_of_holds (Holds.first h) hne
    change childPart node (.byHash (Child.hash node.blake3 (.loaded e))) = _ at hpart
    rw [if_neg hne]
    simp only [headCell, Expr.headChild, hpart, Option.bind_eq_bind, Option.bind_some,
      isNilTail_stored hne]
    rfl

theorem readField_pointerItem {p : Pointer} (hnil : node.Holds .nil)
    (h : node.Holds (pointerItem p)) (hsized : p.Sized) :
    readField node ((pointerItem p).stored node.blake3) = .ok (some p) := by
  obtain ⟨id, block⟩ := p
  cases block with
  | none => exact readField_refTo hnil id
  | some block =>
    have htarget := storedRefTarget_ref h hsized.1 (hsized.2 block rfl)
    have hcell : pointerItem ⟨id, some block⟩ =
        link (.bytes block) (link (.bytes id) (link (.symbol "ref") .nil)) := rfl
    rw [hcell, readField, htarget]

theorem pointerItem_ne_nil (p : Pointer) : pointerItem p ≠ .nil := by
  obtain ⟨id, block⟩ := p
  cases block with
  | none => exact fun h => by cases h
  | some block => exact fun h => by cases h

theorem readChildItem_childItem {child : Option Pointer} (hnil : node.Holds .nil)
    (h : node.Holds (childItem child)) (hsized : ∀ p, child = some p → p.Sized) :
    readChildItem node held (if childItem child = .nil then none
      else some ((childItem child).stored node.blake3)) =
      .ok (child.map (Pointer.within held)) := by
  cases child with
  | none => rfl
  | some p =>
    have hread := readField_pointerItem hnil h (hsized p rfl)
    rw [childItem, if_neg (pointerItem_ne_nil p), readChildItem, hread]
    rfl

theorem filterCount_int {m : Int} (h : node.Holds (int_ m)) :
    filterCount node ((int_ m).stored node.blake3) = .ok m := by
  have hmem : Expr.bytes (encodeInt m) ∈ (int_ m).cells := by
    simp [int_, typed, Expr.cells, Child.cells, payloadCells, payload?, tagByteEncode]
  have hget : getExpr node (terminalHash node.blake3 2 (encodeInt m)) =
      some (.bytes (encodeInt m)) := h.get _ hmem
  have hzero : terminalHash node.blake3 2 (encodeInt m) ≠ zero32 := fun hz => by
    cases h.zero _ hmem hz
  rw [stored_int]
  simp [filterCount, Expr.value, Expr.headChild, childPart, hzero, hget, decodeInt_encodeInt]

/-- The tiers of a filter are read in their order. -/
theorem tiersFrom_spine {tiers : List Bytes} {head : Child} {fuel : Nat}
    (h : node.Holds (spine (head :: tiers.map fun tier => .loaded (.bytes tier))))
    (hfuel : tiers.length ≤ fuel) :
    tiersFrom node fuel (tailCell node
      (some ((spine (head :: tiers.map fun tier => .loaded (.bytes tier))).stored node.blake3))) =
      .ok tiers := by
  induction tiers generalizing head fuel with
  | nil =>
    rw [List.map_nil, tailCell_last, tiersFrom]
  | cons tier tiers ih =>
    obtain ⟨fuel, rfl⟩ := Nat.exists_eq_succ_of_ne_zero (Nat.ne_of_gt (Nat.zero_lt_of_lt hfuel))
    rw [List.map_cons] at h ⊢
    have hhead := headCell_spine h.rest
    rw [if_neg (fun hnil => by cases hnil)] at hhead
    rw [tailCell_spine h, tiersFrom, hhead,
      ih h.rest (Nat.le_of_succ_le_succ hfuel)]
    rfl

/-- A bloom node is read as it was written, with the block that holds it in the place of the blocks
that its pointers do not name. -/
theorem bloomNode_stored (h : node.Holds n.toExpr) (hsized : n.Sized)
    (hfuel : n.filter.tiers.length ≤ node.fuel) :
    bloomNodeFromExpr node held (n.toExpr.stored node.blake3) = .ok (n.within held) := by
  rw [NodeRecord.toExpr] at h ⊢
  have hnil : node.Holds .nil := h.rest.rest.rest.rest
  have hfilter : node.Holds (filterExpr n.filter) := Holds.first h.rest.rest.rest
  have hc₁ := headCell_spine h
  have hc₂ := headCell_spine h.rest
  have hc₃ := headCell_spine h.rest.rest
  have hc₄ := headCell_spine h.rest.rest.rest
  have hleft := @readChildItem_childItem _ held _ hnil (Holds.first h.rest) hsized.left
  have hright := @readChildItem_childItem _ held _ hnil (Holds.first h.rest.rest) hsized.right
  have hfilterNe : filterExpr n.filter ≠ .nil := fun hf => by cases hf
  have hintNe : int_ n.filter.count ≠ .nil := fun hf => by cases hf
  rw [if_neg hfilterNe] at hc₄
  have hcounted : tailCell node (some ((filterExpr n.filter).stored node.blake3)) =
      some ((spine (.loaded (int_ n.filter.count) ::
        n.filter.tiers.map fun tier => .loaded (.bytes tier))).stored node.blake3) :=
    tailCell_spine hfilter
  have hcount := headCell_spine hfilter.rest
  rw [if_neg hintNe] at hcount
  have htiers := tiersFrom_spine hfilter.rest hfuel
  have hint := filterCount_int (Holds.first hfilter.rest)
  rw [bloomNodeFromExpr]
  simp only [tailCell_spine h, tailCell_spine h.rest, tailCell_spine h.rest.rest, hc₁, hc₂, hc₃,
    hc₄, hcounted, hleft, hright, hcount, hint, htiers]
  have hsame : (⟨n.filter.count, n.filter.tiers, n.startHash⟩ : Filter) = n.filter := by
    rw [← hsized.start]
  have hread : n.within held = ⟨n.startHash, n.left.map (Pointer.within held),
      n.right.map (Pointer.within held), ⟨n.filter.count, n.filter.tiers, n.startHash⟩⟩ := by
    rw [hsame]
    rfl
  rw [hread]
  cases n.startHash with
  | none => rfl
  | some start =>
    rw [if_neg (fun hf => by cases hf)]
    rfl

/-- A node that holds the cells of a bloom node reads it by its hash. -/
theorem readBloomNode_stored (h : node.Holds n.toExpr) (hsized : n.Sized)
    (hfuel : n.filter.tiers.length ≤ node.fuel) :
    readBloomNode node held (node.hash n.toExpr) = .ok (some (n.within held)) := by
  rw [readBloomNode, h.self]
  simp only [bloomNode_stored h hsized hfuel]

end RoundTrip

end Astreum.Bloom
