import Astreum.Shapes
import Astreum.RadixCells

namespace Astreum

section Local

variable (node : Node)

/-- `part` of a `cell_reader` that does not use the network: a cell that is not held must not be
read as one that is not there. -/
def partLocal : Child → Py (Option Expr)
  | .loaded e => .ok (some e)
  | .byHash h =>
    if h = zero32 then .ok none
    else match getExpr node h with
      | some e => .ok (some e)
      | none => .error .valueError
  | .none => .ok none

/-- `stored_ref_target` with such a reader. -/
def storedRefTargetLocal (cell : Expr) : Py (Option Pointer) := do
  if node.tag cell ≠ "link" ∨ isNilTail node cell.tailChild = true then return none
  let some block := bytes32? (← partLocal node cell.headChild) | return none
  let some second ← partLocal node cell.tailChild | return none
  if node.tag second ≠ "link" then return none
  let some id := bytes32? (← partLocal node second.headChild) | return none
  let some third ← partLocal node second.tailChild | return none
  if node.tag third ≠ "link" then return none
  let marker ← partLocal node third.headChild
  if marker ≠ some (.symbol "ref") ∨ isNilTail node third.tailChild = false then return none
  return some ⟨id, some block⟩

variable (held : Option Bytes)

def readPointerLocal (cell : Expr) : Py Pointer := do
  match ← storedRefTargetLocal node cell with
  | some p => return p
  | none => return ⟨← node.hash? cell, held⟩

def readChildLocal (cell : Expr) : Py (Option Pointer) :=
  if cell = .nil then .ok none
  else do return some (← readPointerLocal node held cell)

def readValueLocal (cell : Expr) : Py (Option RadixValue) :=
  if cell = .nil then .ok none
  else do
    let p ← readPointerLocal node held cell
    if p.id = (← node.hash? cell) then return some (.expr cell p.block)
    else match getExpr node p.id with
      | some e => return some (.expr e p.block)
      | none => .error .valueError

def radixNodeLocalOf (elements : List Expr) : Py RadixNodeCells := do
  let [keyLen, key, child0, child1, value] := elements | .error .valueError
  expect ((← exprTagLocal node.blake3 keyLen) = "int")
  let keyLen ← (← getExprValue node keyLen).toInt
  expect ((← exprTagLocal node.blake3 key) = "bytes")
  let key ← (← getExprValue node key).toBytes
  let child0 ← readChildLocal node held child0
  let child1 ← readChildLocal node held child1
  let value ← readValueLocal node held value
  return ⟨keyLen, key, value, child0, child1⟩

/-- The five items of a node. -/
def radixElements (headHash : Bytes) : Py (List Expr) := do
  expect (headHash ≠ zero32)
  let some expr ← getExprList node headHash | .error .valueError
  let (elements, missed) ← resolveListExprs node expr
  expect (missed = [])
  return elements

/-- `get_radix_node_from_storage(local=True)`, under the block `held`. -/
def getRadixNodeLocal (headHash : Bytes) : Py RadixNodeCells := do
  radixNodeLocalOf node held (← radixElements node headHash)

end Local

section Bits

/-- `_bit`, with an index that counts from the end where it is negative. -/
def bitAt (buf : Bytes) (idx : Int) : Py Bool :=
  let i := Python.floorDiv idx 8
  let j := if i < 0 then i + buf.length else i
  if j < 0 then .error .indexError
  else match buf[j.toNat]? with
    | none => .error .indexError
    | some b => .ok (b.toNat.testBit (7 - Python.floorMod idx 8).toNat)

/-- The loop of `_match_prefix`. -/
def matchBits (bits key : Bytes) (offset : Int) : Nat → Nat → Py Bool
  | 0, _ => .ok true
  | n + 1, i => do
    if (← bitAt bits i) ≠ (← bitAt key (offset + i)) then return false
    matchBits bits key offset n (i + 1)

/-- `_match_prefix`. -/
def matchPrefix (bits : Bytes) (bitCount : Int) (key : Bytes) (offset : Int) : Py Bool :=
  if (key.length * 8 : Int) < offset + bitCount then .ok false
  else matchBits bits key offset bitCount.toNat 0

end Bits

section Finding

variable (node : Node)

/-- The nodes that a tree has read, under their hashes. -/
abbrev ReadNodes := Dict Bytes RadixNodeCells

/-- `fetch_node_from_radix_tree(local=True)`. -/
def fetchNodeLocal (nodes : ReadNodes) (h : Bytes) (block : Option Bytes) :
    Py (Option RadixNodeCells × ReadNodes) :=
  match nodes.get? h with
  | some n => .ok (some n, nodes)
  | none => match getExpr node h with
    | none => .ok (none, nodes)
    | some _ => match getRadixNodeLocal node block h with
      | .ok n => .ok (some n, nodes.insert h n)
      | .error .valueError => .ok (none, nodes)
      | .error err => .error err

/-- The loop of `_find_node`, from the node to fetch next. -/
def findNodeFrom (key : Bytes) : Nat → ReadNodes → Int → Bytes → Option Bytes →
    Py (Option RadixNodeCells × ReadNodes)
  | 0, _, _, _, _ => .error .outOfFuel
  | fuel + 1, nodes, pos, h, block => do
    match ← fetchNodeLocal node nodes h block with
    | (none, nodes) => return (none, nodes)
    | (some current, nodes) =>
      if (← matchPrefix current.key current.keyLen key pos) = false then return (none, nodes)
      if pos + current.keyLen = key.length * 8 then return (some current, nodes)
      match bitAt key (pos + current.keyLen) with
      | .error .indexError => return (none, nodes)
      | .error err => throw err
      | .ok next => match if next then current.child1 else current.child0 with
        | none => return (none, nodes)
        | some p => findNodeFrom key fuel nodes (pos + current.keyLen + 1) p.id p.block

/-- `_find_node(local=True)` in a tree that has read no node yet: the node and the nodes read. -/
def findNodeLocal (root key : Bytes) (offset : Int) : Py (Option RadixNodeCells × ReadNodes) :=
  if root = zero32 then .ok (none, .empty)
  else findNodeFrom node key node.fuel .empty offset root none

end Finding

section Walking

/-- An int and its payload. -/
def intRule : ShapeRule := .pair .send .hold

/-- `_POINTER`. -/
def pointerRule : ShapeRule := .pair .send (.pair .send (.pair .send .hold))

/-- `_RADIX_NODE_RULE`. -/
def radixNodeRule : ShapeRule :=
  .pair intRule (.pair .send (.pair pointerRule (.pair pointerRule (.pair (.rep .send) .hold))))

/-- `RADIX_NODE_SHAPE`. -/
def radixNodeShape : Bytes :=
  let pointer := [2, 1, 2, 1, 2, 1, 0]
  [2, 2, 1, 0, 2, 1] ++ (2 :: pointer) ++ (2 :: pointer) ++ [2, 3, 1, 0]

example : parseShape radixNodeShape = .ok radixNodeRule := by decide +kernel

variable (node : Node)

/-- `found.setdefault(expr.hash(), expr)` for one expr after the other. -/
def addFound : List Expr → List (Bytes × Expr) → Py (List (Bytes × Expr))
  | [], found => .ok found
  | e :: es, found => do
    let h ← node.hash? e
    addFound es (if h ∈ found.map Prod.fst then found else found ++ [(h, e)])

def walkNodes : List Bytes → List (Bytes × Expr) → Py (List (Bytes × Expr))
  | [], found => .ok found
  | h :: hs, found => do
    let (exprs, _) ← walkShape node radixNodeRule h
    walkNodes hs (← addFound node exprs found)

/-- `_value_exprs`. -/
def valueExprs (found : Option RadixNodeCells) (valueRule : Option ShapeRule) : Py (List Expr) :=
  match found.bind RadixNodeCells.value, valueRule with
  | some value, some rule => do
    let (exprs, _) ← walkShape node rule (value.pointer node.blake3).id
    return exprs
  | _, _ => return []

/-- `_value_rule`. -/
def valueRuleOf (valueShape : Bytes) : Py (Option ShapeRule) :=
  if valueShape = [] then .ok none else some <$> parseShape valueShape

def walkRadixKey (root key : Bytes) (offset : Int) (valueShape : Bytes) : Py (List Expr) := do
  let valueRule ← valueRuleOf valueShape
  if ¬(0 ≤ offset ∧ offset ≤ key.length * 8) then return []
  let (foundNode, nodes) ← findNodeLocal node root key offset
  let found ← walkNodes node (root :: nodes.keys.filter fun h => decide (h ≠ root)) []
  let found ← addFound node (← valueExprs node foundNode valueRule) found
  return found.map Prod.snd

end Walking

end Astreum
