import Astreum.Dict
import Astreum.Expr

namespace Astreum

/-- A value of a radix tree: a cell, or the hash of a cell, kept here with the cell it names. -/
inductive TreeValue where
  | expr (e : Expr)
  | hashOf (e : Expr)
  deriving DecidableEq

/-- A radix tree, seen as the map it stores. -/
abbrev Tree := Dict Bytes TreeValue

/-- What a node reads outside the block: its hash function, its stored cells (hot, cold and
network storage taken together), the trees stored under a root, the root of a tree and its cells in
memory, and Ed25519. `fuel` bounds the chains of cells that are followed. -/
structure Node where
  blake3 : Bytes → Bytes
  stored : Bytes → Option Expr
  openTree : Bytes → Tree
  treeRoot : Tree → Bytes
  treeCells : Tree → List Expr
  verify : (publicKey signature message : Bytes) → Bool
  fuel : Nat

section Cells

variable (node : Node)

def Node.hash (e : Expr) : Bytes := e.hash node.blake3

def Node.tag (e : Expr) : String := e.builtinTag node.blake3

/-- `e.hash()`, which fails on a bytes cell without bytes. -/
def Node.hash? (e : Expr) : Py Bytes :=
  if e.hashable then .ok (node.hash e) else .error .typeError

/-- `get_expr`: the nil hash and the type symbols are known without a read. -/
def getExpr (exprId : Bytes) : Option Expr :=
  if exprId = zero32 then some .nil
  else match node.stored exprId with
    | some e => some e
    | none => (builtinTypeOfHash node.blake3 exprId).map .symbol

/-- The tag a resolved tail gives to its link. -/
def tagOfTail : Expr → String
  | .symbol s => s
  | _ => "link"

/-- `get_expr_tag(expr)`, without a node to fetch a custom tag from. -/
def exprTagLocal (blake3 : Bytes → Bytes) (e : Expr) : Py String :=
  match e.base with
  | .link => match e.tailChild with
    | .loaded t => .ok (tagOfTail t)
    | .byHash h =>
      if h = zero32 then .ok "link"
      else match builtinTypeOfHash blake3 h with
        | some name => .ok name
        | none => .error .valueError
    | .none => .ok "link"
  | b => .ok b.name

/-- `get_expr_tag(expr, node)`. -/
def getExprTag (e : Expr) : Py String :=
  match e.base, e.tailChild with
  | .link, .byHash h =>
    if h = zero32 then .ok "link"
    else match builtinTypeOfHash node.blake3 h with
      | some name => .ok name
      | none => match getExpr node h with
        | some t => .ok (tagOfTail t)
        | none => .error .valueError
  | _, _ => exprTagLocal node.blake3 e

/-- The value a bytes head holds under `tag`, and any other head's own value. -/
def decodeHead (tag : Option String) (head : Expr) : Py Val :=
  match head with
  | .bytes b => match tag with
    | some t => if t ∈ builtinTypeNames then tagByteDecode t b else .ok (.raw b)
    | none => .ok (.raw b)
  | .bytesOf e => match tag with
    | some t => if t = "int" ∨ t = "fp64" then .error .typeError
      else if t = "str" ∨ t = "symbol" then .error .attributeError else .ok (.cell e)
    | none => .ok (.cell e)
  | head => .ok head.value

/-- `get_expr_value(expr, node)`. -/
def getExprValue (e : Expr) : Py Val :=
  match e.value with
  | .none => match e.headChild with
    | .loaded head => match getExprTag node e with
      | .ok tag => decodeHead (some tag) head
      | .error .valueError => decodeHead none head
      | .error err => .error err
    | .byHash h =>
      if h = zero32 then .error .valueError
      else match getExpr node h with
        | none => .error .valueError
        | some head => do
          let tag ← getExprTag node e
          decodeHead (some tag) head
    | .none => .error .valueError
  | v => .ok v

/-- The item a list cell holds, and the hash that could not be fetched. -/
def listItem (cell : Expr) : List Expr × List Bytes :=
  match cell.headChild with
  | .loaded h => ([h], [])
  | .byHash h =>
    if cell.value = .none then match getExpr node h with
      | some e => ([e], [])
      | none => ([], [h])
    else ([], [])
  | .none => ([], [])

/-- `resolve_list_exprs`, from the cell the walk has reached. -/
def resolveListFrom : Nat → Expr → Py (List Expr × List Bytes)
  | 0, _ => .error .outOfFuel
  | n + 1, current =>
    if current.base ≠ .link then .ok ([], [])
    else do
      let item := listItem node current
      let rest ← match current.tailChild with
        | .loaded t => resolveListFrom n t
        | .byHash h =>
          if h = zero32 then .ok ([], [])
          else match getExpr node h with
            | some t => resolveListFrom n t
            | none => .ok ([], [h])
        | .none => .ok ([], [])
      return (item.1 ++ rest.1, item.2 ++ rest.2)

def resolveListExprs (e : Expr) : Py (List Expr × List Bytes) := resolveListFrom node node.fuel e

/-- `get_expr_list`, from a cell already fetched: its tail chain, resolved. -/
def getExprListFrom : Nat → Expr → Py (Option Expr)
  | 0, _ => .error .outOfFuel
  | n + 1, e =>
    if node.tag e ≠ "link" then .ok (some e)
    else match e with
      | .link v h (.loaded t) => do
        let t ← getExprListFrom n t
        return t.map fun t => .link v h (.loaded t)
      | .link v h (.byHash x) =>
        if x = zero32 then .ok (some (.link v h .none))
        else match getExpr node x with
          | none => .ok none
          | some t => do
            let t ← getExprListFrom n t
            return t.map fun t => .link v h (.loaded t)
      | e => .ok (some e)

/-- `get_expr_list(node, root)` for a root known by hash. -/
def getExprList (root : Bytes) : Py (Option Expr) :=
  match getExpr node root with
  | none => .ok none
  | some e => getExprListFrom node node.fuel e

/-- What `resolve_inner_exprs` leaves behind: the resolved cell, every cell on the way in walk
order, and the hashes that could not be fetched. -/
structure Inner where
  cell : Child
  cells : List Expr
  missed : List Bytes

def resolveInnerFrom : Nat → Expr → Py Inner
  | 0, _ => .error .outOfFuel
  | n + 1, .link v h t => do
    let head ← match h with
      | .loaded e => resolveInnerFrom n e
      | .byHash x =>
        if v = .none then match getExpr node x with
          | some e => resolveInnerFrom n e
          | none => .ok ⟨h, [], [x]⟩
        else .ok ⟨h, [], []⟩
      | .none => .ok ⟨h, [], []⟩
    let tail ← match t with
      | .loaded e => resolveInnerFrom n e
      | .byHash x => match getExpr node x with
        | some e => resolveInnerFrom n e
        | none => .ok ⟨t, [], [x]⟩
      | .none => .ok ⟨t, [], []⟩
    let cell := Expr.link v head.cell tail.cell
    return ⟨.loaded cell, cell :: (head.cells ++ tail.cells), head.missed ++ tail.missed⟩
  | _ + 1, e => .ok ⟨.loaded e, [e], []⟩

def resolveInnerExprs (e : Expr) : Py (List Expr × List Bytes) := do
  let inner ← resolveInnerFrom node node.fuel e
  return (inner.cells, inner.missed)

/-- `get_expr_full`. -/
def getExprFullFrom : Nat → Bytes → Py (Option Expr)
  | 0, _ => .error .outOfFuel
  | n + 1, exprId =>
    match getExpr node exprId with
    | none => .ok none
    | some e =>
      if node.tag e ≠ "link" then .ok (some e)
      else match e with
        | .link v h t => do
          let head ← match h with
            | .byHash x => do
              let e ← getExprFullFrom n x
              pure (e.map .loaded)
            | h => pure (some h)
          match head with
          | none => return none
          | some head =>
            let tail ← match t with
              | .byHash x => do
                let e ← getExprFullFrom n x
                pure (e.map .loaded)
              | t => pure (some t)
            return tail.map fun tail => .link v head tail
        | e => .ok (some e)

def getExprFull (exprId : Bytes) : Py (Option Expr) := getExprFullFrom node node.fuel exprId

/-- `_data_nodes`: the loaded heads along a chain of plain links. -/
def dataNodes : Expr → List Expr
  | .link v h t =>
    if node.tag (.link v h t) ≠ "link" then []
    else
      (match h with
        | .loaded e => [e]
        | _ => []) ++
      (match t with
        | .loaded e => dataNodes e
        | _ => [])
  | _ => []

end Cells

section Trees

variable (node : Node)

/-- `get_from_radix_tree`: a value written as a hash is read from storage. -/
def getFromRadixTree (tree : Tree) (key : Bytes) : Option Expr :=
  match tree.get? key with
  | some (.expr e) => some e
  | some (.hashOf e) => getExpr node (node.hash e)
  | none => none

/-- Bits of a key, the most significant of each byte first. -/
def keyBits (key : Bytes) : List Bool :=
  key.flatMap fun b => (List.range 8).map fun i => b.toNat.testBit (7 - i)

/-- `key` ends inside the prefix of a tree node: some stored key goes on after it, and all that do
go on with the same bit. Splitting that node reads one bit past the end of `key`. -/
def endsInsideNode (tree : Tree) (key : Bytes) : Bool :=
  let bits := keyBits key
  let next := tree.keys.filterMap fun k =>
    if bits <+: keyBits k then (keyBits k)[bits.length]? else none
  (tree.get? key).isNone && (next.contains true != next.contains false)

/-- `put_in_radix_tree`. -/
def putInRadixTree (tree : Tree) (key : Bytes) (value : TreeValue) : Py Tree :=
  if endsInsideNode tree key then .error .indexError else .ok (tree.insert key value)

theorem putInRadixTree_eq_ok {tree tree' : Tree} {key : Bytes} {value : TreeValue}
    (h : putInRadixTree tree key value = .ok tree') : tree' = tree.insert key value := by
  rw [putInRadixTree] at h
  split at h
  · cases h
  · exact (Except.ok.inj h).symm

end Trees

end Astreum
