import Astreum.StateRecords

namespace Astreum

/-- The value of a radix node: a cell or the hash of one, with the block that holds it. -/
inductive RadixValue where
  | expr (e : Expr) (block : Option Bytes)
  | hash (h : Bytes) (block : Option Bytes)

/-- A radix node as its cells tell it. An absent child or value is in no block. -/
structure RadixNodeCells where
  keyLen : Int
  key : Bytes
  value : Option RadixValue
  child0 : Option Pointer
  child1 : Option Pointer

/-- `ref_expr`. -/
def refExpr (block id : Bytes) : Expr :=
  link (.bytes block) (link (.bytes id) (link (.symbol "ref") .nil))

/-- The head that stands for a pointer: its hash, or a ref to the block that holds it. -/
def Pointer.head (p : Pointer) : Child :=
  match p.block with
  | none => .byHash p.id
  | some block => .loaded (refExpr block p.id)

section Writing

variable (blake3 : Bytes → Bytes)

def RadixValue.pointer : RadixValue → Pointer
  | expr e block => ⟨e.hash blake3, block⟩
  | hash h block => ⟨h, block⟩

def RadixValue.head : RadixValue → Child
  | expr e none => .loaded e
  | v => (v.pointer blake3).head

/-- A pointer that may be absent, which is written as nil. -/
def headOf (p : Option Pointer) : Child :=
  match p with
  | some p => p.head
  | none => .loaded .nil

/-- The head of the cell of a value. -/
def valueHead : Option RadixValue → Child
  | some v => v.head blake3
  | none => .loaded .nil

/-- The heads of the five cells of a node. -/
def RadixNodeCells.heads (n : RadixNodeCells) : List Child :=
  [.loaded (int_ n.keyLen), .loaded (.bytes n.key), headOf n.child0, headOf n.child1,
    valueHead blake3 n.value]

/-- `convert_radix_node_to_expr`. -/
def RadixNodeCells.toExpr (n : RadixNodeCells) : Expr := spine (n.heads blake3)

end Writing

section Reading

variable (node : Node) (held : Option Bytes)

/-- `read_pointer`: a ref names its cell and block, any other cell is the target. -/
def readPointer (cell : Expr) : Py Pointer :=
  match storedRefTarget node cell with
  | some p => .ok p
  | none => do return ⟨← node.hash? cell, held⟩

def readChild (cell : Expr) : Py (Option Pointer) :=
  if cell = .nil then .ok none
  else do return some (← readPointer node held cell)

def readValue (cell : Expr) : Py (Option RadixValue) :=
  if cell = .nil then .ok none
  else do
    let p ← readPointer node held cell
    if p.id = (← node.hash? cell) then return some (.expr cell p.block)
    else match getExpr node p.id with
      | some e => return some (.expr e p.block)
      | none => .error .valueError

def radixNodeOf (elements : List Expr) : Py RadixNodeCells := do
  let [keyLen, key, child0, child1, value] := elements | .error .valueError
  expect ((← exprTagLocal node.blake3 keyLen) = "int")
  let keyLen ← (← getExprValue node keyLen).toInt
  expect ((← exprTagLocal node.blake3 key) = "bytes")
  let key ← (← getExprValue node key).toBytes
  let child0 ← readChild node held child0
  let child1 ← readChild node held child1
  let value ← readValue node held value
  return ⟨keyLen, key, value, child0, child1⟩

/-- `get_radix_node_from_storage`, under the block `held`. -/
def getRadixNodeFromStorage (headHash : Bytes) : Py RadixNodeCells := do
  expect (headHash ≠ zero32)
  let some expr ← getExprList node headHash | .error .valueError
  let (elements, missed) ← resolveListExprs node expr
  expect (missed = [])
  radixNodeOf node held elements

end Reading

section RoundTrip

/-- A pointer as it is read: a hash without a block is in the block that holds the node. -/
def Pointer.within (held : Option Bytes) (p : Pointer) : Pointer := ⟨p.id, p.block.or held⟩

/-- The node is read back with the same key, and its children and its value with the same hashes
and in the same blocks. -/
def RadixNodeCells.ReadBack (n : RadixNodeCells) (node : Node) (held : Option Bytes) : Prop :=
  ∃ r, getRadixNodeFromStorage node held (node.hash (n.toExpr node.blake3)) = .ok r ∧
    r.keyLen = n.keyLen ∧ r.key = n.key ∧
    r.child0 = n.child0.map (Pointer.within held) ∧
    r.child1 = n.child1.map (Pointer.within held) ∧
    r.value.map (RadixValue.pointer node.blake3) =
      n.value.map fun v => (v.pointer node.blake3).within held

/-- A pointer without a block names a cell that the node has, is not nil and is taken for no ref to
anything else. -/
def NamesPlain (node : Node) (held : Option Bytes) (p : Pointer) : Prop :=
  p.block = none → ∃ c, getExpr node p.id = some c ∧ c ≠ .nil ∧
    ∀ q, storedRefTarget node c = some q → q = p.within held

/-- What the cells of a node tell: every pointer without a block names a plain cell, and the cell of
the value is there. -/
structure RadixNodeCells.Told (n : RadixNodeCells) (node : Node) (held : Option Bytes) : Prop where
  child0 : ∀ p, n.child0 = some p → NamesPlain node held p
  child1 : ∀ p, n.child1 = some p → NamesPlain node held p
  value : ∀ v, n.value = some v → NamesPlain node held (v.pointer node.blake3) ∧
    (getExpr node (v.pointer node.blake3).id).isSome

/-- The hashes of a node have 32 bytes. -/
structure RadixNodeCells.Sized (n : RadixNodeCells) (blake3 : Bytes → Bytes) : Prop where
  child0 : ∀ p, n.child0 = some p → p.Sized
  child1 : ∀ p, n.child1 = some p → p.Sized
  value : ∀ v, n.value = some v → (v.pointer blake3).Sized

variable {node : Node} {held : Option Bytes} {n : RadixNodeCells} {p : Pointer} {c : Expr}
  {block id : Bytes}

theorem readPointer_ref {block id : Bytes} (h : node.Holds (refExpr block id))
    (hid : id.length = 32) (hblock : block.length = 32) :
    readPointer node held ((refExpr block id).stored node.blake3) = .ok ⟨id, some block⟩ := by
  rw [readPointer, refExpr, storedRefTarget_ref h hid hblock]

/-- What is read of a cell that is no ref to anything else is the cell. -/
theorem readPointer_eq_iff (hcell : node.hash? c = .ok p.id) (hblock : p.block = none) :
    readPointer node held c = .ok (p.within held) ↔
      ∀ q, storedRefTarget node c = some q → q = p.within held := by
  rw [readPointer]
  cases htarget : storedRefTarget node c with
  | some q => simp
  | none =>
    rw [hcell]
    simp [Pointer.within, hblock]

/-- A child is read as it was written exactly if its cell is plain. -/
theorem readChild_iff (hcontent : ∀ x c, getExpr node x = some c → node.hash? c = .ok x)
    (hget : getExpr node p.id = some c) (hblock : p.block = none) :
    readChild node held c = .ok (some (p.within held)) ↔ NamesPlain node held p := by
  have hcell := hcontent _ _ hget
  rw [readChild]
  constructor
  · intro h _
    split at h
    · cases h
    · rename_i hne
      refine ⟨c, hget, hne, (readPointer_eq_iff hcell hblock).mp ?_⟩
      obtain ⟨q, hq, hsome⟩ := except_bind_eq_ok.mp h
      rw [hq, Option.some.inj (Except.ok.inj hsome)]
  · intro h
    obtain ⟨c', hget', hne, hplain⟩ := h hblock
    obtain rfl := Option.some.inj (hget.symm.trans hget')
    rw [if_neg hne, (readPointer_eq_iff hcell hblock).mpr hplain]
    rfl

theorem Node.Holds.ref (h : node.Holds (refExpr block id)) :
    getExpr node ((Child.loaded (refExpr block id)).hash node.blake3) =
      some ((refExpr block id).stored node.blake3) := h.self

/-- A child is found and read as it was written exactly if it names a plain cell. -/
theorem child_iff {child : Option Pointer} (hsized : ∀ p, child = some p → p.Sized)
    (hcontent : ∀ x c, getExpr node x = some c → node.hash? c = .ok x)
    (hholds : ∀ e, headOf child = .loaded e → node.Holds e) :
    (∀ p, child = some p → NamesPlain node held p) ↔
      ∃ c, getExpr node ((headOf child).hash node.blake3) = some c ∧
        readChild node held c = .ok (child.map (Pointer.within held)) := by
  cases child with
  | none => exact ⟨fun _ => ⟨.nil, rfl, rfl⟩, fun _ p hp => by cases hp⟩
  | some p =>
    obtain ⟨id, block⟩ := p
    have hthis : (∀ p, some (⟨id, block⟩ : Pointer) = some p → NamesPlain node held p) ↔
        NamesPlain node held ⟨id, block⟩ := by
      constructor
      · exact fun h => h _ rfl
      · rintro h p hp
        rwa [← Option.some.inj hp]
    rw [hthis]
    cases block with
    | none =>
      constructor
      · intro h
        obtain ⟨c, hget, -⟩ := h rfl
        exact ⟨c, hget, (readChild_iff hcontent hget rfl).mpr h⟩
      · rintro ⟨c, hget, hread⟩
        exact (readChild_iff hcontent hget rfl).mp hread
    | some block =>
      have hsize := hsized _ rfl
      have href : node.Holds (refExpr block id) := hholds _ rfl
      refine ⟨fun _ => ⟨_, href.ref, ?_⟩, fun _ hnone => by cases hnone⟩
      rw [readChild, if_neg (stored_ne_nil (by simp [refExpr, link]) _),
        readPointer_ref href hsize.1 (hsize.2 block rfl)]
      rfl

theorem hash_of_hash? {x : Bytes} (h : node.hash? c = .ok x) : c.hash node.blake3 = x := by
  rw [Node.hash?] at h
  split at h
  · exact Except.ok.inj h
  · cases h

/-- A value is read with the pointer that its cell gives, if the cell that this names is there. -/
theorem readValue_iff (hcontent : ∀ x c, getExpr node x = some c → node.hash? c = .ok x)
    {x : Bytes} {q : Pointer} (hget : getExpr node x = some c) (hne : c ≠ .nil)
    (hread : readPointer node held c = .ok q) :
    (∃ r, readValue node held c = .ok r ∧ r.map (RadixValue.pointer node.blake3) = some p) ↔
      q = p ∧ (getExpr node q.id).isSome := by
  have hcell := hcontent _ _ hget
  have hvalue : readValue node held c = if q.id = x then .ok (some (.expr c q.block))
      else match getExpr node q.id with
        | some e => .ok (some (.expr e q.block))
        | none => .error .valueError := by
    rw [readValue, if_neg hne, hread]
    simp only [py_ok_bind, hcell]
    rfl
  rw [hvalue]
  by_cases hid : q.id = x
  · have hpointer : RadixValue.pointer node.blake3 (.expr c q.block) = q := by
      rw [RadixValue.pointer, hash_of_hash? hcell, ← hid]
    simp [hpointer, hid, hget]
  · rw [if_neg hid]
    cases hgetq : getExpr node q.id with
    | none => simp
    | some e =>
      have hpointer : RadixValue.pointer node.blake3 (.expr e q.block) = q := by
        rw [RadixValue.pointer, hash_of_hash? (hcontent _ _ hgetq)]
      simp [hpointer]

/-- A value is found and read as it was written exactly if it names a plain cell that is there. -/
theorem value_iff {value : Option RadixValue}
    (hsized : ∀ v, value = some v → (v.pointer node.blake3).Sized)
    (hcontent : ∀ x c, getExpr node x = some c → node.hash? c = .ok x)
    (hholds : ∀ e, valueHead node.blake3 value = .loaded e → node.Holds e) :
    (∀ v, value = some v → NamesPlain node held (v.pointer node.blake3) ∧
      (getExpr node (v.pointer node.blake3).id).isSome) ↔
      ∃ c, getExpr node ((valueHead node.blake3 value).hash node.blake3) = some c ∧
        ∃ r, readValue node held c = .ok r ∧ r.map (RadixValue.pointer node.blake3) =
          value.map fun v => (v.pointer node.blake3).within held := by
  cases value with
  | none => exact ⟨fun _ => ⟨.nil, rfl, none, rfl, rfl⟩, fun _ v hv => by cases hv⟩
  | some v =>
    have hthis : ∀ P : RadixValue → Prop, (∀ w, some v = some w → P w) ↔ P v := by
      intro P
      constructor
      · exact fun h => h _ rfl
      · rintro h w hw
        rwa [← Option.some.inj hw]
    rw [hthis]
    have hsize := hsized _ rfl
    cases hblock : (v.pointer node.blake3).block with
    | none =>
      have hhead : (valueHead node.blake3 (some v)).hash node.blake3 =
          (v.pointer node.blake3).id := by
        cases v with
        | expr e block =>
          cases block with
          | none => rfl
          | some block => cases hblock
        | hash h block =>
          cases block with
          | none => rfl
          | some block => cases hblock
      rw [hhead]
      constructor
      · rintro ⟨hnames, -⟩
        obtain ⟨c, hget, hne, hplain⟩ := hnames hblock
        have hread := (readPointer_eq_iff (hcontent _ _ hget) hblock).mpr hplain
        have hsome : (getExpr node ((v.pointer node.blake3).within held).id).isSome := by
          rw [Pointer.within, hget]
          rfl
        exact ⟨c, hget, (readValue_iff hcontent hget hne hread).mpr ⟨rfl, hsome⟩⟩
      · rintro ⟨c, hget, r, hr, hpointer⟩
        have hne : c ≠ .nil := by
          rintro rfl
          cases hr
          cases hpointer
        obtain ⟨q, hread⟩ : ∃ q, readPointer node held c = .ok q := by
          rw [readValue, if_neg hne] at hr
          obtain ⟨q, hq, -⟩ := except_bind_eq_ok.mp hr
          exact ⟨q, hq⟩
        obtain ⟨rfl, -⟩ := (readValue_iff hcontent hget hne hread).mp ⟨r, hr, hpointer⟩
        refine ⟨fun _ => ⟨c, hget, hne, ?_⟩, by rw [hget]; rfl⟩
        exact (readPointer_eq_iff (hcontent _ _ hget) hblock).mp hread
    | some block =>
      have hhead : valueHead node.blake3 (some v) =
          .loaded (refExpr block (v.pointer node.blake3).id) := by
        cases v with
        | expr e block' =>
          cases hblock
          rfl
        | hash h block' =>
          cases hblock
          rfl
      have hwithin : (v.pointer node.blake3).within held =
          ⟨(v.pointer node.blake3).id, some block⟩ := by
        rw [Pointer.within, hblock]
        rfl
      have href : node.Holds (refExpr block (v.pointer node.blake3).id) := hholds _ hhead
      have hread : readPointer node held _ = .ok _ :=
        readPointer_ref href hsize.1 (hsize.2 block hblock)
      have hne := stored_ne_nil (e := refExpr block (v.pointer node.blake3).id)
        (by simp [refExpr, link]) node.blake3
      rw [hhead]
      constructor
      · rintro ⟨-, hsome⟩
        refine ⟨_, href.ref, (readValue_iff hcontent href.self hne hread).mpr ⟨?_, hsome⟩⟩
        exact hwithin.symm
      · rintro ⟨c, hget, hr⟩
        obtain rfl := Option.some.inj (href.ref.symm.trans hget)
        obtain ⟨-, hsome⟩ := (readValue_iff hcontent href.self hne hread).mp hr
        exact ⟨fun hnone => absurd (hblock.symm.trans hnone) (by simp), hsome⟩

/-- Where everything is found, it is found in its order, and nothing is missed. -/
theorem fetched_eq {xs : List Bytes} {es : List Expr} (h : xs.map (getExpr node) = es.map some) :
    fetched node xs = (es, []) := by
  induction xs generalizing es with
  | nil =>
    cases es with
    | nil => rfl
    | cons e es => cases h
  | cons x xs ih =>
    cases es with
    | nil => cases h
    | cons e es =>
      obtain ⟨hx, hxs⟩ := List.cons.inj h
      rw [fetched_cons, ih hxs]
      simp [fetched, hx]

theorem fetched_missed {xs : List Bytes} {x : Bytes} (hx : x ∈ xs) (h : getExpr node x = none) :
    (fetched node xs).2 ≠ [] := by
  have hmem : x ∈ (fetched node xs).2 := List.mem_filter.mpr ⟨hx, by rw [h]; rfl⟩
  exact List.ne_nil_of_mem hmem

theorem exprTagLocal_int {m : Int} (h : node.Holds (int_ m)) :
    exprTagLocal node.blake3 ((int_ m).stored node.blake3) = .ok "int" := by
  rw [stored_int]
  simp [exprTagLocal, Expr.base, Expr.tailChild, h.intType, builtinTypeOfHash_int]

/-- A node whose five cells are found is read field by field. -/
theorem radixNodeOf_eq {c₀ c₁ v : Expr} (hlen : node.Holds (int_ n.keyLen)) :
    radixNodeOf node held [(int_ n.keyLen).stored node.blake3, .bytes n.key, c₀, c₁, v] = (do
      let child0 ← readChild node held c₀
      let child1 ← readChild node held c₁
      let value ← readValue node held v
      return ⟨n.keyLen, n.key, value, child0, child1⟩) := by
  rw [radixNodeOf, exprTagLocal_int hlen, getExprValue_int hlen]
  rfl

theorem toExpr_holds_head {e : Expr} (h : node.Holds (n.toExpr node.blake3))
    (he : Child.loaded e ∈ n.heads node.blake3) : node.Holds e := by
  have hspine : ∀ {heads : List Child}, node.Holds (spine heads) → Child.loaded e ∈ heads →
      node.Holds e := by
    intro heads
    induction heads with
    | nil => exact fun _ hmem => by cases hmem
    | cons head heads ih =>
      intro hholds hmem
      rcases List.mem_cons.mp hmem with rfl | hmem
      · exact hholds.mono fun c hc => List.mem_cons_of_mem _ (List.mem_append_left _ hc)
      · exact ih hholds.rest hmem
  exact hspine h he

/-- The node that is read: every head is found, and the fields are those of the cells found. -/
theorem getRadixNode_eq_ok (h : node.Holds (n.toExpr node.blake3)) (hfuel : 5 < node.fuel)
    {r : RadixNodeCells} :
    getRadixNodeFromStorage node held (node.hash (n.toExpr node.blake3)) = .ok r ↔
      r.keyLen = n.keyLen ∧ r.key = n.key ∧
      (∃ c, getExpr node ((headOf n.child0).hash node.blake3) = some c ∧
        readChild node held c = .ok r.child0) ∧
      (∃ c, getExpr node ((headOf n.child1).hash node.blake3) = some c ∧
        readChild node held c = .ok r.child1) ∧
      ∃ c, getExpr node ((valueHead node.blake3 n.value).hash node.blake3) = some c ∧
        readValue node held c = .ok r.value := by
  have hlen : node.Holds (int_ n.keyLen) := toExpr_holds_head h (by simp [RadixNodeCells.heads])
  have hkey : node.Holds (.bytes n.key) := toExpr_holds_head h (by simp [RadixNodeCells.heads])
  let xs := [(headOf n.child0).hash node.blake3, (headOf n.child1).hash node.blake3,
    (valueHead node.blake3 n.value).hash node.blake3]
  have hlist := getExprListFrom_spine _ h (show 4 < node.fuel by omega)
  have hresolve := resolveListFrom_listed node (node.hash (int_ n.keyLen))
    (node.hash (.bytes n.key) :: xs) (show 4 < node.fuel by omega)
  have hzero : node.hash (n.toExpr node.blake3) ≠ zero32 := hash_spine_ne_zero h
  have hget : getRadixNodeFromStorage node held (node.hash (n.toExpr node.blake3)) = (do
      expect ((fetched node (node.hash (int_ n.keyLen) :: node.hash (.bytes n.key) :: xs)).2 = [])
      radixNodeOf node held
        (fetched node (node.hash (int_ n.keyLen) :: node.hash (.bytes n.key) :: xs)).1) := by
    rw [getRadixNodeFromStorage, getExprList, h.self]
    change (do
      expect (node.hash (n.toExpr node.blake3) ≠ zero32)
      let some expr ← getExprListFrom node node.fuel ((n.toExpr node.blake3).stored node.blake3)
        | .error .valueError
      let (elements, missed) ← resolveListExprs node expr
      expect (missed = [])
      radixNodeOf node held elements : Py RadixNodeCells) = _
    rw [show getExprListFrom node node.fuel ((n.toExpr node.blake3).stored node.blake3) = _ from
      hlist]
    rw [expect, if_pos hzero]
    simp only [py_ok_bind]
    rw [resolveListExprs]
    exact congrArg (fun x => x >>= fun p => (do
      expect (p.2 = [])
      radixNodeOf node held p.1 : Py RadixNodeCells)) hresolve
  rw [hget]
  have hself : getExpr node (node.hash (int_ n.keyLen)) =
      some ((int_ n.keyLen).stored node.blake3) := hlen.self
  have hbytes : getExpr node (node.hash (.bytes n.key)) = some (.bytes n.key) := hkey.self
  constructor
  · intro hok
    obtain ⟨_, hnone, hread⟩ := except_bind_eq_ok.mp hok
    have hmissed : (fetched node (node.hash (int_ n.keyLen) :: node.hash (.bytes n.key) :: xs)).2 =
        [] := expect_eq_ok.mp hnone
    have hfound : ∀ x ∈ xs, ∃ c, getExpr node x = some c := by
      intro x hx
      cases hx' : getExpr node x with
      | some c => exact ⟨c, rfl⟩
      | none =>
        exact absurd hmissed
          (fetched_missed (List.mem_cons_of_mem _ (List.mem_cons_of_mem _ hx)) hx')
    obtain ⟨c₀, hc₀⟩ := hfound _ List.mem_cons_self
    obtain ⟨c₁, hc₁⟩ := hfound _ (List.mem_cons_of_mem _ List.mem_cons_self)
    obtain ⟨v, hv⟩ := hfound _
      (List.mem_cons_of_mem _ (List.mem_cons_of_mem _ List.mem_cons_self))
    have hall : fetched node (node.hash (int_ n.keyLen) :: node.hash (.bytes n.key) :: xs) =
        ([(int_ n.keyLen).stored node.blake3, .bytes n.key, c₀, c₁, v], []) :=
      fetched_eq (by simp [xs, hself, hbytes, hc₀, hc₁, hv])
    rw [hall, radixNodeOf_eq hlen] at hread
    obtain ⟨child0, h₀, hread⟩ := except_bind_eq_ok.mp hread
    obtain ⟨child1, h₁, hread⟩ := except_bind_eq_ok.mp hread
    obtain ⟨value, hvalue, hread⟩ := except_bind_eq_ok.mp hread
    obtain rfl := Except.ok.inj hread
    exact ⟨rfl, rfl, ⟨c₀, hc₀, h₀⟩, ⟨c₁, hc₁, h₁⟩, v, hv, hvalue⟩
  · rintro ⟨hkeyLen, hkey, ⟨c₀, hc₀, h₀⟩, ⟨c₁, hc₁, h₁⟩, v, hv, hvalue⟩
    have hall : fetched node (node.hash (int_ n.keyLen) :: node.hash (.bytes n.key) :: xs) =
        ([(int_ n.keyLen).stored node.blake3, .bytes n.key, c₀, c₁, v], []) :=
      fetched_eq (by simp [xs, hself, hbytes, hc₀, hc₁, hv])
    rw [hall, radixNodeOf_eq hlen, h₀, h₁, hvalue, ← hkeyLen, ← hkey]
    rfl

/-- Read under the block that holds it, a node is as it was written exactly if what it names without
a block is held and is neither nil nor a ref, and its value is there. -/
theorem radix_node_round_trip_iff (hholds : node.Holds (n.toExpr node.blake3))
    (hcontent : ∀ x c, getExpr node x = some c → node.hash? c = .ok x)
    (hsized : n.Sized node.blake3) (hfuel : 5 < node.fuel) :
    n.ReadBack node held ↔ n.Told node held := by
  have hchild0 : ∀ e, headOf n.child0 = .loaded e → node.Holds e := fun e he =>
    toExpr_holds_head hholds (by simp [RadixNodeCells.heads, he])
  have hchild1 : ∀ e, headOf n.child1 = .loaded e → node.Holds e := fun e he =>
    toExpr_holds_head hholds (by simp [RadixNodeCells.heads, he])
  have hvalue : ∀ e, valueHead node.blake3 n.value = .loaded e → node.Holds e := fun e he =>
    toExpr_holds_head hholds (by simp [RadixNodeCells.heads, he])
  have htold : n.Told node held ↔ _ ∧ _ ∧ _ :=
    ⟨fun h => ⟨h.child0, h.child1, h.value⟩, fun h => ⟨h.1, h.2.1, h.2.2⟩⟩
  rw [htold, child_iff hsized.child0 hcontent hchild0, child_iff hsized.child1 hcontent hchild1,
    value_iff hsized.value hcontent hvalue]
  constructor
  · rintro ⟨r, hr, -, -, hc₀, hc₁, hv⟩
    obtain ⟨-, -, ⟨c₀, hget₀, hread₀⟩, ⟨c₁, hget₁, hread₁⟩, v, hgetv, hreadv⟩ :=
      (getRadixNode_eq_ok hholds hfuel).mp hr
    exact ⟨⟨c₀, hget₀, hc₀ ▸ hread₀⟩, ⟨c₁, hget₁, hc₁ ▸ hread₁⟩, v, hgetv, r.value, hreadv, hv⟩
  · rintro ⟨h₀, h₁, v, hgetv, value, hreadv, hv⟩
    exact ⟨⟨n.keyLen, n.key, value, _, _⟩, (getRadixNode_eq_ok hholds hfuel).mpr
      ⟨rfl, rfl, h₀, h₁, v, hgetv, hreadv⟩, rfl, rfl, rfl, rfl, hv⟩

end RoundTrip

section Samples

/-- A leaf with a value. -/
def leafOf (value : Expr) : Expr :=
  RadixNodeCells.toExpr sampleDigest ⟨8, [1], some (.expr value none), none, none⟩

/-- An inner node with a value, a new child and a child in an older block. -/
def innerNode : RadixNodeCells where
  keyLen := 3
  key := [160]
  value := some (.expr (int_ 5) none)
  child0 := some ⟨(leafOf (int_ 1)).hash sampleDigest, none⟩
  child1 := some ⟨List.replicate 32 7, some (List.replicate 32 9)⟩

def innerCells : List Expr := (innerNode.toExpr sampleDigest).cells ++ (leafOf (int_ 1)).cells

theorem inner_node_is_read_back :
    innerNode.ReadBack ((sampleNode 10).storing innerCells) (some (List.replicate 32 3)) := by
  have hdigest : ∀ x, (sampleDigest x).length = 32 := fun x => by simp [sampleDigest]
  have hleaf : (leafOf (int_ 1)).Writable := .inl ⟨rfl, writable_int 8, .inl ⟨rfl, trivial,
    .inl ⟨rfl, trivial, .inl ⟨rfl, trivial, .inl ⟨rfl, writable_int 1, trivial⟩⟩⟩⟩⟩
  have href : (refExpr (List.replicate 32 9) (List.replicate 32 7)).Writable :=
    writable_link trivial (writable_link trivial (writable_link trivial trivial))
  have hinner : (innerNode.toExpr sampleDigest).Writable := .inl ⟨rfl, writable_int 3, .inl ⟨rfl,
    trivial, .inl ⟨rfl, length_hash_of_writable hdigest hleaf, .inl ⟨rfl, href,
      .inl ⟨rfl, writable_int 5, trivial⟩⟩⟩⟩⟩
  have hcells : ∀ c ∈ innerCells, c.Writable := fun c hc => (List.mem_append.mp hc).elim
    (Expr.cells_writable _ hinner c) (Expr.cells_writable _ hleaf c)
  have hapart : DistinctHashes sampleDigest innerCells :=
    ⟨by decide +kernel, by decide +kernel, by decide +kernel⟩
  let node := (sampleNode 10).storing innerCells
  have hholds : node.Holds (innerNode.toExpr sampleDigest) :=
    holds_storing hdigest hcells hapart (List.subset_append_left _ _)
  have hleafHolds : node.Holds (leafOf (int_ 1)) :=
    holds_storing hdigest hcells hapart (List.subset_append_right _ _)
  have hint : node.Holds (int_ 5) :=
    toExpr_holds_head (n := innerNode) hholds (by
      simp [RadixNodeCells.heads, innerNode, valueHead, RadixValue.head])
  have hplain : ∀ e : Expr, node.Holds e → e ≠ .nil →
      storedRefTarget ((sampleNode 10).storing innerCells) (e.stored sampleDigest) = none →
      NamesPlain node (some (List.replicate 32 3)) ⟨e.hash sampleDigest, none⟩ := by
    intro e he hne hnone _
    refine ⟨_, he.self, stored_ne_nil hne _, fun q hq => ?_⟩
    cases hnone.symm.trans hq
  refine (@radix_node_round_trip_iff node _ innerNode hholds
    (fun x c hget => content_storing hdigest hcells hget) ⟨?_, ?_, ?_⟩ (by decide)).mpr
    ⟨?_, ?_, ?_⟩
  · intro p hp
    obtain rfl := Option.some.inj hp
    exact ⟨length_hash_of_writable hdigest hleaf, fun b hb => by cases hb⟩
  · intro p hp
    obtain rfl := Option.some.inj hp
    exact ⟨by decide, fun b hb => by cases hb; decide⟩
  · intro v hv
    obtain rfl := Option.some.inj hv
    exact ⟨length_hash_of_writable hdigest (writable_int 5), fun b hb => by cases hb⟩
  · intro p hp
    obtain rfl := Option.some.inj hp
    exact hplain _ hleafHolds (by decide) (by decide +kernel)
  · intro p hp
    obtain rfl := Option.some.inj hp
    intro hnone
    cases hnone
  · intro v hv
    obtain rfl := Option.some.inj hv
    exact ⟨hplain _ hint (by decide) (by decide +kernel),
      Option.isSome_iff_exists.mpr ⟨_, hint.self⟩⟩

/-- The list of a block, of the cell of the number 5 and of the symbol `ref`. -/
def refValue : Expr := refExpr (List.replicate 32 9) ((int_ 5).hash sampleDigest)

def refCells : List Expr := (leafOf refValue).cells ++ (int_ 5).cells

/-- A value that is the list of a block, a cell and `ref` is taken for a ref to the cell, and a
value that is nil for no value. -/
theorem ref_value_is_taken_for_its_target :
    let leaf (value : Expr) : RadixNodeCells := ⟨8, [1], some (.expr value none), none, none⟩
    ¬ (leaf refValue).ReadBack ((sampleNode 10).storing refCells) none ∧
    ¬ (leaf .nil).ReadBack ((sampleNode 10).storing (leafOf .nil).cells) none ∧
    (getRadixNodeFromStorage ((sampleNode 10).storing refCells) none
        ((leafOf refValue).hash sampleDigest)).map
          (fun r => r.value.map (RadixValue.pointer sampleDigest)) =
      .ok (some ⟨(int_ 5).hash sampleDigest, some (List.replicate 32 9)⟩) := by
  have hread : (getRadixNodeFromStorage ((sampleNode 10).storing refCells) none
      ((leafOf refValue).hash sampleDigest)).map
        (fun r => r.value.map (RadixValue.pointer sampleDigest)) =
      .ok (some ⟨(int_ 5).hash sampleDigest, some (List.replicate 32 9)⟩) := by decide +kernel
  have hnil : (getRadixNodeFromStorage ((sampleNode 10).storing (leafOf .nil).cells) none
      ((leafOf .nil).hash sampleDigest)).map
        (fun r => r.value.map (RadixValue.pointer sampleDigest)) = .ok none := by decide +kernel
  refine ⟨?_, ?_, hread⟩
  · rintro ⟨r, hr, -, -, -, -, hvalue⟩
    rw [show getRadixNodeFromStorage ((sampleNode 10).storing refCells) none
      ((leafOf refValue).hash sampleDigest) = .ok r from hr] at hread
    have hsame := hvalue.symm.trans (Except.ok.inj hread)
    exact absurd hsame (by decide +kernel)
  · rintro ⟨r, hr, -, -, -, -, hvalue⟩
    rw [show getRadixNodeFromStorage ((sampleNode 10).storing (leafOf .nil).cells) none
      ((leafOf .nil).hash sampleDigest) = .ok r from hr] at hnil
    have hsame := hvalue.symm.trans (Except.ok.inj hnil)
    cases hsame

end Samples

end Astreum
