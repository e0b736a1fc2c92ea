import Astreum.RoundTrip
import Astreum.Records

namespace Astreum

/-- A check that raises a `ValueError`. -/
def expect (c : Prop) [Decidable c] : Py Unit := if c then .ok () else .error .valueError

theorem expect_eq_ok {c : Prop} [Decidable c] {u : Unit} : expect c = .ok u ↔ c := by
  by_cases hc : c <;> simp [expect, hc]

/-- A computation that gave a value goes on with it. -/
theorem py_ok_bind {α β : Type} (a : α) (f : α → Py β) : ((.ok a : Py α) >>= f) = f a := rfl

section Writing

mutual

/-- A cell whose children are cells or are known by hashes of 32 bytes, and whose values are those
of their types. -/
def Expr.Writable : Expr → Prop
  | .bytesOf _ => False
  | .link v h t => (v = .none ∧ h.Writable ∧ t.Writable) ∨
      (h = .none ∧ ∃ tag, t = .loaded (.symbol tag) ∧ holdsType tag v = true)
  | _ => True

def Child.Writable : Child → Prop
  | .none => True
  | .loaded e => e.Writable
  | .byHash x => x.length = 32

end

/-- A cell as a node that holds it gives it: nil as it is, any other as it was written. -/
def Expr.stored (blake3 : Bytes → Bytes) : Expr → Expr
  | .nil => .nil
  | e => wireOf blake3 e

/-- Different cells have different hashes, which are not those of nil and of the types. -/
structure DistinctHashes (blake3 : Bytes → Bytes) (cells : List Expr) : Prop where
  same : ∀ c ∈ cells, ∀ c' ∈ cells, c.hash blake3 = c'.hash blake3 →
    c.stored blake3 = c'.stored blake3
  zero : ∀ c ∈ cells, c.hash blake3 = zero32 → c = .nil
  type : ∀ c ∈ cells, ∀ tag ∈ builtinTypeNames,
    c.hash blake3 = terminalHash blake3 1 (utf8 tag) → c = .symbol tag

/-- What is stored under a hash, once the cells have been put one by one. -/
def storedAmong (blake3 : Bytes → Bytes) (cells : List Expr) (h : Bytes) : Option Expr :=
  (cells.find? fun c => c.hash blake3 == h).bind fun c =>
    (decodeExprFromBytes (encodeExprToBytes blake3 c)).toOption

/-- What is stored is one of the cells, under its own hash. -/
theorem storedAmong_eq_some {blake3 : Bytes → Bytes} {cells : List Expr} {h : Bytes} {e : Expr}
    (hstored : storedAmong blake3 cells h = some e) : ∃ c ∈ cells, c.hash blake3 = h ∧
      (decodeExprFromBytes (encodeExprToBytes blake3 c)).toOption = some e := by
  obtain ⟨c, hfind, hdecode⟩ := Option.bind_eq_some_iff.mp hstored
  have hhash : c.hash blake3 = h := by simpa using List.find?_some hfind
  exact ⟨c, List.mem_of_find?_eq_some hfind, hhash, hdecode⟩

/-- Under the hash of a cell there is the first cell that has this hash. -/
theorem storedAmong_hash (blake3 : Bytes → Bytes) {cells : List Expr} {c : Expr} (hc : c ∈ cells) :
    ∃ c' ∈ cells, c'.hash blake3 = c.hash blake3 ∧ storedAmong blake3 cells (c.hash blake3) =
      (decodeExprFromBytes (encodeExprToBytes blake3 c')).toOption := by
  obtain ⟨c', hfind⟩ : ∃ c', cells.find? (fun c' => c'.hash blake3 == c.hash blake3) =
      some c' := by
    refine Option.isSome_iff_exists.mp (List.find?_isSome.mpr ⟨c, hc, ?_⟩)
    simp
  have hhash : c'.hash blake3 = c.hash blake3 := by simpa using List.find?_some hfind
  refine ⟨c', List.mem_of_find?_eq_some hfind, hhash, ?_⟩
  rw [storedAmong, hfind, Option.bind_some]

/-- A node that has only these cells. -/
def Node.storing (node : Node) (cells : List Expr) : Node :=
  { node with stored := storedAmong node.blake3 cells }

/-- The node has every cell of a tree. -/
structure Node.Holds (node : Node) (e : Expr) : Prop where
  get : ∀ c ∈ e.cells, getExpr node (node.hash c) = some (c.stored node.blake3)
  zero : ∀ c ∈ e.cells, node.hash c = zero32 → c = .nil
  type : ∀ c ∈ e.cells, ∀ tag ∈ builtinTypeNames,
    node.hash c = terminalHash node.blake3 1 (utf8 tag) → c = .symbol tag

variable {node : Node} {blake3 : Bytes → Bytes} {e a b : Expr}

theorem stored_ne_nil (h : e ≠ .nil) (blake3 : Bytes → Bytes) :
    e.stored blake3 ≠ .nil := by
  cases e with
  | nil => exact absurd rfl h
  | _ => simp [Expr.stored, wireOf]

theorem stored_of_ne (h : e ≠ .nil) : e.stored blake3 = wireOf blake3 e := by
  cases e with
  | nil => exact absurd rfl h
  | _ => rfl

theorem goesDown_writable : GoesDown Expr.Writable Child.Writable where
  sides := by
    rintro v h t (⟨-, hh, ht⟩ | ⟨rfl, tag, rfl, -⟩)
    · exact .inl ⟨hh, ht⟩
    · exact .inr ⟨rfl, tag, rfl⟩
  loaded := id
  symbol _ := trivial
  bytes _ := trivial

theorem Expr.cells_writable (e : Expr) (h : e.Writable) : ∀ c ∈ e.cells, c.Writable :=
  goesDown_writable.cells e h

theorem writable_link {a b : Expr} (ha : a.Writable) (hb : b.Writable) : (link a b).Writable :=
  .inl ⟨rfl, ha, hb⟩

theorem writable_int (n : Int) : (int_ n).Writable := .inr ⟨rfl, "int", rfl, rfl⟩

theorem writable_refTo {x : Bytes} (h : x.length = 32) : (refTo x).Writable :=
  .inl ⟨rfl, h, trivial⟩

theorem writable_list {items : List Expr} (h : ∀ e ∈ items, e.Writable) :
    (exprsToLinkedExpr items).Writable := by
  induction items with
  | nil => trivial
  | cons e items ih =>
    have hrest : ∀ e' ∈ items, e'.Writable := fun e' he' => h e' (List.mem_cons_of_mem _ he')
    exact writable_link (h e List.mem_cons_self) (ih hrest)

theorem length_add_linkDepth_le (items : List Expr) (last : Expr) :
    items.length + last.linkDepth ≤ (items.foldr link last).linkDepth := by
  induction items with
  | nil => exact (Nat.zero_add _).le
  | cons e items ih =>
    change items.length + 1 + last.linkDepth ≤
      max e.linkDepth (items.foldr link last).linkDepth + 1
    omega

theorem length_le_linkDepth (items : List Expr) :
    items.length ≤ (exprsToLinkedExpr items).linkDepth :=
  length_add_linkDepth_le items .nil

theorem linkDepth_item {items : List Expr} {e : Expr} (he : e ∈ items) :
    e.linkDepth < (exprsToLinkedExpr items).linkDepth := by
  induction items with
  | nil => cases he
  | cons item items ih =>
    change _ < max item.linkDepth (exprsToLinkedExpr items).linkDepth + 1
    rcases List.mem_cons.mp he with rfl | he
    · omega
    · have := ih he
      omega

section Lengths

variable (hdigest : ∀ x, (blake3 x).length = 32)

include hdigest

theorem length_hash_of_writable (h : e.Writable) : (e.hash blake3).length = 32 := by
  cases e with
  | nil => rfl
  | bytesOf e => exact h.elim
  | symbol s => exact hdigest _
  | bytes b => exact hdigest _
  | link v hd tl =>
    rw [hash_link]
    exact hdigest _

theorem length_childHash_of_writable {ch : Child} (h : ch.Writable) :
    (ch.hash blake3).length = 32 := by
  cases ch with
  | none => rfl
  | loaded e => exact length_hash_of_writable hdigest h
  | byHash x => exact h

theorem length_getHeadHash_of_writable (h : e.Writable) :
    (e.getHeadHash blake3).length = 32 := by
  cases e with
  | link v hd tl =>
    have hhead : hd.Writable := by
      rcases h with ⟨-, hhd, -⟩ | ⟨rfl, -⟩
      · exact hhd
      · trivial
    have hany : ∀ ch : Child, ch.Writable → (∀ x, ch ≠ .byHash x) →
        ((Expr.link v ch tl).getHeadHash blake3).length = 32 := by
      intro ch hch hne
      rw [Expr.getHeadHash]
      split
      · rename_i x hx
        exact absurd hx (hne x)
      split
      · exact hdigest _
      · exact length_childHash_of_writable hdigest hch
    cases hd with
    | byHash x => exact hhead
    | none => exact hany .none hhead fun _ h => by cases h
    | loaded e => exact hany (.loaded e) hhead fun _ h => by cases h
  | _ => rfl

theorem length_getTailHash_of_writable (h : e.Writable) :
    (e.getTailHash blake3).length = 32 := by
  cases e with
  | link v hd tl =>
    rcases h with ⟨-, -, htl⟩ | ⟨-, tag, rfl, -⟩
    · exact length_childHash_of_writable hdigest htl
    · exact hdigest _
  | _ => rfl

/-- A cell is read as it was written. -/
theorem decode_writable (h : e.Writable) :
    decodeExprFromBytes (encodeExprToBytes blake3 e) = .ok (wireOf blake3 e) := by
  refine decodeExprFromBytes_encode (fun e' he => ?_) (length_getHeadHash_of_writable hdigest h)
    (length_getTailHash_of_writable hdigest h)
  rw [he] at h
  exact h

end Lengths

theorem holds_storing {cells : List Expr} (hdigest : ∀ x, (node.blake3 x).length = 32)
    (hwritable : ∀ c ∈ cells, c.Writable) (hapart : DistinctHashes node.blake3 cells)
    (hcells : e.cells ⊆ cells) : (node.storing cells).Holds e := by
  refine ⟨fun c hc => ?_, fun c hc => hapart.zero c (hcells hc),
    fun c hc => hapart.type c (hcells hc)⟩
  change getExpr (node.storing cells) (c.hash node.blake3) = some (c.stored node.blake3)
  by_cases hnil : c = .nil
  · rw [hnil]
    rfl
  have hzero : c.hash node.blake3 ≠ zero32 := fun h => hnil (hapart.zero c (hcells hc) h)
  obtain ⟨c', hmem, hhash, hstored⟩ := storedAmong_hash node.blake3 (hcells hc)
  have hsame := hapart.same c' hmem c (hcells hc) hhash
  have hnil' : c' ≠ .nil := by
    rintro rfl
    exact hzero hhash.symm
  have hget : (node.storing cells).stored (c.hash node.blake3) = some (c.stored node.blake3) := by
    change storedAmong node.blake3 cells _ = _
    rw [hstored, decode_writable hdigest (hwritable c' hmem), ← stored_of_ne hnil', hsame]
    rfl
  rw [getExpr, if_neg hzero, hget]

theorem hash_wireOf_writable {e : Expr} (hnil : e ≠ .nil) (hwritable : e.Writable) :
    (wireOf blake3 e).hash blake3 = e.hash blake3 := by
  cases e with
  | nil => exact absurd rfl hnil
  | bytesOf e => exact hwritable.elim
  | link v h t =>
    rw [hash_link v h t]
    simp [wireOf, Expr.hash, Child.hash]
  | symbol s => rfl
  | bytes b => rfl

/-- A node of which the storage was filled cell by cell gives every cell under its own hash. -/
theorem content_storing {cells : List Expr} (hdigest : ∀ x, (node.blake3 x).length = 32)
    (hwritable : ∀ c ∈ cells, c.Writable) {x : Bytes} {c : Expr}
    (h : getExpr (node.storing cells) x = some c) : (node.storing cells).hash? c = .ok x := by
  rw [getExpr] at h
  split at h
  · rename_i hzero
    obtain rfl := Option.some.inj h
    rw [hzero]
    rfl
  · rename_i hzero
    split at h
    · rename_i found hstored
      obtain rfl := Option.some.inj h
      obtain ⟨c', hmem, hhash, hdecode⟩ := storedAmong_eq_some hstored
      have hnil : c' ≠ .nil := by
        rintro rfl
        exact hzero hhash.symm
      change (decodeExprFromBytes (encodeExprToBytes node.blake3 c')).toOption = some found
        at hdecode
      rw [decode_writable hdigest (hwritable c' hmem)] at hdecode
      obtain rfl := Option.some.inj hdecode
      have hable : (wireOf node.blake3 c').hashable = true := by
        cases c' <;> rfl
      rw [Node.hash?, if_pos hable]
      exact congrArg Except.ok ((hash_wireOf_writable hnil (hwritable c' hmem)).trans hhash)
    · obtain ⟨tag, htag, rfl⟩ := Option.map_eq_some_iff.mp h
      have hhash := List.find?_some htag
      exact congrArg Except.ok (eq_of_beq hhash)

end Writing

section Reading

variable {node : Node} {e a b : Expr}

theorem cells_pair (a b : Expr) : (link a b).cells = link a b :: (a.cells ++ b.cells) := by
  simp [link, Expr.cells, Child.cells, payloadCells, payload_none]

theorem Node.Holds.mono (h : node.Holds e) (hcells : a.cells ⊆ e.cells) : node.Holds a :=
  ⟨fun c hc => h.get c (hcells hc), fun c hc => h.zero c (hcells hc),
    fun c hc => h.type c (hcells hc)⟩

theorem Node.Holds.head (h : node.Holds (link a b)) : node.Holds a :=
  h.mono fun c hc => by
    rw [cells_pair]
    exact List.mem_cons_of_mem _ (List.mem_append_left _ hc)

theorem Node.Holds.tail (h : node.Holds (link a b)) : node.Holds b :=
  h.mono fun c hc => by
    rw [cells_pair]
    exact List.mem_cons_of_mem _ (List.mem_append_right _ hc)

theorem Node.Holds.self (h : node.Holds e) :
    getExpr node (node.hash e) = some (e.stored node.blake3) :=
  h.get e e.mem_cells

theorem stored_pair (a b : Expr) : (link a b).stored node.blake3 =
    .link .none (.byHash (node.hash a)) (.byHash (node.hash b)) := by
  rw [stored_of_ne (by simp [link])]
  simp [link, wireOf, Expr.getHeadHash, Expr.getTailHash, Expr.headChild, Expr.tailChild,
    Expr.value, payload_none, Child.hash, Node.hash]

theorem builtinTypeOfHash_eq_none (h : node.Holds e) (htype : ∀ tag ∈ builtinTypeNames,
    e ≠ .symbol tag) : builtinTypeOfHash node.blake3 (node.hash e) = none := by
  refine List.find?_eq_none.mpr fun tag htag hhash => htype tag htag ?_
  exact h.type e e.mem_cells tag htag ((eq_of_beq hhash).symm)

theorem builtinTypeOfHash_int (blake3 : Bytes → Bytes) :
    builtinTypeOfHash blake3 (terminalHash blake3 1 (utf8 "int")) = some "int" := by
  simp [builtinTypeOfHash, builtinTypeNames, builtinCompositeTypeNames]

/-- A pair whose tail is no type symbol is a plain link. -/
theorem tag_stored_pair (h : node.Holds b) (htype : ∀ tag ∈ builtinTypeNames, b ≠ .symbol tag) :
    node.tag ((link a b).stored node.blake3) = "link" := by
  rw [stored_pair]
  simp [Node.tag, Expr.builtinTag, Expr.base, Expr.tailChild, builtinTypeOfHash_eq_none h htype]

theorem getExprTag_list (items : List Expr) (h : node.Holds (exprsToLinkedExpr items)) :
    getExprTag node ((exprsToLinkedExpr items).stored node.blake3) = .ok "link" := by
  cases items with
  | nil => rfl
  | cons item items =>
    have htail : node.Holds (exprsToLinkedExpr items) := h.tail
    change getExprTag node ((link item (exprsToLinkedExpr items)).stored node.blake3) = _
    rw [stored_pair]
    cases items with
    | nil => simp [getExprTag, Expr.base, Expr.tailChild, exprsToLinkedExpr, Node.hash, Expr.hash]
    | cons next items =>
      have hzero : node.hash (exprsToLinkedExpr (next :: items)) ≠ zero32 := fun hz => by
        cases htail.zero _ (Expr.mem_cells _) hz
      have hnone := builtinTypeOfHash_eq_none htail fun tag _ h => by cases h
      have hcell : (exprsToLinkedExpr (next :: items)).stored node.blake3 =
          .link .none (.byHash (node.hash next)) (.byHash (node.hash (exprsToLinkedExpr items))) :=
        stored_pair next (exprsToLinkedExpr items)
      simp only [getExprTag, Expr.base, Expr.tailChild, if_neg hzero, hnone, htail.self, hcell]
      rfl

theorem list_ne_type (items : List Expr) :
    ∀ tag ∈ builtinTypeNames, exprsToLinkedExpr items ≠ .symbol tag := by
  intro tag _ h
  cases items <;> cases h

/-- A list of heads that may be known by their hashes. -/
def spine (heads : List Child) : Expr :=
  heads.foldr (fun head rest => .link .none head (.loaded rest)) .nil

theorem spine_loaded (items : List Expr) :
    spine (items.map Child.loaded) = exprsToLinkedExpr items := by
  induction items with
  | nil => rfl
  | cons item items ih =>
    change Expr.link .none (.loaded item) (.loaded (spine (items.map Child.loaded))) = _
    rw [ih]
    rfl

theorem Node.Holds.rest {head : Child} {heads : List Child}
    (h : node.Holds (spine (head :: heads))) : node.Holds (spine heads) :=
  h.mono fun c hc => by
    change c ∈ _ :: (head.cells ++ (payloadCells _ _ ++ (spine heads).cells))
    exact List.mem_cons_of_mem _ (List.mem_append_right _ (List.mem_append_right _ hc))

theorem stored_spine (head : Child) (heads : List Child) :
    (spine (head :: heads)).stored node.blake3 =
      .link .none (.byHash (head.hash node.blake3)) (.byHash (node.hash (spine heads))) := by
  change wireOf node.blake3 (.link .none head (.loaded (spine heads))) = _
  cases head <;> simp [wireOf, Expr.getHeadHash, Expr.getTailHash, Expr.headChild, Expr.tailChild,
    Expr.value, payload_none, Child.hash, Node.hash]

theorem tag_stored_spine (head : Child) {heads : List Child} (h : node.Holds (spine heads)) :
    node.tag ((spine (head :: heads)).stored node.blake3) = "link" := by
  have hnone := builtinTypeOfHash_eq_none h fun tag _ hs => by cases heads <;> cases hs
  rw [stored_spine]
  simp [Node.tag, Expr.builtinTag, Expr.base, Expr.tailChild, hnone]

theorem hash_spine_ne_zero {head : Child} {heads : List Child}
    (h : node.Holds (spine (head :: heads))) : node.hash (spine (head :: heads)) ≠ zero32 :=
  fun hz => by cases h.zero _ (Expr.mem_cells _) hz

/-- The tails of a list once `get_expr_list` has fetched them, by the hashes of its heads. -/
def listedTail : List Bytes → Child
  | [] => .none
  | x :: xs => .loaded (.link .none (.byHash x) (listedTail xs))

/-- What is found under some hashes, and the hashes under which nothing is. -/
def fetched (node : Node) (xs : List Bytes) : List Expr × List Bytes :=
  (xs.filterMap (getExpr node), xs.filter fun x => (getExpr node x).isNone)

theorem listItem_byHash (node : Node) (x : Bytes) (t : Child) :
    listItem node (.link .none (.byHash x) t) = fetched node [x] := by
  simp only [listItem, Expr.headChild, Expr.value, if_true, fetched]
  cases hx : getExpr node x <;> simp [hx]

theorem fetched_cons (node : Node) (x : Bytes) (xs : List Bytes) :
    fetched node (x :: xs) = ((fetched node [x]).1 ++ (fetched node xs).1,
      (fetched node [x]).2 ++ (fetched node xs).2) := by
  simp only [fetched]
  cases hx : getExpr node x <;> simp [hx]

theorem fetched_of_holds {items : List Expr} (h : ∀ e ∈ items, node.Holds e) :
    fetched node (items.map node.hash) = (items.map (Expr.stored node.blake3), []) := by
  induction items with
  | nil => rfl
  | cons item items ih =>
    have hself := (h item List.mem_cons_self).self
    rw [List.map_cons, fetched_cons, ih fun e he => h e (List.mem_cons_of_mem _ he)]
    simp [fetched, hself]

theorem getExprListFrom_spine (heads : List Child) {head : Child} {fuel : Nat}
    (h : node.Holds (spine (head :: heads))) (hfuel : heads.length < fuel) :
    getExprListFrom node fuel ((spine (head :: heads)).stored node.blake3) =
      .ok (some (.link .none (.byHash (head.hash node.blake3))
        (listedTail (heads.map (Child.hash node.blake3))))) := by
  induction heads generalizing head fuel with
  | nil =>
    obtain ⟨n, rfl⟩ := Nat.exists_eq_add_of_lt hfuel
    have htag := tag_stored_spine head h.rest
    rw [stored_spine] at htag ⊢
    rw [getExprListFrom, if_neg (by simpa using htag)]
    rfl
  | cons next heads ih =>
    obtain ⟨n, rfl⟩ : ∃ n, fuel = n + 1 := ⟨fuel - 1, by rw [List.length_cons] at hfuel; omega⟩
    have htail := h.rest
    have htag := tag_stored_spine head htail
    rw [stored_spine] at htag ⊢
    rw [getExprListFrom, if_neg (by simpa using htag), if_neg (hash_spine_ne_zero htail),
      htail.self]
    dsimp only
    rw [ih htail (by rw [List.length_cons] at hfuel; omega)]
    rfl

/-- The items of a list that was fetched. -/
theorem resolveListFrom_listed (node : Node) (x : Bytes) (xs : List Bytes) {fuel : Nat}
    (hfuel : xs.length < fuel) :
    resolveListFrom node fuel (.link .none (.byHash x) (listedTail xs)) =
      .ok (fetched node (x :: xs)) := by
  induction xs generalizing x fuel with
  | nil =>
    obtain ⟨n, rfl⟩ := Nat.exists_eq_add_of_lt hfuel
    rw [resolveListFrom, listItem_byHash]
    exact congrArg Except.ok (fetched_cons node x []).symm
  | cons y ys ih =>
    obtain ⟨n, rfl⟩ : ∃ n, fuel = n + 1 := ⟨fuel - 1, by rw [List.length_cons] at hfuel; omega⟩
    have hrest := @ih y n (by rw [List.length_cons] at hfuel; omega)
    rw [resolveListFrom, listItem_byHash, fetched_cons node x (y :: ys)]
    simp only [listedTail, Expr.base, Expr.tailChild, ne_eq, not_true_eq_false, if_false, hrest]
    rfl

/-- The items of a list of which the first cell was fetched. -/
theorem resolveListFrom_spine (heads : List Child) {fuel : Nat} (h : node.Holds (spine heads))
    (hfuel : heads.length < fuel) :
    resolveListFrom node fuel ((spine heads).stored node.blake3) =
      .ok (fetched node (heads.map (Child.hash node.blake3))) := by
  induction heads generalizing fuel with
  | nil =>
    obtain ⟨n, rfl⟩ := Nat.exists_eq_add_of_lt hfuel
    rfl
  | cons head heads ih =>
    obtain ⟨n, rfl⟩ : ∃ n, fuel = n + 1 := ⟨fuel - 1, by rw [List.length_cons] at hfuel; omega⟩
    have htail := h.rest
    have hrest := @ih n htail (by rw [List.length_cons] at hfuel; omega)
    rw [stored_spine, resolveListFrom, listItem_byHash, List.map_cons,
      fetched_cons node _ (heads.map _)]
    simp only [Expr.base, Expr.tailChild, ne_eq, not_true_eq_false, if_false]
    cases heads with
    | nil => rfl
    | cons next heads =>
      rw [if_neg (hash_spine_ne_zero htail), htail.self]
      simp only [hrest]
      rfl

/-- A cell under a symbol that is no type, fetched as a list. -/
theorem getExprList_tagged {s : String} (h : node.Holds (link e (.symbol s)))
    (htype : ∀ tag ∈ builtinTypeNames, Expr.symbol s ≠ .symbol tag) (hfuel : 1 < node.fuel) :
    getExprList node (node.hash (link e (.symbol s))) =
      .ok (some (.link .none (.byHash (node.hash e)) (.loaded (.symbol s)))) := by
  obtain ⟨n, hn⟩ : ∃ n, node.fuel = n + 2 := ⟨node.fuel - 2, by omega⟩
  have htail : node.Holds (.symbol s) := h.tail
  have htag := tag_stored_pair (a := e) htail htype
  have hzero : node.hash (.symbol s) ≠ zero32 := fun hz => by
    cases htail.zero _ (Expr.mem_cells _) hz
  have hsymbol : getExprListFrom node (n + 1) (.symbol s) = .ok (some (.symbol s)) := by
    have hterminal : node.tag (.symbol s) ≠ "link" := by
      simp [Node.tag, Expr.builtinTag, Expr.base, Base.name]
    simp [getExprListFrom, hterminal]
  rw [getExprList, h.self, hn]
  dsimp only
  rw [stored_pair] at htag ⊢
  rw [getExprListFrom, if_neg (by simpa using htag), if_neg hzero, htail.self]
  dsimp only [Expr.stored, wireOf]
  rw [hsymbol]
  rfl

theorem Node.Holds.of_foldr {items : List Expr} {last e : Expr}
    (h : node.Holds (items.foldr link last)) (he : e ∈ items) : node.Holds e := by
  induction items with
  | nil => cases he
  | cons item items ih =>
    rcases List.mem_cons.mp he with rfl | he
    · exact Node.Holds.head h
    · exact ih (Node.Holds.tail h) he

theorem Node.Holds.item {items : List Expr} (h : node.Holds (exprsToLinkedExpr items))
    (he : e ∈ items) : node.Holds e :=
  Node.Holds.of_foldr h he

/-- The fields of a record, from its first cell. -/
theorem recordNodes_list {item : Expr} {items : List Expr}
    (h : node.Holds (exprsToLinkedExpr (item :: items))) (hfuel : items.length < node.fuel) :
    recordNodes node (some ((exprsToLinkedExpr (item :: items)).stored node.blake3)) =
      .ok (some ((item :: items).map (Expr.stored node.blake3))) := by
  have hitems := fetched_of_holds fun e he => h.item he
  rw [← spine_loaded] at h ⊢
  have hlist := getExprListFrom_spine (items.map Child.loaded) h (by simpa using hfuel)
  rw [List.map_map] at hlist
  have hlength : (items.map node.hash).length < node.fuel := by simpa using hfuel
  have hresolve := resolveListFrom_listed node (node.hash item) (items.map node.hash) hlength
  have htag : node.tag (.link .none (.byHash (node.hash item)) (listedTail (items.map node.hash))) =
      "link" := by
    cases items <;> rfl
  change _ = Except.ok (some (Expr.link .none (.byHash (node.hash item))
    (listedTail (items.map node.hash)))) at hlist
  rw [recordNodes, List.map_cons]
  dsimp only
  rw [hlist]
  refine (if_neg (not_not.mpr htag)).trans ?_
  rw [resolveListExprs, hresolve, ← List.map_cons, hitems]
  rfl

theorem resolveListExprs_list {items : List Expr} (h : node.Holds (exprsToLinkedExpr items))
    (hfuel : items.length < node.fuel) :
    resolveListExprs node ((exprsToLinkedExpr items).stored node.blake3) =
      .ok (items.map (Expr.stored node.blake3), []) := by
  have hitems := fetched_of_holds fun e he => h.item he
  rw [← spine_loaded] at h ⊢
  have hresolve := resolveListFrom_spine (items.map Child.loaded) h (by simpa using hfuel)
  rw [List.map_map] at hresolve
  exact hresolve.trans (congrArg Except.ok hitems)

theorem Node.Holds.nil_of_list {items : List Expr} (h : node.Holds (exprsToLinkedExpr items)) :
    node.Holds .nil := by
  induction items with
  | nil => exact h
  | cons item items ih => exact ih (Node.Holds.tail h)

end Reading

section Fields

variable {node : Node} {e : Expr} {n : Int} {p : Pointer}

theorem stored_int (blake3 : Bytes → Bytes) (n : Int) : (int_ n).stored blake3 =
    .link .none (.byHash (terminalHash blake3 2 (encodeInt n)))
      (.byHash (terminalHash blake3 1 (utf8 "int"))) := rfl

theorem hash_ne_zero (h : node.Holds e) (hne : e ≠ .nil) : node.hash e ≠ zero32 :=
  fun hz => hne (h.zero e e.mem_cells hz)

theorem Node.Holds.intType (h : node.Holds (int_ n)) :
    terminalHash node.blake3 1 (utf8 "int") ≠ zero32 := fun hz => by
  cases h.zero (.symbol "int") (by simp [int_, typed, Expr.cells, Child.cells]) hz

theorem tag_int (node : Node) (n : Int) : node.tag ((int_ n).stored node.blake3) = "int" := by
  rw [stored_int]
  simp [Node.tag, Expr.builtinTag, Expr.base, Expr.tailChild, builtinTypeOfHash_int,
    builtinCompositeTypeNames]

theorem getExprTag_int (h : node.Holds (int_ n)) :
    getExprTag node ((int_ n).stored node.blake3) = .ok "int" := by
  rw [stored_int]
  simp [getExprTag, Expr.base, Expr.tailChild, h.intType, builtinTypeOfHash_int]

theorem getExprValue_int (h : node.Holds (int_ n)) :
    getExprValue node ((int_ n).stored node.blake3) = .ok (.int n) := by
  have hmem : Expr.bytes (encodeInt n) ∈ (int_ n).cells := by
    simp [int_, typed, Expr.cells, Child.cells, payloadCells, payload?, tagByteEncode]
  have hget : getExpr node (terminalHash node.blake3 2 (encodeInt n)) =
      some (.bytes (encodeInt n)) := h.get _ hmem
  have hzero : terminalHash node.blake3 2 (encodeInt n) ≠ zero32 := fun hz => by
    cases h.zero _ hmem hz
  have htag := getExprTag_int h
  rw [stored_int] at htag ⊢
  simp only [getExprValue, Expr.value, Expr.headChild, if_neg hzero, hget]
  rw [htag]
  change decodeHead (some "int") (.bytes (encodeInt n)) = _
  simp [decodeHead, builtinTypeNames, builtinCompositeTypeNames, tagByteDecode,
    decodeInt_encodeInt]

theorem intField_int (h : node.Holds (int_ n)) :
    intField node ((int_ n).stored node.blake3) = .ok (some n) := by
  rw [intField, getExprTag_int h, getExprValue_int h]
  rfl

/-- A pointer as a record tells it: nil is in no block. -/
def Pointer.asRead (p : Pointer) : Pointer := if p.id = zero32 then .nil else p

/-- The hashes of a pointer have 32 bytes. -/
def Pointer.Sized (p : Pointer) : Prop :=
  p.id.length = 32 ∧ ∀ b, p.block = some b → b.length = 32

theorem asRead_eq_iff : p.asRead = p ↔ (p.id = zero32 → p.block = none) := by
  obtain ⟨id, block⟩ := p
  rw [Pointer.asRead]
  split
  · rename_i hid
    simp only at hid
    subst hid
    simp [Pointer.nil, eq_comm]
  · simp_all

theorem stored_refTo (blake3 : Bytes → Bytes) (x : Bytes) : (refTo x).stored blake3 =
    .link .none (.byHash x) (.byHash zero32) := rfl

theorem tag_refTo (hnil : node.Holds .nil) (x : Bytes) :
    node.tag ((refTo x).stored node.blake3) = "link" := by
  have hnone : builtinTypeOfHash node.blake3 zero32 = none :=
    builtinTypeOfHash_eq_none hnil fun tag _ h => by cases h
  simp [stored_refTo, Node.tag, Expr.builtinTag, Expr.base, Expr.tailChild, hnone]

theorem getExprTag_refTo (node : Node) (x : Bytes) :
    getExprTag node ((refTo x).stored node.blake3) = .ok "link" := by
  simp [stored_refTo, getExprTag, Expr.base, Expr.tailChild]

theorem readField_refTo (hnil : node.Holds .nil) (x : Bytes) :
    readField node ((refTo x).stored node.blake3) = .ok (some ⟨x, none⟩) := by
  have htag := tag_refTo hnil x
  rw [stored_refTo] at htag ⊢
  have htarget : storedRefTarget node (.link .none (.byHash x) (.byHash zero32)) = none := by
    simp [storedRefTarget, isNilTail, Expr.tailChild]
  rw [readField, htarget]
  simp [htag, getReferencedHash, Expr.headChild]

theorem childPart_of_holds (h : node.Holds e) (hne : e ≠ .nil) :
    childPart node (.byHash (node.hash e)) = some (e.stored node.blake3) := by
  rw [childPart, if_neg (hash_ne_zero h hne), h.self]

theorem isNilTail_of_holds (h : node.Holds e) (hne : e ≠ .nil) :
    isNilTail node (.byHash (node.hash e)) = false := by
  rw [isNilTail, beq_eq_false_iff_ne]
  exact hash_ne_zero h hne

/-- A ref is read as the cell and the block that it names. -/
theorem storedRefTarget_ref {id block : Bytes}
    (h : node.Holds (link (.bytes block) (link (.bytes id) (link (.symbol "ref") .nil))))
    (hid : id.length = 32) (hblock : block.length = 32) :
    storedRefTarget node
      ((link (.bytes block) (link (.bytes id) (link (.symbol "ref") .nil))).stored node.blake3) =
      some ⟨id, some block⟩ := by
  have hpair : ∀ a b : Expr, link a b ≠ .nil := fun a b hab => by cases hab
  have hplain : ∀ a b : Expr, ∀ tag ∈ builtinTypeNames, link a b ≠ .symbol tag :=
    fun a b tag _ hab => by cases hab
  have htag := tag_stored_pair (a := .bytes block) h.tail (hplain _ _)
  have htag₂ := tag_stored_pair (a := .bytes id) h.tail.tail (hplain _ _)
  have htag₃ := tag_stored_pair (a := .symbol "ref") h.tail.tail.tail fun tag _ hab => by cases hab
  have hhead := childPart_of_holds h.head (by simp)
  have hhead₂ := childPart_of_holds h.tail.head (by simp)
  have hhead₃ := childPart_of_holds h.tail.tail.head (by simp)
  have htail := childPart_of_holds h.tail (hpair _ _)
  have htail₂ := childPart_of_holds h.tail.tail (hpair _ _)
  have hmore := isNilTail_of_holds h.tail (hpair _ _)
  rw [stored_pair] at htag htag₂ htag₃ htail htail₂ ⊢
  have hlast : isNilTail node (.byHash (node.hash .nil)) = true := rfl
  simp only [storedRefTarget, Expr.headChild, Expr.tailChild, htag, hmore, hhead, htail, htag₂,
    hhead₂, htail₂, htag₃, hhead₃, hlast, and_self, guard_true, Option.bind_eq_bind,
    Option.pure_def, Option.bind_some, bytes32?, Expr.stored, wireOf, hid, hblock, if_true]

/-- The root that a record names is read with its block. -/
theorem readField_rootItem (hnil : node.Holds .nil) (h : node.Holds p.rootItem) (hsized : p.Sized) :
    readField node (p.rootItem.stored node.blake3) = .ok (some p.asRead) := by
  obtain ⟨id, block⟩ := p
  rw [Pointer.asRead]
  cases block with
  | none =>
    rw [Pointer.rootItem, readField_refTo hnil]
    split
    · rename_i hid
      rw [show id = zero32 from hid]
      rfl
    · rfl
  | some block =>
    rw [Pointer.rootItem] at h ⊢
    dsimp only at h ⊢
    by_cases hid : id = zero32
    · rw [if_pos hid, if_pos hid, readField_refTo hnil]
      rfl
    · rw [if_neg hid] at h ⊢
      rw [if_neg hid, readField, storedRefTarget_ref h hsized.1 (hsized.2 block rfl)]

end Fields

end Astreum
