import Astreum.Rates
import Astreum.Visit
import Mathlib.Algebra.Order.BigOperators.Group.List

namespace Astreum

section Slots

variable (node : Node) (lookup : Tree)

/-- The loop of `walk_record_slots` with `follow_refs`: a cell that the trie registers is found, and
every other one is slotted once. `none` stands for an unresolved record cell. -/
def recordSlotsFrom : Nat → List (Option Expr × Bytes) → List Bytes → List Bytes → Nat →
    Py (Option (List Bytes × List Bytes × Nat))
  | 0, _, _, _, _ => .error .outOfFuel
  | _ + 1, [], slots, found, size => .ok (some (slots, found, size))
  | n + 1, (sub, h) :: stack, slots, found, size =>
    if h ∈ slots then recordSlotsFrom n stack slots found size
    else if (getFromRadixTree node lookup h).isSome then
      recordSlotsFrom n stack slots (found ++ [h]) size
    else match sub.or (getExpr node h) with
      | none => .ok none
      | some e => do
        match ← flatSize node e with
        | none => return none
        | some cellSize =>
          let children ← cellChildren node e
          recordSlotsFrom n (children ++ stack) (slots ++ [h]) found (size + cellSize)

/-- `_cell_children` of the root, whose payload may be out of reach. -/
def rootChildren (e : Expr) : Py (Option (List (Option Expr × Bytes))) := do
  if node.tag e = "link" ∧ typedPayloadSize node e = .ok none then return none
  return some (← cellChildren node e)

/-- `walk_record_slots` with `follow_refs`: the slots, what is found, and the size. -/
def walkRecordSlots (e : Expr) : Py (Option (List Bytes × List Bytes × Nat)) := do
  let _ ← node.hash? e
  match ← rootChildren node e with
  | none => return none
  | some children => recordSlotsFrom node lookup node.fuel children [] [] 0

end Slots

/-- What a cell is, however much of it is held. -/
inductive Shape where
  | nil
  | symbol (s : String)
  | bytes (b : Bytes)
  | pair (head tail : Shape)
  deriving DecidableEq

namespace Shape

/-- A builtin type symbol, which makes a typed value of a pair. -/
def isType : Shape → Bool
  | symbol s => decide (s ∈ builtinCompositeTypeNames)
  | _ => false

/-- The length of the payload of a typed value. -/
def payloadLength? : Shape → Option Nat
  | pair (bytes b) t => if t.isType then some b.length else none
  | _ => none

def isBytes : Shape → Bool
  | bytes _ => true
  | _ => false

/-- A pair under a builtin type symbol that is no value of the type, as its head is no bytes. -/
def misfit : Shape → Bool
  | pair h t => t.isType && !h.isBytes
  | _ => false

/-- What a cell is charged for, where it is no misfit. -/
def flat : Shape → Nat
  | nil => 64
  | symbol s => (utf8 s).length
  | bytes b => b.length
  | pair h t => ((pair h t).payloadLength?).getD 64

def cells : Shape → List Shape
  | pair h t => pair h t :: (h.cells ++ t.cells)
  | x => [x]

variable (blake3 : Bytes → Bytes)

def hash : Shape → Bytes
  | nil => zero32
  | symbol s => terminalHash blake3 1 (utf8 s)
  | bytes b => terminalHash blake3 2 b
  | pair h t => linkHash blake3 h.hash t.hash

/-- What a walk goes on to from a cell. -/
def children : Shape → List Shape
  | pair h t =>
    if t.isType then [] else [h, t].filter fun x => decide (x.hash blake3 ≠ zero32)
  | _ => []

/-- Different cells, nil and the type symbols among them, have different hashes. -/
def HashesApart (x : Shape) : Prop :=
  ∀ y ∈ x.cells, ∀ z ∈ x.cells ++ nil :: builtinTypeNames.map symbol,
    y.hash blake3 = z.hash blake3 → y = z

end Shape

mutual

/-- A cell is held of this shape: its children as cells, as values under a type symbol, or by hashes
under which the node has them. -/
inductive Expr.Shows (node : Node) : Expr → Shape → Prop
  | nil : Expr.Shows node .nil .nil
  | symbol (s : String) : Expr.Shows node (.symbol s) (.symbol s)
  | bytes (b : Bytes) : Expr.Shows node (.bytes b) (.bytes b)
  | pair {h t : Child} {a b : Shape} (hhead : Child.Shows node h a) (htail : Child.Shows node t b) :
      Expr.Shows node (.link .none h t) (.pair a b)
  | value {v : Val} {ty : String} {p : Bytes} (hty : ty ∈ builtinCompositeTypeNames)
      (hp : tagByteEncode ty v = some p) :
      Expr.Shows node (typed v ty) (.pair (.bytes p) (.symbol ty))

inductive Child.Shows (node : Node) : Child → Shape → Prop
  | none : Child.Shows node .none .nil
  | loaded {e : Expr} {x : Shape} (h : Expr.Shows node e x) : Child.Shows node (.loaded e) x
  | byHash {e : Expr} {x : Shape} (hget : getExpr node (x.hash node.blake3) = some e)
      (h : Expr.Shows node e x) : Child.Shows node (.byHash (x.hash node.blake3)) x

end

section Cells

variable {node : Node} {e : Expr} {x a b : Shape} {h t : Child}

theorem tagByteEncode_of_none (tag : String) : tagByteEncode tag .none = none := rfl

theorem payload?_of_none (ch : Child) : payload? .none ch = none := by
  rcases ch with _ | e | x
  · rfl
  · cases e <;> rfl
  · rfl

theorem hash_pair (blake3 : Bytes → Bytes) (h t : Child) :
    (Expr.link .none h t).hash blake3 = linkHash blake3 (h.hash blake3) (t.hash blake3) := by
  cases h <;> simp only [Expr.hash, payload?_of_none, Child.hash]

/-- A held cell has the hash of its shape. -/
theorem hash_of_shows (hshows : e.Shows node x) :
    node.hash e = x.hash node.blake3 ∧ e.hashable = true := by
  induction x generalizing e with
  | nil =>
    cases hshows
    exact ⟨rfl, rfl⟩
  | symbol s =>
    cases hshows
    exact ⟨rfl, rfl⟩
  | bytes b =>
    cases hshows
    exact ⟨rfl, rfl⟩
  | pair a b iha ihb =>
    have hside : ∀ {ch : Child} {y : Shape}, (∀ {e : Expr}, e.Shows node y →
        node.hash e = y.hash node.blake3 ∧ e.hashable = true) → ch.Shows node y →
        ch.hash node.blake3 = y.hash node.blake3 ∧ ch.hashable = true := by
      intro ch y ih hch
      cases hch with
      | none => exact ⟨rfl, rfl⟩
      | loaded he => exact ih he
      | byHash hget he => exact ⟨rfl, rfl⟩
    cases hshows with
    | @pair h t _ _ hhead htail =>
      obtain ⟨hh, hhashable⟩ := hside iha hhead
      obtain ⟨ht, hthashable⟩ := hside ihb htail
      refine ⟨?_, ?_⟩
      · rw [Node.hash, hash_pair, hh, ht, Shape.hash]
      · cases h with
        | loaded head =>
          have hhead : head.hashable = true := hhashable
          simp only [Expr.hashable, payload?_of_none, hthashable, hhead, Option.isSome_none,
            Bool.false_or, Bool.and_true]
        | none => simp only [Expr.hashable, hthashable, Bool.true_and]
        | byHash hash => simp only [Expr.hashable, hthashable, Bool.true_and]
    | @value v ty p hty hp =>
      refine ⟨?_, rfl⟩
      simp only [Node.hash, typed, Expr.hash, payload?, hp, Child.hash, Shape.hash]

theorem hash_of_childShows (hshows : h.Shows node a) :
    h.hash node.blake3 = a.hash node.blake3 := by
  cases hshows with
  | none => rfl
  | loaded he => exact (hash_of_shows he).1
  | byHash hget he => rfl

/-- Only a type symbol has the hash of one. -/
theorem type_of_hash {blake3 : Bytes → Bytes} (hapart : x.HashesApart blake3) {y : Shape}
    (hy : y ∈ x.cells) {name : String}
    (hname : builtinTypeOfHash blake3 (y.hash blake3) = some name) : y = .symbol name := by
  have hmem := List.mem_of_find?_eq_some hname
  have hhash := List.find?_some hname
  refine hapart y hy (.symbol name) ?_ (beq_iff_eq.mp hhash).symm
  exact List.mem_append_right _ (List.mem_cons_of_mem _ (List.mem_map_of_mem hmem))

/-- The hash of a type symbol names it. -/
theorem builtinTypeOfHash_symbol {blake3 : Bytes → Bytes} (hapart : x.HashesApart blake3)
    {name : String} (hy : Shape.symbol name ∈ x.cells) (hname : name ∈ builtinTypeNames) :
    builtinTypeOfHash blake3 (terminalHash blake3 1 (utf8 name)) = some name := by
  rcases hfind : builtinTypeOfHash blake3 (terminalHash blake3 1 (utf8 name)) with _ | other
  · have hnone := List.find?_eq_none.mp hfind name hname
    exact absurd (beq_self_eq_true _) hnone
  · have hsame := type_of_hash hapart hy hfind
    rw [Shape.symbol.inj hsame]

theorem Shape.cells_self (x : Shape) : x ∈ x.cells := by
  cases x <;> simp [Shape.cells]

theorem Shape.cells_trans {y z : Shape} (hy : y ∈ x.cells) (hz : z ∈ y.cells) : z ∈ x.cells := by
  induction x with
  | pair h t ihh iht =>
    rw [Shape.cells, List.mem_cons, List.mem_append] at hy
    rcases hy with rfl | hhead | htail
    · exact hz
    · exact List.mem_cons_of_mem _ (List.mem_append_left _ (ihh hhead))
    · exact List.mem_cons_of_mem _ (List.mem_append_right _ (iht htail))
  | nil =>
    obtain rfl := List.mem_singleton.mp hy
    exact hz
  | symbol s =>
    obtain rfl := List.mem_singleton.mp hy
    exact hz
  | bytes b =>
    obtain rfl := List.mem_singleton.mp hy
    exact hz

theorem Shape.head_mem (h : Shape.pair a b ∈ x.cells) : a ∈ x.cells :=
  Shape.cells_trans h (List.mem_cons_of_mem _ (List.mem_append_left _ a.cells_self))

theorem Shape.tail_mem (h : Shape.pair a b ∈ x.cells) : b ∈ x.cells :=
  Shape.cells_trans h (List.mem_cons_of_mem _ (List.mem_append_right _ b.cells_self))

theorem composite_builtin {name : String} (h : name ∈ builtinCompositeTypeNames) :
    name ∈ builtinTypeNames := List.mem_append_left _ h

/-- Whether a hash names a composite type is told by the shape. -/
theorem composite_of_hash (hapart : x.HashesApart node.blake3) (hb : b ∈ x.cells) :
    (match builtinTypeOfHash node.blake3 (b.hash node.blake3) with
      | some name => decide (name ∈ builtinCompositeTypeNames)
      | none => false) = b.isType := by
  rcases hname : builtinTypeOfHash node.blake3 (b.hash node.blake3) with _ | name
  · cases b with
    | symbol s =>
      by_cases hs : s ∈ builtinCompositeTypeNames
      · have hsome := builtinTypeOfHash_symbol hapart hb (composite_builtin hs)
        rw [Shape.hash, hsome] at hname
        cases hname
      · simp [Shape.isType, hs]
    | _ => rfl
  · obtain rfl := type_of_hash hapart hb hname
    rfl

/-- A cell is a plain link where its tail is no type symbol. -/
theorem tag_eq_link {v : Val} (hapart : x.HashesApart node.blake3) (hb : b ∈ x.cells)
    (htail : t.Shows node b) : node.tag (.link v h t) = "link" ↔ b.isType = false := by
  have hlink : "link" ∉ builtinCompositeTypeNames := by decide
  have hnamed : ∀ name : String,
      (if name ∈ builtinCompositeTypeNames then name else "link") = "link" ↔
        decide (name ∈ builtinCompositeTypeNames) = false := by
    intro name
    by_cases hname : name ∈ builtinCompositeTypeNames
    · have hne : name ≠ "link" := fun hcon => hlink (hcon ▸ hname)
      simp [hname, hne]
    · simp [hname]
  cases htail with
  | none => exact ⟨fun _ => rfl, fun _ => rfl⟩
  | loaded he =>
    cases he with
    | symbol s => exact hnamed s
    | _ => exact ⟨fun _ => rfl, fun _ => rfl⟩
  | byHash hget he =>
    rw [← composite_of_hash hapart hb]
    change (match builtinTypeOfHash node.blake3 (b.hash node.blake3) with
      | some name => if name ∈ builtinCompositeTypeNames then name else "link"
      | none => "link") = "link" ↔ _
    rcases builtinTypeOfHash node.blake3 (b.hash node.blake3) with _ | name
    · exact ⟨fun _ => rfl, fun _ => rfl⟩
    · exact hnamed name

theorem composite_of_tail (t : Child) (hapart : x.HashesApart node.blake3) (hb : b ∈ x.cells) :
    t.Shows node b → (match t with
      | .none => false
      | t => match builtinTypeOfHash node.blake3 (t.hash node.blake3) with
        | some name => decide (name ∈ builtinCompositeTypeNames)
        | none => false) = b.isType := by
  intro htail
  have hsame := hash_of_childShows htail
  cases htail with
  | none => rfl
  | loaded he =>
    simp only [hsame]
    exact composite_of_hash hapart hb
  | byHash hget he => exact composite_of_hash hapart hb

theorem payload_of_head (h : Child) : h.Shows node a → b.isType = true →
    (match (match h with
        | .loaded e => some (some e)
        | .byHash x => (getExpr node x).map some
        | .none => some none : Option (Option Expr)) with
      | none => (.ok none : Py (Option (Option Nat)))
      | some (some (.bytes b)) => .ok (some (some b.length))
      | some (some (.bytesOf _)) => .error .typeError
      | some _ => .ok (some none)) = .ok (some (Shape.pair a b).payloadLength?) := by
  intro hhead hkind
  cases hhead with
  | none => rfl
  | loaded he => cases he <;> simp [Shape.payloadLength?, hkind, typed]
  | byHash hget he =>
    simp only [hget]
    cases he <;> simp [Shape.payloadLength?, hkind, typed]

/-- The payload of a value is known from any way it is held. -/
theorem typedPayloadSize_of_shows (hapart : x.HashesApart node.blake3) {y : Shape}
    (hy : y ∈ x.cells) (hshows : e.Shows node y) :
    typedPayloadSize node e = .ok (some y.payloadLength?) := by
  cases hshows with
  | nil => rfl
  | symbol s => rfl
  | bytes b => rfl
  | @value v ty p hty hp =>
    have hv : (v != .none) = true := by
      cases v <;> first | rfl | (rw [tagByteEncode_of_none] at hp; cases hp)
    have hcomposite : (typed v ty).isBuiltinComposite = true := by
      simp [typed, Expr.isBuiltinComposite, hty, hv]
    simp only [typed] at hcomposite ⊢
    simp only [typedPayloadSize, hcomposite, if_true, payload?, hp, Shape.payloadLength?,
      Shape.isType, hty, decide_true]
  | @pair h t a b hhead htail =>
    have hb := Shape.tail_mem hy
    by_cases hcomposite : (Expr.link .none h t).isBuiltinComposite = true
    · obtain ⟨ty, hty, rfl⟩ : ∃ ty, ty ∈ builtinCompositeTypeNames ∧ t = .loaded (.symbol ty) := by
        rcases t with _ | e | hash
        · cases hcomposite
        · cases e with
          | symbol ty =>
            simp only [Expr.isBuiltinComposite, Bool.and_eq_true, decide_eq_true_eq] at hcomposite
            exact ⟨ty, hcomposite.1, rfl⟩
          | _ => cases hcomposite
        · cases hcomposite
      cases htail with
      | loaded ht =>
        cases ht
        cases hhead with
        | loaded he =>
          cases he with
          | bytes p =>
            simp only [typedPayloadSize, hcomposite, if_true, payload?, tagByteEncode_of_none,
              Shape.payloadLength?, Shape.isType, hty, decide_true]
          | _ => simp [Expr.isBuiltinComposite, Expr.base, typed] at hcomposite
        | _ => simp [Expr.isBuiltinComposite] at hcomposite
    · have hpayload := payload_of_head (b := b) h hhead
      have htype := composite_of_tail t hapart hb htail
      unfold typedPayloadSize
      simp only [if_neg hcomposite]
      cases hkind : b.isType with
      | false =>
        have hnot := congrArg Bool.not (htype.trans hkind)
        refine (if_pos hnot).trans ?_
        cases a <;> simp [Shape.payloadLength?, hkind]
      | true =>
        have hnot := congrArg Bool.not (htype.trans hkind)
        exact (if_neg (Bool.eq_false_iff.mp hnot)).trans (hpayload hkind)

theorem link_of_shows (hshows : e.Shows node (.pair a b)) :
    ∃ v h t, e = .link v h t ∧ t.Shows node b := by
  cases hshows with
  | pair hhead htail => exact ⟨_, _, _, rfl, htail⟩
  | @value v ty p hty hp => exact ⟨v, .none, _, rfl, .loaded (.symbol ty)⟩

/-- The size of a cell that is no misfit is known from any way it is held. -/
theorem flatSize_of_shows (hapart : x.HashesApart node.blake3) {y : Shape} (hy : y ∈ x.cells)
    (hshows : e.Shows node y) (hfit : y.misfit = false) : flatSize node e = .ok (some y.flat) := by
  have hpayload := typedPayloadSize_of_shows hapart hy hshows
  rw [flatSize, hpayload]
  cases y with
  | nil =>
    cases hshows
    rfl
  | symbol s =>
    cases hshows
    rfl
  | bytes b =>
    cases hshows
    rfl
  | pair a b =>
    rcases hlength : (Shape.pair a b).payloadLength? with _ | length
    · have hkind : b.isType = false := by
        by_contra hcon
        rw [Bool.not_eq_false] at hcon
        rw [Shape.misfit, hcon, Bool.true_and, Bool.not_eq_false'] at hfit
        cases a with
        | bytes p => simp [Shape.payloadLength?, hcon] at hlength
        | _ => cases hfit
      obtain ⟨v, h, t, rfl, htail⟩ := link_of_shows hshows
      have htag := (tag_eq_link (v := v) (h := h) hapart (Shape.tail_mem hy) htail).mpr hkind
      rw [Shape.flat, hlength]
      change (if node.tag (.link v h t) ≠ "link" then _ else _) = _
      rw [if_neg (not_not.mpr htag)]
      rfl
    · rw [Shape.flat, hlength]
      rfl

variable (node) (P : Expr → Shape → Prop)

/-- A child is, held or under its hash, a cell that is held of its shape in the way of `P`. -/
def Child.Is (ch : Child) (y : Shape) : Prop :=
  (ch = .none ∧ y = .nil) ∨ ∃ e, P e y ∧ (ch = .loaded e ∨
    (ch = .byHash (y.hash node.blake3) ∧ getExpr node (y.hash node.blake3) = some e))

/-- An item of a walk comes to a cell that is held of its shape in the way of `P`. -/
def ItemIs (item : Option Expr × Bytes) (y : Shape) : Prop :=
  item.2 = y.hash node.blake3 ∧ ∃ e, item.1.or (getExpr node item.2) = some e ∧ P e y

variable {node} {P}

theorem items_of_side (hP : ∀ e y, P e y → e.Shows node y) (ch : Child) {y : Shape} :
    ch.Is node P y → ∃ items, (match ch with
      | .loaded e => do
        let h ← node.hash? e
        return if h = zero32 then [] else [(some e, h)]
      | .byHash h => .ok (if h = zero32 then [] else [(none, h)])
      | .none => .ok [] : Py (List (Option Expr × Bytes))) = .ok items ∧
      List.Forall₂ (ItemIs node P) items
        ([y].filter fun y => decide (y.hash node.blake3 ≠ zero32)) := by
  intro his
  have hfilter : ∀ item : Option Expr × Bytes, ItemIs node P item y →
      List.Forall₂ (ItemIs node P) (if y.hash node.blake3 = zero32 then [] else [item])
        ([y].filter fun y => decide (y.hash node.blake3 ≠ zero32)) := by
    intro item hitem
    by_cases hzero : y.hash node.blake3 = zero32
    · simp [hzero]
    · simp [hzero, hitem]
  rcases his with ⟨rfl, rfl⟩ | ⟨e, he, rfl | ⟨rfl, hget⟩⟩
  · exact ⟨[], rfl, by simp [Shape.hash]⟩
  · obtain ⟨hhash, hhashable⟩ := hash_of_shows (hP e y he)
    refine ⟨_, ?_, hfilter (some e, y.hash node.blake3) ⟨rfl, e, rfl, he⟩⟩
    simp only [Node.hash?, hhashable, if_true, hhash]
    rfl
  · exact ⟨_, rfl, hfilter (none, y.hash node.blake3) ⟨rfl, e, hget, he⟩⟩

/-- A walk goes on to the children of the shape. -/
theorem cellChildren_of_link (hP : ∀ e y, P e y → e.Shows node y)
    (hapart : x.HashesApart node.blake3) (hy : Shape.pair a b ∈ x.cells)
    (hshows : (Expr.link .none h t).Shows node (.pair a b)) (hh : h.Is node P a)
    (ht : t.Is node P b) (hkind : b.isType = false) :
    ∃ items, cellChildren node (.link .none h t) = .ok items ∧
      List.Forall₂ (ItemIs node P) items ((Shape.pair a b).children node.blake3) := by
  have hpayload := typedPayloadSize_of_shows hapart hy hshows
  have hnone : (Shape.pair a b).payloadLength? = none := by
    cases a <;> simp [Shape.payloadLength?, hkind]
  obtain ⟨v, h', t', hlink, htail⟩ := link_of_shows hshows
  obtain ⟨-, -, rfl⟩ := Expr.link.inj hlink
  have htag := (tag_eq_link (v := .none) (h := h) hapart (Shape.tail_mem hy) htail).mpr hkind
  obtain ⟨heads, hheads, hrelh⟩ := items_of_side hP h hh
  obtain ⟨tails, htails, hrelt⟩ := items_of_side hP t ht
  refine ⟨heads ++ tails, ?_, ?_⟩
  · rw [cellChildren, if_neg (not_not.mpr htag), hpayload, hnone]
    refine except_bind_eq_ok.mpr ⟨some none, rfl, except_bind_eq_ok.mpr ⟨heads, hheads, ?_⟩⟩
    exact except_bind_eq_ok.mpr ⟨tails, htails, rfl⟩
  · rw [Shape.children, if_neg (Bool.eq_false_iff.mp hkind)]
    have hsplit : ([a, b].filter fun y => decide (y.hash node.blake3 ≠ zero32)) =
        ([a].filter fun y => decide (y.hash node.blake3 ≠ zero32)) ++
          [b].filter fun y => decide (y.hash node.blake3 ≠ zero32) := List.filter_append [a] [b]
    rw [hsplit]
    exact List.rel_append hrelh hrelt

/-- A walk goes on to nothing from a leaf or from a pair under a type symbol. -/
theorem cellChildren_of_leaf (hapart : x.HashesApart node.blake3) {y : Shape} (hy : y ∈ x.cells)
    (hshows : e.Shows node y) (hleaf : ∀ a b, y = .pair a b → b.isType = true) :
    cellChildren node e = .ok [] ∧ y.children node.blake3 = [] := by
  cases y with
  | nil =>
    cases hshows
    exact ⟨rfl, rfl⟩
  | symbol s =>
    cases hshows
    exact ⟨rfl, rfl⟩
  | bytes b =>
    cases hshows
    exact ⟨rfl, rfl⟩
  | pair a b =>
    have hkind := hleaf a b rfl
    obtain ⟨v, h, t, rfl, htail⟩ := link_of_shows hshows
    have htag : node.tag (.link v h t) ≠ "link" := by
      intro hcon
      have hfalse := (tag_eq_link hapart (Shape.tail_mem hy) htail).mp hcon
      rw [hkind] at hfalse
      cases hfalse
    refine ⟨?_, by rw [Shape.children, if_pos hkind]⟩
    rw [cellChildren, if_pos htag]
    rfl

end Cells

section Simulation

variable {node : Node} {P : Expr → Shape → Prop} {x : Shape} {roots stack visited : List Shape}
  {skip : Bytes → Bool} {good : Shape → Prop} {w : Shape → Nat}

variable (node P x good w) in
/-- Cells of `x` that are held in the way of `P` have the size `w` where they are good, and children
that are held in this way. -/
structure Uniform : Prop where
  shows : ∀ e y, P e y → y ∈ x.cells ∧ e.Shows node y
  size : ∀ e y, P e y → good y → flatSize node e = .ok (some (w y))
  children : ∀ e y, P e y → ∃ items, cellChildren node e = .ok items ∧
    List.Forall₂ (ItemIs node P) items (y.children node.blake3)

/-- The walk for the size sums up what a visit of the shapes visits. -/
theorem storageWalkFrom_eq (huniform : Uniform node P x good w) {n : Nat}
    {items : List (Option Expr × Bytes)} {seen found : List Bytes}
    (hgood : ∀ y, Visit.Reaches (Shape.children node.blake3) (Shape.hash node.blake3) skip roots y →
      good y)
    (hitems : List.Forall₂ (ItemIs node P) items stack)
    (hvisiting : Visit.Visiting (Shape.children node.blake3) (Shape.hash node.blake3) skip roots
      stack visited found)
    (hseen : ∀ h, h ∈ seen ↔ h ∈ visited.map (Shape.hash node.blake3) ∨ skip h = true) :
    storageWalkFrom node n items seen (visited.map w).sum =
      match Visit.visit (Shape.children node.blake3) (Shape.hash node.blake3) skip n stack visited
        found with
      | none => .error .outOfFuel
      | some (visited, _) => .ok (some (visited.map w).sum) := by
  induction n generalizing items stack visited found seen with
  | zero => rfl
  | succ n ih =>
    cases hitems with
    | nil => rfl
    | @cons item y items stack hitem hitems =>
      obtain ⟨sub, h⟩ := item
      obtain ⟨rfl, e, hcell, he⟩ := hitem
      rw [storageWalkFrom, Visit.visit]
      by_cases hold : y.hash node.blake3 ∈ visited.map (Shape.hash node.blake3)
      · rw [if_pos ((hseen _).mpr (.inl hold)), if_pos hold]
        exact ih hitems (hvisiting.again hold) hseen
      rw [if_neg hold]
      by_cases hskip : skip (y.hash node.blake3) = true
      · rw [if_pos ((hseen _).mpr (.inr hskip)), if_pos hskip]
        exact ih hitems (hvisiting.pass hskip) hseen
      have hnew : y.hash node.blake3 ∉ seen := fun hcon =>
        ((hseen _).mp hcon).elim hold hskip
      have hfalse := Bool.eq_false_iff.mpr hskip
      have hreached := (hvisiting.pending y List.mem_cons_self).reaches hfalse
      have hsize := huniform.size e y he (hgood y hreached)
      obtain ⟨below, hbelow, hrel⟩ := huniform.children e y he
      rw [if_neg hnew, if_neg hskip]
      simp only [hcell, hsize, hbelow]
      have hsum : (visited.map w).sum + w y = ((visited ++ [y]).map w).sum := by simp
      change storageWalkFrom node n (below ++ items) _ ((visited.map w).sum + w y) = _
      rw [hsum]
      refine ih (List.rel_append hrel hitems) (hvisiting.take hold hfalse) fun h => ?_
      rw [List.mem_cons, hseen, List.map_append, List.mem_append, List.map_singleton,
        List.mem_singleton]
      tauto

/-- The walk for a record slots what a visit of the shapes visits. -/
theorem recordSlotsFrom_eq (huniform : Uniform node P x good w) {lookup : Tree} {n : Nat}
    {items : List (Option Expr × Bytes)} {found : List Bytes}
    (hgood : ∀ y, Visit.Reaches (Shape.children node.blake3) (Shape.hash node.blake3) skip roots y →
      good y)
    (hitems : List.Forall₂ (ItemIs node P) items stack)
    (hvisiting : Visit.Visiting (Shape.children node.blake3) (Shape.hash node.blake3) skip roots
      stack visited found)
    (hskip : ∀ h, (getFromRadixTree node lookup h).isSome = skip h) :
    recordSlotsFrom node lookup n items (visited.map (Shape.hash node.blake3)) found
        (visited.map w).sum =
      match Visit.visit (Shape.children node.blake3) (Shape.hash node.blake3) skip n stack visited
        found with
      | none => .error .outOfFuel
      | some (visited, found) => .ok (some (visited.map (Shape.hash node.blake3), found,
          (visited.map w).sum)) := by
  induction n generalizing items stack visited found with
  | zero => rfl
  | succ n ih =>
    cases hitems with
    | nil => rfl
    | @cons item y items stack hitem hitems =>
      obtain ⟨sub, h⟩ := item
      obtain ⟨rfl, e, hcell, he⟩ := hitem
      rw [recordSlotsFrom, Visit.visit]
      by_cases hold : y.hash node.blake3 ∈ visited.map (Shape.hash node.blake3)
      · rw [if_pos hold, if_pos hold]
        exact ih hitems (hvisiting.again hold)
      rw [if_neg hold, if_neg hold, hskip]
      by_cases hpass : skip (y.hash node.blake3) = true
      · rw [if_pos hpass, if_pos hpass]
        exact ih hitems (hvisiting.pass hpass)
      have hfalse := Bool.eq_false_iff.mpr hpass
      have hreached := (hvisiting.pending y List.mem_cons_self).reaches hfalse
      have hsize := huniform.size e y he (hgood y hreached)
      obtain ⟨below, hbelow, hrel⟩ := huniform.children e y he
      rw [if_neg hpass, if_neg hpass]
      simp only [hcell, hsize, hbelow]
      have hsum : (visited.map w).sum + w y = ((visited ++ [y]).map w).sum := by simp
      have hslots : visited.map (Shape.hash node.blake3) ++ [y.hash node.blake3] =
          (visited ++ [y]).map (Shape.hash node.blake3) := by simp
      change recordSlotsFrom node lookup n (below ++ items)
        (visited.map (Shape.hash node.blake3) ++ [y.hash node.blake3]) found
        ((visited.map w).sum + w y) = _
      rw [hsum, hslots]
      exact ih (List.rel_append hrel hitems) (hvisiting.take hold hfalse)

/-- The size of a walk is what the visited shapes weigh. -/
theorem storageWalkSize_eq (huniform : Uniform node P x good w) {e : Expr} (he : P e x)
    (exclude : List Bytes)
    (hgood : ∀ y, Visit.Reaches (Shape.children node.blake3) (Shape.hash node.blake3)
      (fun h => decide (h ∈ exclude)) [x] y → good y) :
    storageWalkSize node e exclude =
      match Visit.visit (Shape.children node.blake3) (Shape.hash node.blake3)
        (fun h => decide (h ∈ exclude)) node.fuel [x] [] [] with
      | none => .error .outOfFuel
      | some (visited, _) => .ok (some (visited.map w).sum) := by
  obtain ⟨hhash, hhashable⟩ := hash_of_shows (huniform.shows e x he).2
  have hitem : List.Forall₂ (ItemIs node P) [(some e, x.hash node.blake3)] [x] :=
    .cons ⟨rfl, e, rfl, he⟩ .nil
  rw [storageWalkSize, Node.hash?, if_pos hhashable, hhash]
  exact storageWalkFrom_eq huniform hgood hitem (.start [x]) (by simp)

/-- The walk for a record goes over what is visited below the root. -/
theorem walkRecordSlots_eq (huniform : Uniform node P x good w) (hapart : x.HashesApart node.blake3)
    {e : Expr} (he : P e x) {lookup : Tree}
    (hskip : ∀ h, (getFromRadixTree node lookup h).isSome = skip h)
    (hgood : ∀ y, Visit.Reaches (Shape.children node.blake3) (Shape.hash node.blake3) skip
      (x.children node.blake3) y → good y) :
    walkRecordSlots node lookup e =
      match Visit.visit (Shape.children node.blake3) (Shape.hash node.blake3) skip node.fuel
        (x.children node.blake3) [] [] with
      | none => .error .outOfFuel
      | some (visited, found) => .ok (some (visited.map (Shape.hash node.blake3), found,
          (visited.map w).sum)) := by
  have hshows := (huniform.shows e x he).2
  obtain ⟨-, hhashable⟩ := hash_of_shows hshows
  obtain ⟨items, hitems, hrel⟩ := huniform.children e x he
  have hpayload := typedPayloadSize_of_shows hapart x.cells_self hshows
  have hroot : rootChildren node e = .ok (some items) := by
    rw [rootChildren, hpayload, if_neg (fun hcon => by cases hcon.2), hitems]
    rfl
  rw [walkRecordSlots, Node.hash?, if_pos hhashable, hroot]
  exact recordSlotsFrom_eq huniform hgood hrel (.start _) hskip

end Simulation

section Alike

variable {node : Node} {x y : Shape} {roots : List Shape} {skip : Bytes → Bool}

theorem Shape.cells_pos (x : Shape) : 0 < x.cells.length :=
  List.length_pos_of_mem x.cells_self

theorem children_weight (blake3 : Bytes → Bytes) (x : Shape) :
    ((x.children blake3).map fun y => y.cells.length).sum < x.cells.length := by
  cases x with
  | pair h t =>
    rw [Shape.children, Shape.cells, List.length_cons, List.length_append]
    split
    · simp
    · have hsub : (([h, t].filter fun y => decide (y.hash blake3 ≠ zero32)).map
          fun y => y.cells.length).sum ≤ ([h, t].map fun y => y.cells.length).sum :=
        (List.filter_sublist.map _).sum_le_sum fun _ _ => Nat.zero_le _
      simp only [List.map_cons, List.map_nil, List.sum_cons, List.sum_nil] at hsub
      omega
  | _ => exact Shape.cells_pos _

theorem mem_cells_of_children {blake3 : Bytes → Bytes} {z : Shape} (hy : y ∈ x.cells)
    (hz : z ∈ y.children blake3) : z ∈ x.cells := by
  cases y with
  | pair h t =>
    rw [Shape.children] at hz
    split at hz
    · cases hz
    · have hside := List.mem_of_mem_filter hz
      simp only [List.mem_cons, List.not_mem_nil, or_false] at hside
      rcases hside with rfl | rfl
      · exact Shape.head_mem hy
      · exact Shape.tail_mem hy
  | _ => cases hz

/-- What is reached from cells of `x` are cells of `x`. -/
theorem mem_cells_of_reaches {blake3 : Bytes → Bytes} (hroots : ∀ y ∈ roots, y ∈ x.cells)
    (hy : Visit.Reaches (Shape.children blake3) (Shape.hash blake3) skip roots y) :
    y ∈ x.cells := by
  induction hy with
  | root hroot => exact hroots _ hroot
  | child h hchild hs ih => exact mem_cells_of_children ih hchild

theorem key_inj {blake3 : Bytes → Bytes} (hapart : x.HashesApart blake3)
    (hroots : ∀ y ∈ roots, y ∈ x.cells) (y z : Shape)
    (hy : Visit.Reaches (Shape.children blake3) (Shape.hash blake3) skip roots y)
    (hz : Visit.Reaches (Shape.children blake3) (Shape.hash blake3) skip roots z)
    (hsame : y.hash blake3 = z.hash blake3) : y = z :=
  hapart y (mem_cells_of_reaches hroots hy) z
    (List.mem_append_left _ (mem_cells_of_reaches hroots hz)) hsame

theorem childIs_of_shows {ch : Child} (hy : y ∈ x.cells) (h : ch.Shows node y) :
    ch.Is node (fun e y => y ∈ x.cells ∧ e.Shows node y) y := by
  cases h with
  | none => exact .inl ⟨rfl, rfl⟩
  | loaded he => exact .inr ⟨_, ⟨hy, he⟩, .inl rfl⟩
  | byHash hget he => exact .inr ⟨_, ⟨hy, he⟩, .inr ⟨rfl, hget⟩⟩

/-- However cells are held, those that are no misfits have the size of their shape. -/
theorem uniform_shows (hapart : x.HashesApart node.blake3) :
    Uniform node (fun e y => y ∈ x.cells ∧ e.Shows node y) x (fun y => y.misfit = false)
      Shape.flat where
  shows := fun e y h => h
  size := fun e y h hfit => flatSize_of_shows hapart h.1 h.2 hfit
  children := by
    rintro e y ⟨hy, hshows⟩
    by_cases hlink : ∃ a b, y = .pair a b ∧ b.isType = false
    · obtain ⟨a, b, rfl, hkind⟩ := hlink
      cases hshows with
      | pair hhead htail =>
        exact cellChildren_of_link (fun e y h => h.2) hapart hy (.pair hhead htail)
          (childIs_of_shows (Shape.head_mem hy) hhead)
          (childIs_of_shows (Shape.tail_mem hy) htail) hkind
      | value hty hp => simp [Shape.isType, hty] at hkind
    · obtain ⟨hnone, hchildren⟩ := cellChildren_of_leaf hapart hy hshows fun a b hpair => by
        by_contra hcon
        exact hlink ⟨a, b, hpair, Bool.eq_false_iff.mpr hcon⟩
      exact ⟨[], hnone, hchildren ▸ .nil⟩

variable (blake3 : Bytes → Bytes) (x)

/-- The cells below the roots and below nothing whose hash is in the list. -/
abbrev Shape.Reached (skip : List Bytes) (roots : List Shape) : Shape → Prop :=
  Visit.Reaches (Shape.children blake3) (Shape.hash blake3) (fun h => decide (h ∈ skip)) roots

/-- `storage_walk_size` has one result, however `x` is held and on whichever node. -/
def SizedAlike (exclude : List Bytes) : Prop :=
  ∃ total, ∀ node e, node.blake3 = blake3 → e.Shows node x → x.cells.length < node.fuel →
    storageWalkSize node e exclude = .ok (some total)

/-- Each new cell below `x` has one slot, nothing below a registered cell has one, and the
registered cells that the walk comes to are found. -/
structure SlotsOnce (registered slots found : List Bytes) : Prop where
  once : slots.Nodup
  slots : ∀ h, h ∈ slots ↔
    ∃ y, Shape.Reached blake3 registered (x.children blake3) y ∧ y.hash blake3 = h
  found : ∀ h, h ∈ found ↔ h ∈ registered ∧
    ∃ y, (y ∈ x.children blake3 ∨
      ∃ z, Shape.Reached blake3 registered (x.children blake3) z ∧ y ∈ z.children blake3) ∧
      y.hash blake3 = h

/-- `walk_record_slots` has one result, however `x` is held and on whichever node. -/
def RecordedAlike (registered : List Bytes) : Prop :=
  ∃ slots found size, SlotsOnce x blake3 registered slots found ∧
    ∀ node e lookup, node.blake3 = blake3 → e.Shows node x → x.cells.length < node.fuel →
      (∀ h, (getFromRadixTree node lookup h).isSome = decide (h ∈ registered)) →
      walkRecordSlots node lookup e = .ok (some (slots, found, size))

variable {blake3} {x}

theorem exists_cells_visit (blake3 : Bytes → Bytes) (skip : Bytes → Bool) {n : Nat}
    (h : (roots.map fun y => y.cells.length).sum < n) :
    ∃ visited found,
      Visit.visit (Shape.children blake3) (Shape.hash blake3) skip n roots [] [] =
        some (visited, found) ∧
      Visit.Visiting (Shape.children blake3) (Shape.hash blake3) skip roots [] visited found := by
  obtain ⟨⟨visited, found⟩, hrun⟩ : ∃ r,
      Visit.visit (Shape.children blake3) (Shape.hash blake3) skip n roots [] [] = some r :=
    Visit.exists_visit _ (children_weight blake3) h
  exact ⟨visited, found, hrun, (Visit.Visiting.start roots).run hrun⟩

theorem sizedAlike_of_fit (hapart : x.HashesApart blake3) {exclude : List Bytes}
    (hfit : ∀ y, Shape.Reached blake3 exclude [x] y → y.misfit = false) :
    SizedAlike x blake3 exclude := by
  have hfuel : ([x].map fun y => y.cells.length).sum < x.cells.length + 1 := by simp
  obtain ⟨visited, found, hrun, -⟩ :=
    exists_cells_visit blake3 (fun h => decide (h ∈ exclude)) hfuel
  refine ⟨(visited.map Shape.flat).sum, ?_⟩
  rintro node e rfl hshows hfuel
  rw [storageWalkSize_eq (uniform_shows hapart) ⟨x.cells_self, hshows⟩ exclude hfit,
    Visit.visit_of_le hfuel hrun]

theorem slotsOnce_of_visit (hapart : x.HashesApart blake3) {registered : List Bytes}
    {visited : List Shape} {found : List Bytes}
    (h : Visit.Visiting (Shape.children blake3) (Shape.hash blake3)
      (fun h => decide (h ∈ registered)) (x.children blake3) [] visited found) :
    SlotsOnce x blake3 registered (visited.map (Shape.hash blake3)) found := by
  have hroots : ∀ y ∈ x.children blake3, y ∈ x.cells := fun y hy =>
    mem_cells_of_children x.cells_self hy
  refine ⟨h.once, fun k => ?_, fun k => ?_⟩
  · rw [List.mem_map]
    constructor
    · rintro ⟨y, hy, rfl⟩
      exact ⟨y, h.reached y hy, rfl⟩
    · rintro ⟨y, hy, rfl⟩
      exact ⟨y, h.complete (key_inj hapart hroots) hy, rfl⟩
  · rw [h.mem_found (key_inj hapart hroots)]
    constructor
    · rintro ⟨y, hy, rfl, hskip⟩
      exact ⟨of_decide_eq_true hskip, y, hy, rfl⟩
    · rintro ⟨hskip, y, hy, rfl⟩
      exact ⟨y, hy, rfl, decide_eq_true hskip⟩

theorem recordedAlike_of_fit (hapart : x.HashesApart blake3) {registered : List Bytes}
    (hfit : ∀ y, Shape.Reached blake3 registered (x.children blake3) y → y.misfit = false) :
    RecordedAlike x blake3 registered := by
  obtain ⟨visited, found, hrun, hvisiting⟩ :=
    exists_cells_visit blake3 (fun h => decide (h ∈ registered))
      ((children_weight blake3 x).trans (Nat.lt_succ_self _))
  have hslots := slotsOnce_of_visit hapart hvisiting
  refine ⟨_, found, (visited.map Shape.flat).sum, hslots, ?_⟩
  rintro node e lookup rfl hshows hfuel hskip
  rw [walkRecordSlots_eq (uniform_shows hapart) hapart ⟨x.cells_self, hshows⟩ hskip hfit,
    Visit.visit_of_le hfuel hrun]

end Alike

namespace Shape

/-- All of it held as cells. -/
def loaded : Shape → Expr
  | nil => .nil
  | symbol s => .symbol s
  | bytes b => .bytes b
  | pair h t => .link .none (.loaded h.loaded) (.loaded t.loaded)

/-- All of it held as cells but for the type symbols, which are known by their hashes. -/
def cut (blake3 : Bytes → Bytes) : Shape → Expr
  | nil => .nil
  | symbol s => .symbol s
  | bytes b => .bytes b
  | pair h t =>
    if t.isType then .link .none (.loaded h.loaded) (.byHash (t.hash blake3))
    else .link .none (.loaded (h.cut blake3)) (.loaded (t.cut blake3))

/-- `Expr.size` of a cell that is held with all below it. -/
def loadedSize : Shape → Nat
  | nil => 64
  | symbol s => (utf8 s).length
  | bytes b => b.length
  | pair (bytes b) _ => b.length
  | pair h t => h.loadedSize + t.loadedSize

/-- `Expr.size` of a misfit whose type symbol is known by its hash. -/
def cutSize : Shape → Nat
  | pair h _ => h.loadedSize + 32
  | _ => 0

end Shape

/-- A node that has stored nothing. -/
def emptyNode (blake3 : Bytes → Bytes) (fuel : Nat) : Node where
  blake3 := blake3
  stored _ := none
  openTree _ := .empty
  treeRoot _ := zero32
  treeCells _ := []
  verify _ _ _ := true
  fuel := fuel

/-- A trie with these keys. -/
def registering (keys : List Bytes) : Tree :=
  keys.foldr (fun key tree => tree.insert key (.expr .nil)) .empty

section Ways

variable {node : Node} {x y a b : Shape} {blake3 : Bytes → Bytes}

theorem size_loaded_pair (h : Shape) (t : Child) (htag : h.isBytes = false) {n m : Nat}
    (hh : h.loaded.size = .ok n) (ht : t.size = .ok m) :
    (Expr.link .none (.loaded h.loaded) t).size = .ok (n + m) := by
  rw [Expr.size.eq_def]
  simp only [payload?_of_none]
  cases h with
  | bytes b => cases htag
  | _ =>
    simp only [Shape.loaded] at hh ⊢
    change (do
      let hs ← Expr.size _
      let ts ← t.size
      return hs + ts : Py Nat) = _
    rw [hh, ht]
    rfl

theorem size_loaded (x : Shape) : x.loaded.size = .ok x.loadedSize := by
  induction x with
  | pair h t ihh iht =>
    cases hbytes : h.isBytes with
    | false =>
      have hsize : (Shape.pair h t).loadedSize = h.loadedSize + t.loadedSize := by
        cases h <;> first | rfl | cases hbytes
      rw [hsize]
      exact size_loaded_pair h _ hbytes ihh iht
    | true =>
      cases h with
      | bytes b =>
        rw [Shape.loaded, Expr.size.eq_def]
        simp only [payload?_of_none, Shape.loaded, Shape.loadedSize]
      | _ => cases hbytes
  | _ => rfl

theorem shows_loaded (node : Node) (x : Shape) : x.loaded.Shows node x := by
  induction x with
  | nil => exact .nil
  | symbol s => exact .symbol s
  | bytes b => exact .bytes b
  | pair h t ihh iht => exact .pair (.loaded ihh) (.loaded iht)

theorem getExpr_type (hapart : x.HashesApart blake3) {s : String} (hs : .symbol s ∈ x.cells)
    (hty : s ∈ builtinCompositeTypeNames) (fuel : Nat) :
    getExpr (emptyNode blake3 fuel) ((Shape.symbol s).hash blake3) = some (.symbol s) := by
  have hzero : (Shape.symbol s).hash blake3 ≠ zero32 := by
    intro hcon
    have hnil := hapart _ hs .nil (List.mem_append_right _ List.mem_cons_self) hcon
    cases hnil
  have hname := builtinTypeOfHash_symbol hapart hs (composite_builtin hty)
  rw [getExpr, if_neg hzero]
  exact congrArg (Option.map Expr.symbol) hname

theorem shows_cut (hapart : x.HashesApart blake3) (fuel : Nat) (hy : y ∈ x.cells) :
    (y.cut blake3).Shows (emptyNode blake3 fuel) y := by
  induction y with
  | nil => exact .nil
  | symbol s => exact .symbol s
  | bytes b => exact .bytes b
  | pair h t ihh iht =>
    rw [Shape.cut]
    split
    · rename_i hkind
      cases t with
      | symbol s =>
        have hty : s ∈ builtinCompositeTypeNames := of_decide_eq_true hkind
        have hget := getExpr_type hapart (Shape.tail_mem hy) hty fuel
        exact .pair (.loaded (shows_loaded _ h)) (.byHash hget (.symbol s))
      | _ => cases hkind
    · exact .pair (.loaded (ihh (Shape.head_mem hy))) (.loaded (iht (Shape.tail_mem hy)))

/-- One way of holding each shape is uniform, its misfits among them. -/
theorem uniform_of_way (hapart : x.HashesApart node.blake3) {way : Shape → Expr} {m : Shape → Nat}
    (hshows : ∀ y ∈ x.cells, (way y).Shows node y)
    (hpair : ∀ a b, b.isType = false →
      way (.pair a b) = .link .none (.loaded (way a)) (.loaded (way b)))
    (hsize : ∀ y ∈ x.cells, y.misfit = true → (way y).size = .ok (m y)) :
    Uniform node (fun e y => y ∈ x.cells ∧ e = way y) x (fun _ => True)
      (fun y => if y.misfit then m y else y.flat) where
  shows := by
    rintro e y ⟨hy, rfl⟩
    exact ⟨hy, hshows y hy⟩
  size := by
    rintro e y ⟨hy, rfl⟩ -
    cases hfit : y.misfit with
    | false => exact flatSize_of_shows hapart hy (hshows y hy) hfit
    | true =>
      have hpayload := typedPayloadSize_of_shows hapart hy (hshows y hy)
      cases y with
      | pair a b =>
        simp only [Shape.misfit, Bool.and_eq_true, Bool.not_eq_true'] at hfit
        have hnone : (Shape.pair a b).payloadLength? = none := by
          cases a with
          | bytes p => cases hfit.2
          | _ => rfl
        obtain ⟨v, h, t, hlink, htail⟩ := link_of_shows (hshows _ hy)
        have htag : node.tag (way (.pair a b)) ≠ "link" := by
          intro hcon
          rw [hlink] at hcon
          have hfalse := (tag_eq_link hapart (Shape.tail_mem hy) htail).mp hcon
          rw [hfit.1] at hfalse
          cases hfalse
        have hmisfit : (Shape.pair a b).misfit = true := by simp [Shape.misfit, hfit]
        rw [flatSize, hpayload, hnone]
        change (if node.tag (way (.pair a b)) ≠ "link" then _ else _) = _
        rw [if_pos htag, hsize _ hy hmisfit]
        rfl
      | _ => cases hfit
  children := by
    rintro e y ⟨hy, rfl⟩
    by_cases hlink : ∃ a b, y = .pair a b ∧ b.isType = false
    · obtain ⟨a, b, rfl, hkind⟩ := hlink
      have hform := hpair a b hkind
      have hpairshows := hshows _ hy
      rw [hform] at hpairshows ⊢
      refine cellChildren_of_link (fun e y h => h.2 ▸ hshows y h.1) hapart hy hpairshows
        (.inr ⟨_, ⟨Shape.head_mem hy, rfl⟩, .inl rfl⟩)
        (.inr ⟨_, ⟨Shape.tail_mem hy, rfl⟩, .inl rfl⟩) hkind
    · obtain ⟨hnone, hchildren⟩ := cellChildren_of_leaf hapart hy (hshows y hy) fun a b hpair => by
        by_contra hcon
        exact hlink ⟨a, b, hpair, Bool.eq_false_iff.mpr hcon⟩
      exact ⟨[], hnone, hchildren ▸ .nil⟩

theorem get?_registering (keys : List Bytes) (h : Bytes) :
    (getFromRadixTree node (registering keys) h).isSome = decide (h ∈ keys) := by
  have hget : (registering keys).get? h = if h ∈ keys then some (.expr .nil) else none := by
    induction keys with
    | nil => rfl
    | cons key keys ih =>
      rw [registering, List.foldr_cons, Dict.get?_insert]
      by_cases hkey : key = h
      · subst hkey
        simp
      · rw [if_neg hkey]
        refine Eq.trans ih ?_
        simp [List.mem_cons, Ne.symm hkey]
  rw [getFromRadixTree, hget]
  split <;> simp_all

/-- What the cells weigh where all is held as cells. -/
def loadedWeight (y : Shape) : Nat := if y.misfit then y.loadedSize else y.flat

/-- What the cells weigh where type symbols are known by their hashes. -/
def cutWeight (y : Shape) : Nat := if y.misfit then y.cutSize else y.flat

theorem uniform_loaded (hapart : x.HashesApart blake3) (fuel : Nat) :
    Uniform (emptyNode blake3 fuel) (fun e y => y ∈ x.cells ∧ e = y.loaded) x (fun _ => True)
      loadedWeight :=
  uniform_of_way hapart (fun y _ => shows_loaded _ y) (fun _ _ _ => rfl) fun y _ _ => size_loaded y

theorem uniform_cut (hapart : x.HashesApart blake3) (fuel : Nat) :
    Uniform (emptyNode blake3 fuel) (fun e y => y ∈ x.cells ∧ e = y.cut blake3) x (fun _ => True)
      cutWeight := by
  refine uniform_of_way hapart (fun y hy => shows_cut hapart fuel hy) (fun a b hkind => ?_)
    fun y hy hfit => ?_
  · rw [Shape.cut, if_neg (Bool.eq_false_iff.mp hkind)]
  · cases y with
    | pair a b =>
      simp only [Shape.misfit, Bool.and_eq_true, Bool.not_eq_true'] at hfit
      rw [Shape.cut, if_pos hfit.1]
      exact size_loaded_pair a _ hfit.2 (size_loaded a) rfl
    | _ => cases hfit

/-- A type symbol is shorter than its hash. -/
theorem loadedWeight_lt (y : Shape) (hfit : y.misfit = true) : loadedWeight y < cutWeight y := by
  rw [loadedWeight, cutWeight, if_pos hfit, if_pos hfit]
  cases y with
  | pair a b =>
    simp only [Shape.misfit, Bool.and_eq_true, Bool.not_eq_true'] at hfit
    obtain ⟨htype, hbytes⟩ := hfit
    have hshort : ∀ s ∈ builtinCompositeTypeNames, (utf8 s).length < 32 := by decide
    have hb : b.loadedSize < 32 := by
      cases b with
      | symbol s => exact hshort s (of_decide_eq_true htype)
      | _ => cases htype
    have hsize : (Shape.pair a b).loadedSize = a.loadedSize + b.loadedSize := by
      cases a <;> first | rfl | cases hbytes
    rw [hsize, Shape.cutSize]
    omega
  | _ => cases hfit

theorem sum_loadedWeight_lt {visited : List Shape} (hy : y ∈ visited) (hfit : y.misfit = true) :
    (visited.map loadedWeight).sum < (visited.map cutWeight).sum := by
  refine List.sum_lt_sum _ _ (fun z _ => ?_) ⟨y, hy, loadedWeight_lt y hfit⟩
  cases hz : z.misfit with
  | true => exact (loadedWeight_lt z hz).le
  | false => simp [loadedWeight, cutWeight, hz]

theorem fit_of_sizedAlike (hapart : x.HashesApart blake3) {exclude : List Bytes}
    (h : SizedAlike x blake3 exclude) (hy : Shape.Reached blake3 exclude [x] y) :
    y.misfit = false := by
  by_contra hcon
  rw [Bool.not_eq_false] at hcon
  obtain ⟨total, htotal⟩ := h
  let fuel := x.cells.length + 1
  have hfuel : ([x].map fun y => y.cells.length).sum < fuel := by simp [fuel]
  obtain ⟨visited, found, hrun, hvisiting⟩ :=
    exists_cells_visit blake3 (fun h => decide (h ∈ exclude)) hfuel
  have hroots : ∀ z ∈ [x], z ∈ x.cells := by simp [Shape.cells_self]
  have hvisited := hvisiting.complete (key_inj hapart hroots) hy
  have hloaded := storageWalkSize_eq (uniform_loaded hapart fuel) ⟨x.cells_self, rfl⟩ exclude
    fun _ _ => trivial
  have hcut := storageWalkSize_eq (uniform_cut hapart fuel) ⟨x.cells_self, rfl⟩ exclude
    fun _ _ => trivial
  rw [htotal _ _ rfl (shows_loaded _ x) (Nat.lt_succ_self _)] at hloaded
  rw [htotal _ _ rfl (shows_cut hapart fuel x.cells_self) (Nat.lt_succ_self _)] at hcut
  have hrun' : Visit.visit (Shape.children (emptyNode blake3 fuel).blake3)
      (Shape.hash (emptyNode blake3 fuel).blake3) (fun h => decide (h ∈ exclude))
      (emptyNode blake3 fuel).fuel [x] [] [] = some (visited, found) := hrun
  rw [hrun'] at hloaded hcut
  have hlt := sum_loadedWeight_lt hvisited hcon
  have hsame := Option.some.inj (Except.ok.inj (hloaded.symm.trans hcut))
  exact hlt.ne hsame

theorem fit_of_recordedAlike (hapart : x.HashesApart blake3) {registered : List Bytes}
    (h : RecordedAlike x blake3 registered)
    (hy : Shape.Reached blake3 registered (x.children blake3) y) : y.misfit = false := by
  by_contra hcon
  rw [Bool.not_eq_false] at hcon
  obtain ⟨slots, names, size, -, hall⟩ := h
  let fuel := x.cells.length + 1
  have hfuel : ((x.children blake3).map fun y => y.cells.length).sum < fuel :=
    (children_weight blake3 x).trans (Nat.lt_succ_self _)
  obtain ⟨visited, found, hrun, hvisiting⟩ :=
    exists_cells_visit blake3 (fun h => decide (h ∈ registered)) hfuel
  have hroots : ∀ z ∈ x.children blake3, z ∈ x.cells := fun z hz =>
    mem_cells_of_children x.cells_self hz
  have hvisited := hvisiting.complete (key_inj hapart hroots) hy
  have hlookup : ∀ h, (getFromRadixTree (emptyNode blake3 fuel) (registering registered) h).isSome =
      decide (h ∈ registered) := get?_registering registered
  have hloaded := walkRecordSlots_eq (uniform_loaded hapart fuel) hapart ⟨x.cells_self, rfl⟩
    hlookup fun _ _ => trivial
  have hcut := walkRecordSlots_eq (uniform_cut hapart fuel) hapart ⟨x.cells_self, rfl⟩
    hlookup fun _ _ => trivial
  rw [hall _ _ _ rfl (shows_loaded _ x) (Nat.lt_succ_self _) hlookup] at hloaded
  rw [hall _ _ _ rfl (shows_cut hapart fuel x.cells_self) (Nat.lt_succ_self _) hlookup] at hcut
  have hrun' : Visit.visit (Shape.children (emptyNode blake3 fuel).blake3)
      (Shape.hash (emptyNode blake3 fuel).blake3) (fun h => decide (h ∈ registered))
      (emptyNode blake3 fuel).fuel (x.children (emptyNode blake3 fuel).blake3) [] [] =
        some (visited, found) := hrun
  rw [hrun'] at hloaded hcut
  have hlt := sum_loadedWeight_lt hvisited hcon
  have hsame := Option.some.inj (Except.ok.inj (hloaded.symm.trans hcut))
  exact hlt.ne (Prod.mk.inj (Prod.mk.inj hsame).2).2

/-- Both walks give one result for every way of holding a tree, each new cell one slot and nothing
below a registered cell any, exactly where neither comes to a pair under a builtin type symbol that
is no value of the type. -/
theorem record_walk_iff (hapart : x.HashesApart blake3) (exclude registered : List Bytes) :
    (SizedAlike x blake3 exclude ∧ RecordedAlike x blake3 registered) ↔
      (∀ y, Shape.Reached blake3 exclude [x] y → y.misfit = false) ∧
        ∀ y, Shape.Reached blake3 registered (x.children blake3) y → y.misfit = false := by
  constructor
  · rintro ⟨hsized, hrecorded⟩
    exact ⟨fun y => fit_of_sizedAlike hapart hsized, fun y => fit_of_recordedAlike hapart hrecorded⟩
  · rintro ⟨hsize, hrecord⟩
    exact ⟨sizedAlike_of_fit hapart hsize, recordedAlike_of_fit hapart hrecord⟩

end Ways

section Samples

/-- The integer 5 twice. -/
def fives : Shape :=
  let five := Shape.pair (.bytes [5]) (.symbol "int")
  .pair five (.pair five .nil)

/-- A list without misfits is walked alike, with the integer registered or not. -/
theorem fives_walked_alike :
    SizedAlike fives id [] ∧ RecordedAlike fives id [Shape.hash id (.pair (.bytes [5])
      (.symbol "int"))] := by
  have hapart : fives.HashesApart id := by
    rw [Shape.HashesApart]
    decide
  have hfit : ∀ y ∈ fives.cells, y.misfit = false := by decide
  refine (record_walk_iff hapart [] _).mpr ⟨fun y hy => ?_, fun y hy => ?_⟩
  · exact hfit y (mem_cells_of_reaches (by simp [Shape.cells_self]) hy)
  · refine hfit y (mem_cells_of_reaches (fun z hz => ?_) hy)
    exact mem_cells_of_children fives.cells_self hz

/-- A symbol under a type symbol. -/
def symbolInt : Shape := .pair (.symbol "a") (.symbol "int")

/-- Held as cells, a symbol under a type symbol counts 4 bytes, and with the type symbol known by
its hash 33. -/
theorem misfit_walked_otherwise :
    let node := emptyNode id 10
    ∃ e e', e.Shows node symbolInt ∧ e'.Shows node symbolInt ∧ node.hash e = node.hash e' ∧
      storageWalkSize node e [] = .ok (some 4) ∧ storageWalkSize node e' [] = .ok (some 33) ∧
      walkRecordSlots node .empty (link e .nil) = .ok (some ([node.hash e], [], 4)) ∧
      walkRecordSlots node .empty (link e' .nil) = .ok (some ([node.hash e], [], 33)) := by
  have hapart : symbolInt.HashesApart id := by
    rw [Shape.HashesApart]
    decide
  refine ⟨symbolInt.loaded, symbolInt.cut id, shows_loaded _ _,
    shows_cut hapart 10 symbolInt.cells_self, ?_, ?_, ?_, ?_, ?_⟩ <;> decide

end Samples

end Astreum
