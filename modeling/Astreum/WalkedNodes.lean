import Astreum.ServedNodes

namespace Astreum

/-- The hashes of the five items of a node. -/
def RadixNodeCells.itemHashes (n : RadixNodeCells) (blake3 : Bytes → Bytes) : List Bytes :=
  (n.heads blake3).map (Child.hash blake3)

/-- The node has the cells of the list of a radix node, and its length and its key. -/
structure Node.HoldsNode (node : Node) (n : RadixNodeCells) : Prop where
  spine : node.Holds (spine ((n.itemHashes node.blake3).map Child.byHash))
  keyLen : node.Holds (int_ n.keyLen)
  key : node.Holds (.bytes n.key)

section Spines

variable {node : Node}

theorem hash_spine_byHash (blake3 : Bytes → Bytes) (heads : List Child) :
    (spine ((heads.map (Child.hash blake3)).map Child.byHash)).hash blake3
      = (spine heads).hash blake3 := by
  induction heads with
  | nil => rfl
  | cons head heads ih =>
    have hhead : ∀ (h : Child) (t : Expr),
        (Expr.link .none h (.loaded t)).getHeadHash blake3 = h.hash blake3 := by
      intro h t
      cases h <;> simp [Expr.getHeadHash, Expr.headChild, Expr.tailChild, Expr.value, payload_none,
        Child.hash]
    change (Expr.link .none (.byHash (head.hash blake3)) (.loaded (spine _))).hash blake3
      = (Expr.link .none head (.loaded (spine heads))).hash blake3
    rw [hash_link, hash_link, hhead, hhead]
    exact congrArg (linkHash blake3 (head.hash blake3)) ih

theorem hash_toExpr (n : RadixNodeCells) (blake3 : Bytes → Bytes) :
    (n.toExpr blake3).hash blake3 = (spine ((n.itemHashes blake3).map Child.byHash)).hash blake3 :=
  (hash_spine_byHash blake3 (n.heads blake3)).symm

theorem cells_spine_byHash (x : Bytes) (xs : List Bytes) :
    (spine ((x :: xs).map Child.byHash)).cells
      = spine ((x :: xs).map Child.byHash) :: (spine (xs.map Child.byHash)).cells := by
  simp [spine, Expr.cells, Child.cells, payloadCells, payload_none]

/-- A node that holds all cells of a radix node holds those of its list. -/
theorem holdsNode_of_holds {n : RadixNodeCells} (h : node.Holds (n.toExpr node.blake3)) :
    node.HoldsNode n := by
  refine ⟨?_, toExpr_holds_head h (by simp [RadixNodeCells.heads]),
    toExpr_holds_head h (by simp [RadixNodeCells.heads])⟩
  have hspine : ∀ heads : List Child, node.Holds (spine heads) →
      node.Holds (spine ((heads.map (Child.hash node.blake3)).map Child.byHash)) := by
    intro heads
    induction heads with
    | nil => exact id
    | cons head heads ih =>
      intro hholds
      have hrest := ih hholds.rest
      have hsame := hash_spine_byHash node.blake3 (head :: heads)
      have hstored : (spine (((head :: heads).map (Child.hash node.blake3)).map
          Child.byHash)).stored node.blake3 = (spine (head :: heads)).stored node.blake3 := by
        rw [List.map_cons, List.map_cons, stored_spine, stored_spine]
        exact congrArg (fun x => Expr.link .none _ (.byHash x))
          (hash_spine_byHash node.blake3 heads)
      have hcells := cells_spine_byHash (head.hash node.blake3)
        (heads.map (Child.hash node.blake3))
      refine ⟨fun c hc => ?_, fun c hc hz => ?_, fun c hc tag htag hz => ?_⟩
      · rw [List.map_cons, hcells] at hc
        rcases List.mem_cons.mp hc with rfl | hc
        · have hself := hholds.self
          rw [← hstored] at hself
          exact (congrArg (getExpr node) hsame).trans hself
        · exact hrest.get c hc
      · rw [List.map_cons, hcells] at hc
        rcases List.mem_cons.mp hc with rfl | hc
        · exact absurd (hsame.symm.trans hz) (hash_spine_ne_zero hholds)
        · exact hrest.zero c hc hz
      · rw [List.map_cons, hcells] at hc
        rcases List.mem_cons.mp hc with rfl | hc
        · have hcell := hholds.type _ (Expr.mem_cells _) tag htag (hsame.symm.trans hz)
          cases hcell
        · exact hrest.type c hc tag htag hz
  exact hspine _ h

/-- The items of a node, found under their hashes. -/
theorem radixElements_eq {n : RadixNodeCells} (h : node.HoldsNode n) (hfuel : 5 < node.fuel) :
    radixElements node (node.hash (n.toExpr node.blake3)) = (do
      expect ((fetched node (n.itemHashes node.blake3)).2 = [])
      return (fetched node (n.itemHashes node.blake3)).1) := by
  have hspine := h.spine
  have hsame : node.hash (n.toExpr node.blake3) =
      node.hash (spine ((n.itemHashes node.blake3).map Child.byHash)) := hash_toExpr n node.blake3
  have hitems : ∃ x xs, n.itemHashes node.blake3 = x :: xs ∧ xs.length = 4 := ⟨_, _, rfl, rfl⟩
  obtain ⟨x, xs, hitems, hlength⟩ := hitems
  rw [hitems] at hspine hsame ⊢
  rw [List.map_cons] at hspine hsame
  rw [hsame]
  have hlist := getExprListFrom_spine (xs.map Child.byHash) hspine
    (show (xs.map Child.byHash).length < node.fuel by rw [List.length_map]; omega)
  have hhashes : (xs.map Child.byHash).map (Child.hash node.blake3) = xs := by
    rw [List.map_map]
    exact List.map_id'' (fun _ => rfl) xs
  rw [hhashes] at hlist
  have hresolve := resolveListFrom_listed node x xs (show xs.length < node.fuel by omega)
  have hzero := hash_spine_ne_zero hspine
  rw [radixElements, getExprList, expect, if_pos hzero, py_ok_bind, hspine.self]
  dsimp only
  rw [hlist]
  simp only [py_ok_bind]
  rw [resolveListExprs]
  exact congrArg (fun x => x >>= fun p => (do
      expect (p.2 = [])
      return p.1 : Py (List Expr))) hresolve

/-- The node that is read locally: every item is found, and the fields are those of the cells. -/
theorem getRadixNodeLocal_eq_ok {n r : RadixNodeCells} {held : Option Bytes}
    (h : node.HoldsNode n) (hfuel : 5 < node.fuel) :
    getRadixNodeLocal node held (node.hash (n.toExpr node.blake3)) = .ok r ↔
      r.keyLen = n.keyLen ∧ r.key = n.key ∧
      (∃ c, getExpr node ((headOf n.child0).hash node.blake3) = some c ∧
        readChildLocal node held c = .ok r.child0) ∧
      (∃ c, getExpr node ((headOf n.child1).hash node.blake3) = some c ∧
        readChildLocal node held c = .ok r.child1) ∧
      ∃ c, getExpr node ((valueHead node.blake3 n.value).hash node.blake3) = some c ∧
        readValueLocal node held c = .ok r.value := by
  have hself : getExpr node (node.hash (int_ n.keyLen)) =
      some ((int_ n.keyLen).stored node.blake3) := h.keyLen.self
  have hbytes : getExpr node (node.hash (.bytes n.key)) = some (.bytes n.key) := h.key.self
  have hitems : n.itemHashes node.blake3 = [node.hash (int_ n.keyLen), node.hash (.bytes n.key),
      (headOf n.child0).hash node.blake3, (headOf n.child1).hash node.blake3,
      (valueHead node.blake3 n.value).hash node.blake3] := rfl
  have hfields : ∀ c₀ c₁ v : Expr, radixNodeLocalOf node held
      [(int_ n.keyLen).stored node.blake3, .bytes n.key, c₀, c₁, v] = (do
        let child0 ← readChildLocal node held c₀
        let child1 ← readChildLocal node held c₁
        let value ← readValueLocal node held v
        return ⟨n.keyLen, n.key, value, child0, child1⟩) := by
    intro c₀ c₁ v
    rw [radixNodeLocalOf, exprTagLocal_int h.keyLen, getExprValue_int h.keyLen]
    rfl
  rw [getRadixNodeLocal, radixElements_eq h hfuel]
  constructor
  · intro hok
    obtain ⟨elements, helements, hread⟩ := except_bind_eq_ok.mp hok
    obtain ⟨_, hnone, helements⟩ := except_bind_eq_ok.mp helements
    obtain rfl := Except.ok.inj helements
    have hmissed := expect_eq_ok.mp hnone
    have hfound : ∀ x ∈ n.itemHashes node.blake3, ∃ c, getExpr node x = some c := by
      intro x hx
      cases hx' : getExpr node x with
      | some c => exact ⟨c, rfl⟩
      | none => exact absurd hmissed (fetched_missed hx hx')
    obtain ⟨c₀, hc₀⟩ := hfound ((headOf n.child0).hash node.blake3) (by simp [hitems])
    obtain ⟨c₁, hc₁⟩ := hfound ((headOf n.child1).hash node.blake3) (by simp [hitems])
    obtain ⟨v, hv⟩ := hfound ((valueHead node.blake3 n.value).hash node.blake3)
      (by simp [hitems])
    have hall : fetched node (n.itemHashes node.blake3) =
        ([(int_ n.keyLen).stored node.blake3, .bytes n.key, c₀, c₁, v], []) :=
      fetched_eq (by rw [hitems]; simp [hself, hbytes, hc₀, hc₁, hv])
    rw [hall, hfields] at hread
    obtain ⟨child0, h₀, hread⟩ := except_bind_eq_ok.mp hread
    obtain ⟨child1, h₁, hread⟩ := except_bind_eq_ok.mp hread
    obtain ⟨value, hvalue, hread⟩ := except_bind_eq_ok.mp hread
    obtain rfl := Except.ok.inj hread
    exact ⟨rfl, rfl, ⟨c₀, hc₀, h₀⟩, ⟨c₁, hc₁, h₁⟩, v, hv, hvalue⟩
  · rintro ⟨hkeyLen, hkey, ⟨c₀, hc₀, h₀⟩, ⟨c₁, hc₁, h₁⟩, v, hv, hvalue⟩
    have hall : fetched node (n.itemHashes node.blake3) =
        ([(int_ n.keyLen).stored node.blake3, .bytes n.key, c₀, c₁, v], []) :=
      fetched_eq (by rw [hitems]; simp [hself, hbytes, hc₀, hc₁, hv])
    have hfive : (do
        expect ((fetched node (n.itemHashes node.blake3)).2 = [])
        return (fetched node (n.itemHashes node.blake3)).1 : Py (List Expr)) =
          .ok [(int_ n.keyLen).stored node.blake3, .bytes n.key, c₀, c₁, v] := by
      rw [hall]
      rfl
    rw [hfive, py_ok_bind, hfields, h₀, h₁, hvalue, ← hkeyLen, ← hkey]
    rfl

end Spines

section Reading

variable {node : Node} {exprs : List Expr} {sent : Bytes → Prop}

/-- The rules that send the first cells of a list with their heads. -/
def opensCells : Nat → ShapeRule → Prop
  | 0, _ => True
  | 1, .pair head _ => head ≠ .hold
  | k + 2, .pair head tail => head ≠ .hold ∧ tail ≠ .hold ∧ opensCells (k + 1) tail
  | _ + 1, .rep head => head ≠ .hold
  | _ + 1, _ => False

theorem partLocal_agrees {x : Bytes} (h : Agrees node exprs x) :
    partLocal (node.storing exprs) (.byHash x) = partLocal node (.byHash x) := by
  rw [partLocal, partLocal, h]

theorem except_bind_congr {α β : Type} {x : Py α} {f g : α → Py β}
    (h : ∀ a, x = .ok a → f a = g a) : x >>= f = x >>= g := by
  cases x with
  | error err => rfl
  | ok a => exact h a rfl

theorem getExpr_of_part {x : Bytes} {e : Expr} (h : partLocal node (.byHash x) = .ok (some e)) :
    getExpr node x = some e ∧ x ≠ zero32 := by
  rw [partLocal] at h
  split at h
  · cases h
  · rename_i hzero
    rcases hx : getExpr node x with - | e'
    · rw [hx] at h
      cases h
    · rw [hx] at h
      rw [Option.some.inj (Except.ok.inj h)]
      exact ⟨rfl, hzero⟩

/-- A link that is found under a hash is kept there. -/
theorem stored_of_getExpr {x : Bytes} {v : Val} {a b : Child}
    (h : getExpr node x = some (.link v a b)) (hzero : x ≠ zero32) :
    node.stored x = some (.link v a b) := by
  rw [getExpr, if_neg hzero] at h
  rcases hx : node.stored x with - | e
  · rw [hx] at h
    obtain ⟨name, -, hname⟩ := Option.map_eq_some_iff.mp h
    cases hname
  · rw [hx] at h
    exact h

/-- A value is the cell itself, or the one that its ref names. -/
theorem readValueLocal_eq {held : Option Bytes} {c : Expr} {p : Pointer} {y : Bytes}
    (hne : c ≠ .nil) (hp : readPointerLocal node held c = .ok p) (hy : node.hash? c = .ok y) :
    readValueLocal node held c = if p.id = y then .ok (some (.expr c p.block))
      else match getExpr node p.id with
        | some e => .ok (some (.expr e p.block))
        | none => .error .valueError := by
  rw [readValueLocal, if_neg hne, hp]
  simp only [py_ok_bind, hy]
  rfl

theorem parts_of_readValueLocal {held : Option Bytes} {c : Expr} {value : Option RadixValue}
    (hne : c ≠ .nil) (hread : readValueLocal node held c = .ok value) :
    ∃ p y, readPointerLocal node held c = .ok p ∧ node.hash? c = .ok y := by
  rw [readValueLocal, if_neg hne] at hread
  obtain ⟨p, hp, hread⟩ := except_bind_eq_ok.mp hread
  obtain ⟨y, hy, -⟩ := except_bind_eq_ok.mp hread
  exact ⟨p, y, hp, hy⟩

section Keeping

variable (hkeeps : node.KeepsCells)

include hkeeps

/-- A hash that a walk passes over names no link that is kept. -/
theorem skipsHash_of_link {x : Bytes} {v : Val} {a b : Child}
    (h : node.stored x = some (.link v a b)) (hzero : x ≠ zero32) : skipsHash node x = false := by
  refine Bool.eq_false_of_not_eq_true fun hskip => ?_
  rw [skipsHash, Bool.or_eq_true, decide_eq_true_eq] at hskip
  rcases hskip with (rfl | hx) | hskip
  · have hhash : (Expr.link v a b).hash node.blake3 = [] := hkeeps.hash _ _ h
    rw [hash_link] at hhash
    have hlength := congrArg List.length hhash
    rw [linkHash, hkeeps.digest] at hlength
    cases hlength
  · exact hzero hx
  · rcases htype : builtinTypeOfHash node.blake3 x with - | name
    · rw [htype] at hskip
      cases hskip
    · have hx : terminalHash node.blake3 1 (utf8 name) = x :=
        hash_of_builtinTypeOfHash htype
      have hcell := hkeeps.types name (List.mem_of_find?_eq_some htype) _ (hx ▸ h)
      cases hcell

/-- What is read as a part and can be opened is kept under its hash. -/
theorem stored_of_link {x : Bytes} {e : Expr} (hget : getExpr node x = some e)
    (htag : node.tag e = "link") (hzero : x ≠ zero32) :
    skipsHash node x = false ∧ ∃ a b, e = .link .none (.byHash a) (.byHash b) ∧
      node.stored x = some e := by
  have hterminal : ∀ s, node.tag (.symbol s) ≠ "link" := fun s => by
    change "symbol" ≠ "link"
    decide
  rw [getExpr, if_neg hzero] at hget
  rcases hstored : node.stored x with - | e'
  · rw [hstored] at hget
    obtain ⟨name, -, rfl⟩ := Option.map_eq_some_iff.mp hget
    exact absurd htag (hterminal name)
  · rw [hstored] at hget
    obtain rfl := Option.some.inj hget
    obtain ⟨bytes, hbytes⟩ := hkeeps.decoded _ _ hstored
    rcases decoded_cases hbytes with ⟨s, rfl⟩ | ⟨b, rfl⟩ | ⟨a, b, -, -, rfl⟩
    · exact absurd htag (hterminal s)
    · change "bytes" = "link" at htag
      exact absurd htag (by decide)
    · exact ⟨skipsHash_of_link hkeeps hstored hzero, a, b, rfl, rfl⟩

theorem hash_of_getExpr {x : Bytes} {e : Expr} (h : getExpr node x = some e) : node.hash e = x := by
  by_cases hzero : x = zero32
  · rw [hzero] at h ⊢
    obtain rfl := Option.some.inj h
    rfl
  rw [getExpr, if_neg hzero] at h
  rcases hx : node.stored x with - | e'
  · rw [hx] at h
    obtain ⟨name, hname, rfl⟩ := Option.map_eq_some_iff.mp h
    exact hash_of_builtinTypeOfHash hname
  · rw [hx] at h
    obtain rfl := Option.some.inj h
    exact hkeeps.hash _ _ hx

/-- The cell of a value is found under its hash. -/
theorem value_found {x : Bytes} {c : Expr} {held : Option Bytes} {v : RadixValue}
    (hget : getExpr node x = some c) (hread : readValueLocal node held c = .ok (some v)) :
    ∃ e, getExpr node (v.pointer node.blake3).id = some e := by
  by_cases hne : c = .nil
  · rw [hne] at hread
    cases hread
  obtain ⟨p, y, hp, hy⟩ := parts_of_readValueLocal hne hread
  rw [readValueLocal_eq hne hp hy] at hread
  split at hread
  · obtain rfl := Option.some.inj (Except.ok.inj hread)
    have hx : c.hash node.blake3 = x := hash_of_getExpr hkeeps hget
    exact ⟨c, by rw [RadixValue.pointer, hx, hget]⟩
  · rcases he : getExpr node p.id with - | e
    · rw [he] at hread
      cases hread
    · rw [he] at hread
      obtain rfl := Option.some.inj (Except.ok.inj hread)
      have hx : e.hash node.blake3 = p.id := hash_of_getExpr hkeeps he
      exact ⟨e, by rw [RadixValue.pointer, hx, he]⟩

theorem node_value_found {n r : RadixNodeCells} {held : Option Bytes} {v : RadixValue}
    (hholds : node.HoldsNode n) (hfuel : 5 < node.fuel)
    (hread : getRadixNodeLocal node held (node.hash (n.toExpr node.blake3)) = .ok r)
    (hv : r.value = some v) : ∃ e, getExpr node (v.pointer node.blake3).id = some e := by
  obtain ⟨-, -, -, -, c, hc, hvalue⟩ := (getRadixNodeLocal_eq_ok hholds hfuel).mp hread
  rw [hv] at hvalue
  exact value_found hkeeps hc hvalue

end Keeping

variable (hkeeps : node.KeepsCells) (hsends : Delivers node exprs sent)

include hkeeps hsends

/-- What the reader finds the provider finds too. -/
theorem agrees_of_found {x : Bytes} {e : Expr} (h : getExpr (node.storing exprs) x = some e) :
    Agrees node exprs x := by
  by_cases hzero : x = zero32
  · rw [hzero]
    rfl
  rcases hr : (node.storing exprs).stored x with - | e'
  · rw [getExpr, if_neg hzero, hr] at h
    obtain ⟨name, hname, -⟩ := Option.map_eq_some_iff.mp h
    exact agrees_of_type hkeeps hsends hname
  · exact agrees_of_stored (hr.trans ((stored_storing hkeeps hsends x e').mp hr).2.symm)

/-- The parts of a cell that a rule opens. -/
theorem agrees_of_opens {rule : ShapeRule} {k : Nat} {x a b : Bytes}
    (hwalked : Walked node sent rule x) (hopens : opensCells (k + 1) rule)
    (hskip : skipsHash node x = false)
    (hget : node.stored x = some (.link .none (.byHash a) (.byHash b))) :
    Agrees node exprs a ∧ (k = 0 ∨ Agrees node exprs b ∧
      ∃ rule', rule' ≠ .hold ∧ opensCells k rule' ∧ Walked node sent rule' b) := by
  cases rule with
  | hold => cases k <;> exact hopens.elim
  | send => cases k <;> exact hopens.elim
  | pair head tail =>
    have hhead : Walked node sent head a :=
      hwalked.below (by simp) hskip hget (q := (head, a)) List.mem_cons_self
    have htail : Walked node sent tail b :=
      hwalked.below (by simp) hskip hget (q := (tail, b))
        (List.mem_cons_of_mem _ List.mem_cons_self)
    cases k with
    | zero => exact ⟨agrees_of_walked hkeeps hsends hopens hhead, .inl rfl⟩
    | succ k =>
      obtain ⟨hne, hne', hrest⟩ := hopens
      exact ⟨agrees_of_walked hkeeps hsends hne hhead,
        .inr ⟨agrees_of_walked hkeeps hsends hne' htail, tail, hne', hrest, htail⟩⟩
  | rep head =>
    have hne : head ≠ .hold := by cases k <;> exact hopens
    have hhead : Walked node sent head a :=
      hwalked.below (by simp) hskip hget (q := (head, a)) List.mem_cons_self
    have htail : Walked node sent (.rep head) b :=
      hwalked.below (by simp) hskip hget (q := (.rep head, b))
        (List.mem_cons_of_mem _ List.mem_cons_self)
    refine ⟨agrees_of_walked hkeeps hsends hne hhead, .inr ⟨agrees_of_walked hkeeps hsends (by simp)
      htail, .rep head, by simp, ?_, htail⟩⟩
    cases k with
    | zero => trivial
    | succ k => cases k <;> exact hne

/-- A cell whose first three cells are opened is taken for the same ref. -/
theorem refTarget_agrees {rule : ShapeRule} {x : Bytes} {c : Expr}
    (hwalked : Walked node sent rule x) (hopens : opensCells 3 rule)
    (hget : getExpr node x = some c) (hzero : x ≠ zero32) :
    storedRefTargetLocal (node.storing exprs) c = storedRefTargetLocal node c := by
  by_cases htag : node.tag c = "link"
  swap
  · have hcond : node.tag c ≠ "link" ∨ isNilTail node c.tailChild = true := .inl htag
    rw [storedRefTargetLocal, storedRefTargetLocal, if_pos hcond]
    exact if_pos hcond
  obtain ⟨hskip, a, b, rfl, hstored⟩ := stored_of_link hkeeps hget htag hzero
  obtain ⟨ha, hb⟩ := agrees_of_opens hkeeps hsends hwalked hopens hskip hstored
  obtain ⟨hb, rule₁, hne₁, hopens₁, hwalked₁⟩ := hb.resolve_left (by simp)
  have htags : ∀ e, (node.storing exprs).tag e = node.tag e := fun _ => rfl
  have htails : ∀ ch, isNilTail (node.storing exprs) ch = isNilTail node ch := fun _ => rfl
  simp only [storedRefTargetLocal, Expr.headChild, Expr.tailChild, partLocal_agrees ha,
    partLocal_agrees hb, htags, htails]
  refine ite_congr rfl (fun _ => rfl) fun _ => except_bind_congr fun head _ => ?_
  rcases bytes32? head with - | block
  · rfl
  refine except_bind_congr fun second hsecond => ?_
  rcases second with - | second
  · rfl
  refine ite_congr rfl (fun _ => rfl) fun htag₂ => ?_
  obtain ⟨hget₂, hzero₂⟩ := getExpr_of_part hsecond
  obtain ⟨hskip₂, a₂, b₂, rfl, hstored₂⟩ :=
    stored_of_link hkeeps hget₂ (not_not.mp htag₂) hzero₂
  obtain ⟨ha₂, hb₂⟩ := agrees_of_opens hkeeps hsends hwalked₁ hopens₁ hskip₂ hstored₂
  obtain ⟨hb₂, rule₂, hne₂, hopens₂, hwalked₂⟩ := hb₂.resolve_left (by simp)
  simp only [partLocal_agrees ha₂, partLocal_agrees hb₂]
  refine except_bind_congr fun head₂ _ => ?_
  rcases bytes32? head₂ with - | id
  · rfl
  refine except_bind_congr fun third hthird => ?_
  rcases third with - | third
  · rfl
  refine ite_congr rfl (fun _ => rfl) fun htag₃ => ?_
  obtain ⟨hget₃, hzero₃⟩ := getExpr_of_part hthird
  obtain ⟨hskip₃, a₃, b₃, rfl, hstored₃⟩ :=
    stored_of_link hkeeps hget₃ (not_not.mp htag₃) hzero₃
  obtain ⟨ha₃, -⟩ := agrees_of_opens hkeeps hsends hwalked₂ hopens₂ hskip₃ hstored₃
  simp only [partLocal_agrees ha₃]
  rfl

/-- A list whose items have a rule each: its cells are sent, and each rule is walked at its item. -/
theorem walked_spine {rules : List ShapeRule} {xs : List Bytes} (hlength : rules.length = xs.length)
    (hholds : node.Holds (spine (xs.map Child.byHash)))
    (hwalked : Walked node sent (rules.foldr ShapeRule.pair .hold)
      (node.hash (spine (xs.map Child.byHash)))) :
    (∀ c ∈ (spine (xs.map Child.byHash)).cells, Agrees node exprs (node.hash c)) ∧
      List.Forall₂ (Walked node sent) rules xs := by
  induction rules generalizing xs with
  | nil =>
    obtain rfl := List.length_eq_zero_iff.mp hlength.symm
    refine ⟨fun c hc => ?_, .nil⟩
    obtain rfl := List.mem_singleton.mp hc
    rfl
  | cons rule rules ih =>
    obtain ⟨x, xs, rfl⟩ := List.exists_cons_of_length_eq_add_one hlength.symm
    have hzero := @hash_spine_ne_zero node (.byHash x) (xs.map Child.byHash) hholds
    have hself : getExpr node (node.hash (spine ((x :: xs).map Child.byHash))) =
        some (.link .none (.byHash x) (.byHash (node.hash (spine (xs.map Child.byHash))))) := by
      rw [hholds.self, List.map_cons, stored_spine]
      rfl
    have hstored := stored_of_getExpr hself hzero
    have hskip := skipsHash_of_link hkeeps hstored hzero
    have hhead : Walked node sent rule x :=
      hwalked.below (by simp) hskip hstored (q := (rule, x)) List.mem_cons_self
    have htail : Walked node sent (rules.foldr ShapeRule.pair .hold)
        (node.hash (spine (xs.map Child.byHash))) :=
      hwalked.below (by simp) hskip hstored
        (q := (rules.foldr ShapeRule.pair .hold, node.hash (spine (xs.map Child.byHash))))
        (List.mem_cons_of_mem _ List.mem_cons_self)
    obtain ⟨hcells, hrules⟩ := ih (by simpa using hlength) hholds.rest htail
    refine ⟨fun c hc => ?_, .cons hhead hrules⟩
    rw [cells_spine_byHash] at hc
    rcases List.mem_cons.mp hc with rfl | hc
    · exact agrees_of_walked hkeeps hsends (by simp) hwalked
    · exact hcells c hc

/-- The cells of an int, whose type is known. -/
theorem holds_int {m : Int} (hholds : node.Holds (int_ m))
    (hwalked : Walked node sent intRule (node.hash (int_ m))) :
    (node.storing exprs).Holds (int_ m) := by
  have hself : getExpr node (node.hash (int_ m)) = some (.link .none
      (.byHash (terminalHash node.blake3 2 (encodeInt m)))
      (.byHash (terminalHash node.blake3 1 (utf8 "int")))) := hholds.self
  have hzero : node.hash (int_ m) ≠ zero32 := hash_ne_zero hholds (by simp [int_, typed])
  have hstored := stored_of_getExpr hself hzero
  have hskip := skipsHash_of_link hkeeps hstored hzero
  have hbytes : Walked node sent .send (terminalHash node.blake3 2 (encodeInt m)) :=
    hwalked.below (by simp [intRule]) hskip hstored
      (q := (.send, terminalHash node.blake3 2 (encodeInt m))) List.mem_cons_self
  refine holds_of_agrees hholds fun c hc => ?_
  have hcells : c = int_ m ∨ c = .bytes (encodeInt m) ∨ c = .symbol "int" := by
    simpa [int_, typed, Expr.cells, Child.cells, payloadCells, payload?,
      tagByteEncode] using hc
  rcases hcells with rfl | rfl | rfl
  · exact agrees_of_walked hkeeps hsends (by simp [intRule]) hwalked
  · exact agrees_of_walked hkeeps hsends (by simp) hbytes
  · exact agrees_of_type hkeeps hsends (builtinTypeOfHash_int node.blake3)

/-- What the node rule sends of a node: its list, its length and its key, and the cells of its
children and of its value as far as their rules go. -/
theorem holdsNode_storing {n : RadixNodeCells} (hholds : node.HoldsNode n)
    (hwalked : Walked node sent radixNodeRule (node.hash (n.toExpr node.blake3))) :
    (node.storing exprs).HoldsNode n ∧
      Walked node sent pointerRule ((headOf n.child0).hash node.blake3) ∧
      Walked node sent pointerRule ((headOf n.child1).hash node.blake3) ∧
      Walked node sent (.rep .send) ((valueHead node.blake3 n.value).hash node.blake3) := by
  have hsame : node.hash (n.toExpr node.blake3) =
      node.hash (spine ((n.itemHashes node.blake3).map Child.byHash)) := hash_toExpr n node.blake3
  rw [hsame] at hwalked
  have hrules : radixNodeRule =
      [intRule, .send, pointerRule, pointerRule, .rep .send].foldr ShapeRule.pair .hold := rfl
  rw [hrules] at hwalked
  obtain ⟨hcells, hitems⟩ := walked_spine hkeeps hsends rfl hholds.spine hwalked
  obtain ⟨hint, hitems⟩ := List.forall₂_cons.mp hitems
  obtain ⟨hkey, hitems⟩ := List.forall₂_cons.mp hitems
  obtain ⟨hchild0, hitems⟩ := List.forall₂_cons.mp hitems
  obtain ⟨hchild1, hitems⟩ := List.forall₂_cons.mp hitems
  obtain ⟨hvalue, -⟩ := List.forall₂_cons.mp hitems
  refine ⟨⟨holds_of_agrees hholds.spine hcells, holds_int hkeeps hsends hholds.keyLen hint,
    holds_of_agrees hholds.key fun c hc => ?_⟩, hchild0, hchild1, hvalue⟩
  obtain rfl := List.mem_singleton.mp hc
  exact agrees_of_walked hkeeps hsends (by simp) hkey

theorem readPointer_agrees {rule : ShapeRule} {x : Bytes} {c : Expr} (held : Option Bytes)
    (hwalked : Walked node sent rule x) (hopens : opensCells 3 rule)
    (hget : getExpr node x = some c) (hne : c ≠ .nil) :
    readPointerLocal (node.storing exprs) held c = readPointerLocal node held c := by
  have hzero : x ≠ zero32 := by
    rintro rfl
    exact hne (Option.some.inj hget).symm
  rw [readPointerLocal, refTarget_agrees hkeeps hsends hwalked hopens hget hzero]
  rfl

theorem readChild_agrees {rule : ShapeRule} {x : Bytes} {c : Expr} (held : Option Bytes)
    (hwalked : Walked node sent rule x) (hopens : opensCells 3 rule)
    (hget : getExpr node x = some c) :
    readChildLocal (node.storing exprs) held c = readChildLocal node held c := by
  by_cases hne : c = .nil
  · rw [hne]
    rfl
  rw [readChildLocal, readChildLocal, if_neg hne, if_neg hne,
    readPointer_agrees hkeeps hsends held hwalked hopens hget hne]

/-- The reader reads the value of a node if it finds the cell that the value names. -/
theorem readValue_agrees {rule : ShapeRule} {x : Bytes} {c : Expr} {held : Option Bytes}
    {value : Option RadixValue} (hwalked : Walked node sent rule x) (hopens : opensCells 3 rule)
    (hget : getExpr node x = some c) (hread : readValueLocal node held c = .ok value) :
    readValueLocal (node.storing exprs) held c = .ok value ↔
      ∀ v, value = some v → Agrees node exprs (v.pointer node.blake3).id := by
  by_cases hne : c = .nil
  · rw [hne] at hread ⊢
    obtain rfl := Except.ok.inj hread
    exact ⟨fun _ v hv => (by cases hv), fun _ => rfl⟩
  have hthis : ∀ v : RadixValue, (∀ w, some v = some w →
      Agrees node exprs (w.pointer node.blake3).id) ↔
        Agrees node exprs (v.pointer node.blake3).id := by
    intro v
    constructor
    · exact fun h => h v rfl
    · rintro h w hw
      rwa [← Option.some.inj hw]
  have hrule : rule ≠ .hold := by
    rintro rfl
    exact hopens
  have hpointer := readPointer_agrees hkeeps hsends held hwalked hopens hget hne
  rw [readValueLocal, if_neg hne] at hread
  obtain ⟨p, hp, hread⟩ := except_bind_eq_ok.mp hread
  obtain ⟨y, hy, hread⟩ := except_bind_eq_ok.mp hread
  have hyx : y = x := (hash_of_hash? hy).symm.trans (hash_of_getExpr hkeeps hget)
  rw [readValueLocal_eq hne (hpointer.trans hp) (show (node.storing exprs).hash? c = .ok y from hy)]
  by_cases hid : p.id = y
  · rw [if_pos hid] at hread ⊢
    obtain rfl := Except.ok.inj hread
    rw [hthis]
    have hfound : Agrees node exprs ((RadixValue.expr c p.block).pointer node.blake3).id := by
      have hx : c.hash node.blake3 = x := hash_of_getExpr hkeeps hget
      rw [RadixValue.pointer, hx]
      exact agrees_of_walked hkeeps hsends hrule hwalked
    exact ⟨fun _ => hfound, fun _ => rfl⟩
  · rw [if_neg hid] at hread ⊢
    rcases he : getExpr node p.id with - | e
    · rw [he] at hread
      cases hread
    · rw [he] at hread
      obtain rfl := Except.ok.inj hread
      have hx : e.hash node.blake3 = p.id := hash_of_getExpr hkeeps he
      rw [hthis, RadixValue.pointer, hx, Agrees, he]
      rcases getExpr (node.storing exprs) p.id with - | e'
      · simp
      · simp

/-- A value that the reader reads it reads as the provider does. -/
theorem readValue_unique {rule : ShapeRule} {x : Bytes} {c : Expr} {held : Option Bytes}
    {value value' : Option RadixValue} (hwalked : Walked node sent rule x)
    (hopens : opensCells 3 rule) (hget : getExpr node x = some c)
    (hread : readValueLocal node held c = .ok value)
    (hread' : readValueLocal (node.storing exprs) held c = .ok value') : value' = value := by
  by_cases hne : c = .nil
  · rw [hne] at hread hread'
    exact (Except.ok.inj hread').symm.trans (Except.ok.inj hread)
  obtain ⟨p, y, hp, hy⟩ := parts_of_readValueLocal hne hread
  have hpointer := readPointer_agrees hkeeps hsends held hwalked hopens hget hne
  rw [readValueLocal_eq hne hp hy] at hread
  rw [readValueLocal_eq hne (hpointer.trans hp)
    (show (node.storing exprs).hash? c = .ok y from hy)] at hread'
  by_cases hid : p.id = y
  · rw [if_pos hid] at hread hread'
    exact (Except.ok.inj hread').symm.trans (Except.ok.inj hread)
  · rw [if_neg hid] at hread hread'
    rcases he : getExpr (node.storing exprs) p.id with - | e
    · rw [he] at hread'
      cases hread'
    · have hsame := agrees_of_found hkeeps hsends he
      rw [he] at hread'
      rw [← hsame, he] at hread
      exact (Except.ok.inj hread').symm.trans (Except.ok.inj hread)

/-- The reader reads a node that the node rule was walked at if it finds the cell of the value. -/
theorem getRadixNode_agrees {n r : RadixNodeCells} {held : Option Bytes} (hholds : node.HoldsNode n)
    (hfuel : 5 < node.fuel)
    (hwalked : Walked node sent radixNodeRule (node.hash (n.toExpr node.blake3)))
    (hread : getRadixNodeLocal node held (node.hash (n.toExpr node.blake3)) = .ok r) :
    getRadixNodeLocal (node.storing exprs) held (node.hash (n.toExpr node.blake3)) = .ok r ↔
      ∀ v, r.value = some v → Agrees node exprs (v.pointer node.blake3).id := by
  obtain ⟨hholds', hwalked₀, hwalked₁, hwalkedv⟩ := holdsNode_storing hkeeps hsends hholds hwalked
  obtain ⟨hkeyLen, hkey, ⟨c₀, hc₀, h₀⟩, ⟨c₁, hc₁, h₁⟩, v, hv, hvalue⟩ :=
    (getRadixNodeLocal_eq_ok hholds hfuel).mp hread
  have hopens : opensCells 3 pointerRule := by simp [opensCells, pointerRule]
  have hopens' : opensCells 3 (.rep .send) := by simp [opensCells]
  have hagrees := readValue_agrees hkeeps hsends hwalkedv hopens' hv hvalue
  rw [← hagrees]
  refine (@getRadixNodeLocal_eq_ok (node.storing exprs) n r held hholds' hfuel).trans ?_
  constructor
  · rintro ⟨-, -, -, -, v', hv', hvalue'⟩
    have hv'' : getExpr (node.storing exprs) ((valueHead node.blake3 n.value).hash node.blake3) =
        some v' := hv'
    rw [agrees_of_walked hkeeps hsends (by simp) hwalkedv, hv] at hv''
    rwa [Option.some.inj hv'']
  · intro hvalue'
    refine ⟨hkeyLen, hkey, ⟨c₀, ?_, ?_⟩, ⟨c₁, ?_, ?_⟩, v, ?_, hvalue'⟩
    · exact (agrees_of_walked hkeeps hsends (by simp [pointerRule]) hwalked₀).trans hc₀
    · rw [readChild_agrees hkeeps hsends held hwalked₀ hopens hc₀, h₀]
    · exact (agrees_of_walked hkeeps hsends (by simp [pointerRule]) hwalked₁).trans hc₁
    · rw [readChild_agrees hkeeps hsends held hwalked₁ hopens hc₁, h₁]
    · exact (agrees_of_walked hkeeps hsends (by simp) hwalkedv).trans hv

/-- A node that the reader reads it reads as the provider does. -/
theorem getRadixNode_unique {n r r' : RadixNodeCells} {held : Option Bytes}
    (hholds : node.HoldsNode n) (hfuel : 5 < node.fuel)
    (hwalked : Walked node sent radixNodeRule (node.hash (n.toExpr node.blake3)))
    (hread : getRadixNodeLocal node held (node.hash (n.toExpr node.blake3)) = .ok r)
    (hread' : getRadixNodeLocal (node.storing exprs) held (node.hash (n.toExpr node.blake3))
      = .ok r') : r' = r := by
  obtain ⟨hholds', hwalked₀, hwalked₁, hwalkedv⟩ := holdsNode_storing hkeeps hsends hholds hwalked
  obtain ⟨hkeyLen, hkey, ⟨c₀, hc₀, h₀⟩, ⟨c₁, hc₁, h₁⟩, v, hv, hvalue⟩ :=
    (getRadixNodeLocal_eq_ok hholds hfuel).mp hread
  obtain ⟨hkeyLen', hkey', ⟨d₀, hd₀, h₀'⟩, ⟨d₁, hd₁, h₁'⟩, w, hw, hvalue'⟩ :=
    (@getRadixNodeLocal_eq_ok (node.storing exprs) n r' held hholds' hfuel).mp hread'
  have hagrees : ∀ {rule x c d}, rule ≠ .hold → Walked node sent rule x →
      getExpr node x = some c → getExpr (node.storing exprs) x = some d → d = c := by
    intro rule x c d hrule hwalked hc hd
    rw [agrees_of_walked hkeeps hsends hrule hwalked, hc] at hd
    exact (Option.some.inj hd).symm
  obtain rfl := hagrees (by simp [pointerRule]) hwalked₀ hc₀ hd₀
  obtain rfl := hagrees (by simp [pointerRule]) hwalked₁ hc₁ hd₁
  obtain rfl := hagrees (by simp) hwalkedv hv hw
  have hopens : opensCells 3 pointerRule := by simp [opensCells, pointerRule]
  rw [readChild_agrees hkeeps hsends held hwalked₀ hopens hc₀, h₀] at h₀'
  rw [readChild_agrees hkeeps hsends held hwalked₁ hopens hc₁, h₁] at h₁'
  have hvalues := readValue_unique hkeeps hsends hwalkedv (by simp [opensCells]) hv hvalue hvalue'
  obtain ⟨keyLen, key, value, child0, child1⟩ := r'
  obtain rfl := hkeyLen'.trans hkeyLen.symm
  obtain rfl := hkey'.trans hkey.symm
  obtain rfl := Except.ok.inj h₀'
  obtain rfl := Except.ok.inj h₁'
  obtain rfl := hvalues
  rfl

end Reading

end Astreum
