import Astreum.WalkedKeys

namespace Astreum

/-- The first computation ends as the second one, or it fails as a read of what is not held. -/
def Lags {α : Type} (x y : Py α) : Prop := x = y ∨ x = .error .valueError

/-- A node that holds a part of the storage. -/
def Node.keeping (node : Node) (kept : Bytes → Bool) : Node :=
  { node with stored := fun x => if kept x then node.stored x else none }

section Lagging

variable {α β : Type} {x y : Py α} {f g : α → Py β}

theorem Lags.refl (x : Py α) : Lags x x := .inl rfl

theorem Lags.bind (h : Lags x y) (hfg : ∀ a, y = .ok a → Lags (f a) (g a)) :
    Lags (x >>= f) (y >>= g) := by
  rcases h with rfl | rfl
  · cases x with
    | error err => exact .inl rfl
    | ok a => exact hfg a rfl
  · exact .inr rfl

theorem Lags.eq_ok {a : α} (h : Lags x y) (hx : x = .ok a) : y = .ok a := by
  rcases h with rfl | rfl
  · exact hx
  · cases hx

end Lagging

section Part

variable {node : Node} {kept : Bytes → Bool}

theorem stored_keeping {x : Bytes} {e : Expr} :
    (node.keeping kept).stored x = some e ↔ kept x = true ∧ node.stored x = some e := by
  change (if kept x then node.stored x else none) = some e ↔ _
  cases kept x <;> simp

theorem keeping_true (node : Node) : node.keeping (fun _ => true) = node := rfl

theorem Node.KeepsCells.keeping (hkeeps : node.KeepsCells) (kept : Bytes → Bool) :
    (node.keeping kept).KeepsCells where
  digest := hkeeps.digest
  decoded := fun h e he => hkeeps.decoded h e (stored_keeping.mp he).2
  hash := fun h e he => hkeeps.hash h e (stored_keeping.mp he).2
  types := fun tag htag e he => hkeeps.types tag htag e (stored_keeping.mp he).2

/-- What a part finds is what the whole finds. -/
theorem getExpr_keeping (hkeeps : node.KeepsCells) (kept : Bytes → Bool) (x : Bytes) :
    getExpr (node.keeping kept) x = getExpr node x ∨ getExpr (node.keeping kept) x = none := by
  by_cases hzero : x = zero32
  · rw [hzero]
    exact .inl rfl
  rcases hkept : (node.keeping kept).stored x with - | e
  · rcases htype : builtinTypeOfHash node.blake3 x with - | name
    · refine .inr ?_
      rw [getExpr, if_neg hzero, hkept]
      change (builtinTypeOfHash node.blake3 x).map Expr.symbol = none
      rw [htype]
      rfl
    · refine .inl ?_
      have hread : getExpr (node.keeping kept) x = some (.symbol name) := by
        rw [getExpr, if_neg hzero, hkept]
        change (builtinTypeOfHash node.blake3 x).map Expr.symbol = _
        rw [htype]
        rfl
      rw [hread, getExpr, if_neg hzero]
      rcases hstored : node.stored x with - | e
      · change _ = (builtinTypeOfHash node.blake3 x).map Expr.symbol
        rw [htype]
        rfl
      · have hx : terminalHash node.blake3 1 (utf8 name) = x := hash_of_builtinTypeOfHash htype
        rw [hkeeps.types name (List.mem_of_find?_eq_some htype) e (hx ▸ hstored)]
  · refine .inl ?_
    rw [getExpr, getExpr, if_neg hzero, if_neg hzero, hkept, (stored_keeping.mp hkept).2]

variable (hkeeps : node.KeepsCells)

include hkeeps

theorem lags_partLocal (ch : Child) :
    Lags (partLocal (node.keeping kept) ch) (partLocal node ch) := by
  cases ch with
  | loaded e => exact .refl _
  | none => exact .refl _
  | byHash x =>
    rcases getExpr_keeping hkeeps kept x with hx | hx
    · refine .inl ?_
      rw [partLocal, partLocal, hx]
    · rw [partLocal, partLocal, hx]
      by_cases hzero : x = zero32
      · rw [if_pos hzero, if_pos hzero]
        exact .refl _
      · rw [if_neg hzero]
        exact .inr rfl

theorem lags_storedRefTargetLocal (c : Expr) :
    Lags (storedRefTargetLocal (node.keeping kept) c) (storedRefTargetLocal node c) := by
  have htags : ∀ e, (node.keeping kept).tag e = node.tag e := fun _ => rfl
  have htails : ∀ ch, isNilTail (node.keeping kept) ch = isNilTail node ch := fun _ => rfl
  simp only [storedRefTargetLocal, htags, htails]
  split
  · exact .refl _
  refine (lags_partLocal hkeeps _).bind fun head _ => ?_
  rcases bytes32? head with - | block
  · exact .refl _
  refine (lags_partLocal hkeeps _).bind fun second _ => ?_
  rcases second with - | second
  · exact .refl _
  dsimp only
  split
  · exact .refl _
  refine (lags_partLocal hkeeps _).bind fun head₂ _ => ?_
  rcases bytes32? head₂ with - | id
  · exact .refl _
  refine (lags_partLocal hkeeps _).bind fun third _ => ?_
  rcases third with - | third
  · exact .refl _
  dsimp only
  split
  · exact .refl _
  exact (lags_partLocal hkeeps _).bind fun marker _ => .refl _

theorem lags_readPointerLocal (held : Option Bytes) (c : Expr) :
    Lags (readPointerLocal (node.keeping kept) held c) (readPointerLocal node held c) :=
  (lags_storedRefTargetLocal hkeeps c).bind fun _ _ => .refl _

theorem lags_readChildLocal (held : Option Bytes) (c : Expr) :
    Lags (readChildLocal (node.keeping kept) held c) (readChildLocal node held c) := by
  rw [readChildLocal, readChildLocal]
  split
  · exact .refl _
  · exact (lags_readPointerLocal hkeeps held c).bind fun _ _ => .refl _

theorem lags_readValueLocal (held : Option Bytes) (c : Expr) :
    Lags (readValueLocal (node.keeping kept) held c) (readValueLocal node held c) := by
  rw [readValueLocal, readValueLocal]
  split
  · exact .refl _
  refine (lags_readPointerLocal hkeeps held c).bind fun p _ => ?_
  refine Lags.bind (.refl (node.hash? c)) fun y _ => ?_
  split
  · exact .refl _
  rcases getExpr_keeping hkeeps kept p.id with hx | hx
  · rw [hx]
    exact .refl _
  · rw [hx]
    exact .inr rfl

/-- The list of a node is fetched alike, or a cell of it is not found. -/
theorem getExprListFrom_keeping (n : Nat) (e : Expr) :
    getExprListFrom (node.keeping kept) n e = getExprListFrom node n e ∨
      getExprListFrom (node.keeping kept) n e = .ok none := by
  have htags : ∀ e, (node.keeping kept).tag e = node.tag e := fun _ => rfl
  induction n generalizing e with
  | zero => exact .inl rfl
  | succ n ih =>
    rw [getExprListFrom.eq_def, getExprListFrom.eq_def node]
    dsimp only
    rw [htags]
    by_cases htag : node.tag e ≠ "link"
    · rw [if_pos htag, if_pos htag]
      exact .inl rfl
    rw [if_neg htag, if_neg htag]
    have htail : ∀ v h t,
        (getExprListFrom (node.keeping kept) n t >>= fun t =>
            (return t.map fun t => Expr.link v h (.loaded t) : Py (Option Expr))) =
          (getExprListFrom node n t >>= fun t =>
            (return t.map fun t => Expr.link v h (.loaded t) : Py (Option Expr))) ∨
        (getExprListFrom (node.keeping kept) n t >>= fun t =>
            (return t.map fun t => Expr.link v h (.loaded t) : Py (Option Expr))) = .ok none := by
      intro v h t
      rcases ih t with ht | ht
      · exact .inl (by rw [ht])
      · exact .inr (by rw [ht]; rfl)
    rcases e with _ | s | b | b | ⟨v, h, _ | t | x⟩
    · exact .inl rfl
    · exact .inl rfl
    · exact .inl rfl
    · exact .inl rfl
    · exact .inl rfl
    · exact htail v h t
    · dsimp only
      by_cases hzero : x = zero32
      · rw [if_pos hzero, if_pos hzero]
        exact .inl rfl
      rw [if_neg hzero, if_neg hzero]
      rcases getExpr_keeping hkeeps kept x with hx | hx
      · rw [hx]
        rcases getExpr node x with - | t
        · exact .inl rfl
        · exact htail v h t
      · rw [hx]
        exact .inr rfl

theorem listItem_keeping (kept : Bytes → Bool) (c : Expr) :
    listItem (node.keeping kept) c = listItem node c ∨ (listItem (node.keeping kept) c).2 ≠ [] := by
  rw [listItem, listItem]
  rcases c.headChild with - | h | x
  · exact .inl rfl
  · exact .inl rfl
  · dsimp only
    split
    · rcases getExpr_keeping hkeeps kept x with hx | hx
      · rw [hx]
        exact .inl rfl
      · rw [hx]
        exact .inr (by simp)
    · exact .inl rfl

/-- The items of a list are read alike, or one is missed. -/
theorem resolveListFrom_keeping (kept : Bytes → Bool) (n : Nat) (e : Expr) :
    resolveListFrom (node.keeping kept) n e = resolveListFrom node n e ∨
      ∃ p, resolveListFrom (node.keeping kept) n e = .ok p ∧ p.2 ≠ [] := by
  induction n generalizing e with
  | zero => exact .inl rfl
  | succ n ih =>
    rw [resolveListFrom, resolveListFrom]
    by_cases hbase : e.base ≠ .link
    · rw [if_pos hbase, if_pos hbase]
      exact .inl rfl
    rw [if_neg hbase, if_neg hbase]
    have hrest : ∀ x y : Py (List Expr × List Bytes), (x = y ∨ ∃ p, x = .ok p ∧ p.2 ≠ []) →
        (x >>= fun rest => (return ((listItem (node.keeping kept) e).1 ++ rest.1,
            (listItem (node.keeping kept) e).2 ++ rest.2) : Py (List Expr × List Bytes))) =
          (y >>= fun rest => (return ((listItem node e).1 ++ rest.1,
            (listItem node e).2 ++ rest.2) : Py (List Expr × List Bytes))) ∨
        ∃ p, (x >>= fun rest => (return ((listItem (node.keeping kept) e).1 ++ rest.1,
            (listItem (node.keeping kept) e).2 ++ rest.2) : Py (List Expr × List Bytes))) = .ok p ∧
          p.2 ≠ [] := by
      rintro x y (rfl | ⟨p, rfl, hp⟩)
      · cases x with
        | error err => exact .inl rfl
        | ok rest =>
          rcases listItem_keeping hkeeps kept e with hitem | hitem
          · exact .inl (by rw [hitem])
          · exact .inr ⟨_, rfl, by simp [hitem]⟩
      · exact .inr ⟨_, rfl, by simp [hp]⟩
    rcases e.tailChild with - | t | x
    · exact hrest _ _ (.inl rfl)
    · exact hrest _ _ (ih t)
    · dsimp only
      by_cases hzero : x = zero32
      · rw [if_pos hzero, if_pos hzero]
        exact hrest _ _ (.inl rfl)
      rw [if_neg hzero, if_neg hzero]
      rcases getExpr_keeping hkeeps kept x with hx | hx
      · rw [hx]
        rcases getExpr node x with - | t
        · exact hrest _ _ (.inl rfl)
        · exact hrest _ _ (ih t)
      · rw [hx]
        rcases getExpr node x with - | t
        · exact hrest (.ok ([], [x])) (.ok ([], [x])) (.inl rfl)
        · exact hrest (.ok ([], [x])) (resolveListFrom node n t) (.inr ⟨_, rfl, by simp⟩)

theorem lags_getExprValue_int (m : Int) :
    Lags (getExprValue (node.keeping kept) ((int_ m).stored node.blake3))
      (getExprValue node ((int_ m).stored node.blake3)) := by
  rw [stored_int, getExprValue, getExprValue]
  have htag : ∀ e, Lags (getExprTag (node.keeping kept) e) (getExprTag node e) := by
    intro e
    rw [getExprTag, getExprTag]
    split
    · split
      · exact .refl _
      · rename_i x _ _ _
        have htype : builtinTypeOfHash (node.keeping kept).blake3 x =
            builtinTypeOfHash node.blake3 x := rfl
        rw [htype]
        rcases builtinTypeOfHash node.blake3 x with - | name
        · rcases getExpr_keeping hkeeps kept x with hx | hx
          · exact .inl (by rw [hx])
          · exact .inr (by rw [hx])
        · exact .refl _
    · exact .refl _
  dsimp only [Expr.value, Expr.headChild]
  split
  · exact .refl _
  rcases getExpr_keeping hkeeps kept (terminalHash node.blake3 2 (encodeInt m)) with hx | hx
  · rw [hx]
    split
    · exact .refl _
    · exact (htag _).bind fun _ _ => .refl _
  · rw [hx]
    exact .inr rfl

theorem lags_radixElements (h : Bytes) :
    Lags (radixElements (node.keeping kept) h) (radixElements node h) := by
  refine Lags.bind (.refl (expect (h ≠ zero32))) fun _ _ => ?_
  have hlist : getExprList (node.keeping kept) h = getExprList node h ∨
      getExprList (node.keeping kept) h = .ok none := by
    rw [getExprList, getExprList]
    rcases getExpr_keeping hkeeps kept h with hx | hx
    · rw [hx]
      rcases getExpr node h with - | e
      · exact .inl rfl
      · exact getExprListFrom_keeping hkeeps node.fuel e
    · rw [hx]
      exact .inr rfl
  rcases hlist with hlist | hlist
  · rw [hlist]
    refine Lags.bind (.refl _) fun expr _ => ?_
    rcases expr with - | e
    · exact .refl _
    rcases resolveListFrom_keeping hkeeps kept node.fuel e with hitems | ⟨p, hitems, hp⟩
    · have hitems' : resolveListExprs (node.keeping kept) e = resolveListExprs node e := hitems
      dsimp only
      rw [hitems']
      exact .refl _
    · have hitems' : resolveListExprs (node.keeping kept) e = .ok p := hitems
      dsimp only
      rw [hitems', py_ok_bind]
      refine .inr ?_
      rw [expect, if_neg hp]
      rfl
  · rw [hlist]
    exact .inr rfl

end Part

section Walks

variable {node : Node} {kept : Bytes → Bool}

/-- A walk that returns returns over a part as well: its stack is never longer. -/
theorem walkShapeFrom_keeping {fuel fuel' : Nat} {stack stack' : List (ShapeRule × Bytes)}
    {found : List (Bytes × Expr)} {missing : List Bytes} {out : List (Bytes × Expr) × List Bytes}
    (h : walkShapeFrom node fuel stack found missing = .ok out) (hsub : stack'.Sublist stack)
    (hle : fuel ≤ fuel') (found' : List (Bytes × Expr)) (missing' : List Bytes) :
    ∃ out', walkShapeFrom (node.keeping kept) fuel' stack' found' missing' = .ok out' := by
  have hnil : ∀ fuel' found' missing',
      ∃ out', walkShapeFrom (node.keeping kept) fuel' [] found' missing' = .ok out' := by
    intro fuel' found' missing'
    cases fuel' <;> exact ⟨_, rfl⟩
  induction fuel generalizing stack stack' found found' missing missing' fuel' with
  | zero =>
    cases stack with
    | nil =>
      obtain rfl := List.sublist_nil.mp hsub
      exact hnil _ _ _
    | cons q stack => cases h
  | succ fuel ih =>
    rcases stack with - | ⟨⟨rule, x⟩, stack⟩
    · obtain rfl := List.sublist_nil.mp hsub
      exact hnil _ _ _
    rw [walkShapeFrom] at h
    rcases List.sublist_cons_iff.mp hsub with hsub | ⟨rest, rfl, hrest⟩
    · split at h
      · exact ih h hsub (by omega) found' missing'
      · split at h
        · exact ih h hsub (by omega) found' missing'
        · exact ih h (hsub.trans (List.sublist_append_right _ _)) (by omega) found' missing'
    · obtain ⟨fuel', rfl⟩ := Nat.exists_eq_add_one_of_ne_zero (Nat.ne_zero_of_lt hle)
      have hfuel : fuel ≤ fuel' := by omega
      have hskips : skipsHash (node.keeping kept) x = skipsHash node x := rfl
      rw [walkShapeFrom, hskips]
      split at h
      · rename_i hpass
        rw [if_pos hpass]
        exact ih h hrest hfuel _ _
      · rename_i hpass
        rw [if_neg hpass]
        split at h
        · rename_i hget
          have hnone : (node.keeping kept).stored x = none := by
            rcases hkept : (node.keeping kept).stored x with - | e
            · rfl
            · rw [(stored_keeping.mp hkept).2] at hget
              cases hget
          rw [hnone]
          exact ih h hrest hfuel _ _
        · rename_i e hget
          rcases hkept : (node.keeping kept).stored x with - | e'
          · exact ih h (hrest.trans (List.sublist_append_right _ _)) hfuel _ _
          · have hsame := (stored_keeping.mp hkept).2
            rw [hget] at hsame
            obtain rfl := Option.some.inj hsame
            exact ih h (hrest.append_left (belowCell node rule e)) hfuel _ _

theorem walkShape_keeping {rule : ShapeRule} {x : Bytes} {out : List Expr × List Bytes}
    (h : walkShape node rule x = .ok out) :
    ∃ out', walkShape (node.keeping kept) rule x = .ok out' := by
  obtain ⟨found, hrun, -⟩ := except_bind_eq_ok.mp h
  obtain ⟨found', hrun'⟩ := @walkShapeFrom_keeping node kept _ _ _ _ _ _ _ hrun
    (List.Sublist.refl _) (le_refl node.fuel) [] []
  have hrun'' : walkShapeFrom (node.keeping kept) (node.keeping kept).fuel [(rule, x)] [] [] =
      .ok found' := hrun'
  exact ⟨_, by rw [walkShape, hrun'']; rfl⟩

end Walks

section Reads

variable {node : Node} {kept : Bytes → Bool} {n r : RadixNodeCells} {held : Option Bytes}

/-- A part reads a node of a tree as the whole does, or it finds that it does not hold it. -/
theorem lags_getRadixNodeLocal (hkeeps : node.KeepsCells) (hholds : node.HoldsNode n)
    (hfuel : 5 < node.fuel)
    (hread : getRadixNodeLocal node held (node.hash (n.toExpr node.blake3)) = .ok r) :
    Lags (getRadixNodeLocal (node.keeping kept) held (node.hash (n.toExpr node.blake3)))
      (getRadixNodeLocal node held (node.hash (n.toExpr node.blake3))) := by
  refine (lags_radixElements hkeeps _).bind fun elements helements => ?_
  obtain ⟨-, -, ⟨c₀, hc₀, -⟩, ⟨c₁, hc₁, -⟩, v, hv, -⟩ :=
    (getRadixNodeLocal_eq_ok hholds hfuel).mp hread
  have hself : getExpr node (node.hash (int_ n.keyLen)) =
      some ((int_ n.keyLen).stored node.blake3) := hholds.keyLen.self
  have hbytes : getExpr node (node.hash (.bytes n.key)) = some (.bytes n.key) := hholds.key.self
  have hitems : n.itemHashes node.blake3 = [node.hash (int_ n.keyLen), node.hash (.bytes n.key),
      (headOf n.child0).hash node.blake3, (headOf n.child1).hash node.blake3,
      (valueHead node.blake3 n.value).hash node.blake3] := rfl
  have hall : fetched node (n.itemHashes node.blake3) =
      ([(int_ n.keyLen).stored node.blake3, .bytes n.key, c₀, c₁, v], []) :=
    fetched_eq (by rw [hitems]; simp [hself, hbytes, hc₀, hc₁, hv])
  rw [radixElements_eq hholds hfuel, hall] at helements
  obtain rfl := Except.ok.inj helements
  refine Lags.bind (.refl (exprTagLocal node.blake3 _)) fun tag _ => ?_
  refine Lags.bind (.refl (expect (tag = "int"))) fun _ _ => ?_
  refine (lags_getExprValue_int hkeeps n.keyLen).bind fun value _ => ?_
  refine Lags.bind (.refl value.toInt) fun keyLen _ => ?_
  refine Lags.bind (.refl (exprTagLocal node.blake3 _)) fun tag _ => ?_
  refine Lags.bind (.refl (expect (tag = "bytes"))) fun _ _ => ?_
  refine Lags.bind (.inl rfl) fun value _ => ?_
  refine Lags.bind (.refl value.toBytes) fun key _ => ?_
  refine (lags_readChildLocal hkeeps held c₀).bind fun child0 _ => ?_
  refine (lags_readChildLocal hkeeps held c₁).bind fun child1 _ => ?_
  exact (lags_readValueLocal hkeeps held v).bind fun _ _ => .refl _

end Reads

end Astreum
