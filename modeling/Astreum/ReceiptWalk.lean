import Astreum.Pricing
import Mathlib.Algebra.BigOperators.Group.Finset.Basic

namespace Astreum

section Sizes

variable {hash : Expr → Bytes} {w : Expr → Nat} {xs : List Expr} {seen seen' : List Bytes}

variable (hash w) in
/-- What cells without children are charged for, of which every one is charged once. -/
def newSizes : List Expr → List Bytes → Nat
  | [], _ => 0
  | x :: xs, seen =>
    if hash x ∈ seen then newSizes xs seen else w x + newSizes xs (hash x :: seen)

theorem newSizes_congr (h : ∀ x ∈ xs, hash x ∈ seen ↔ hash x ∈ seen') :
    newSizes hash w xs seen = newSizes hash w xs seen' := by
  induction xs generalizing seen seen' with
  | nil => rfl
  | cons x xs ih =>
    have hrest : ∀ y ∈ xs, hash y ∈ seen ↔ hash y ∈ seen' :=
      fun y hy => h y (List.mem_cons_of_mem _ hy)
    by_cases hx : hash x ∈ seen
    · rw [newSizes, newSizes, if_pos hx, if_pos ((h x List.mem_cons_self).mp hx), ih hrest]
    · rw [newSizes, newSizes, if_neg hx, if_neg fun h' => hx ((h x List.mem_cons_self).mpr h')]
      have hsame : newSizes hash w xs (hash x :: seen) = newSizes hash w xs (hash x :: seen') :=
        ih fun y hy => by rw [List.mem_cons, List.mem_cons, hrest y hy]
      rw [hsame]

/-- The first cell is charged where it is new, and the rest after it. A hash of no cell that was
seen besides changes nothing. -/
theorem newSizes_cons_of_seen {x : Expr} {other : Bytes} (hx : hash x ≠ other)
    (hxs : ∀ y ∈ xs, hash y ≠ other)
    (hseen : ∀ h, h ∈ seen' ↔ h = hash x ∨ h ∈ other :: seen) :
    newSizes hash w (x :: xs) seen =
      (if hash x ∈ other :: seen then 0 else w x) + newSizes hash w xs seen' := by
  have hmem : hash x ∈ other :: seen ↔ hash x ∈ seen := by simp [hx]
  rw [newSizes, if_congr hmem rfl rfl]
  by_cases hold : hash x ∈ seen
  · rw [if_pos hold, if_pos hold, Nat.zero_add]
    refine newSizes_congr fun y hy => ?_
    rw [hseen, List.mem_cons]
    constructor
    · exact fun h => .inr (.inr h)
    · rintro (h | h | h)
      · exact h ▸ hold
      · exact absurd h (hxs y hy)
      · exact h
  · rw [if_neg hold, if_neg hold]
    congr 1
    refine newSizes_congr fun y hy => ?_
    rw [hseen, List.mem_cons, List.mem_cons]
    have := hxs y hy
    tauto

theorem newSizes_append {xs ys : List Expr}
    (hseen : ∀ h, h ∈ seen' ↔ h ∈ xs.map hash ∨ h ∈ seen) :
    newSizes hash w (xs ++ ys) seen = newSizes hash w xs seen + newSizes hash w ys seen' := by
  induction xs generalizing seen with
  | nil =>
    rw [List.nil_append, newSizes, Nat.zero_add]
    exact newSizes_congr fun y _ => by simp [hseen]
  | cons x xs ih =>
    rw [List.cons_append, newSizes, newSizes]
    by_cases hx : hash x ∈ seen
    · rw [if_pos hx, if_pos hx]
      refine ih fun h => ?_
      rw [hseen, List.map_cons, List.mem_cons]
      constructor
      · rintro ((rfl | h) | h)
        · exact .inr hx
        · exact .inl h
        · exact .inr h
      · tauto
    · rw [if_neg hx, if_neg hx, Nat.add_assoc]
      congr 1
      refine ih fun h => ?_
      rw [hseen, List.map_cons, List.mem_cons, List.mem_cons]
      tauto

/-- Cells that are told by their hashes are charged as a set. -/
theorem newSizes_eq_sum (h : ∀ x ∈ xs, ∀ y ∈ xs, hash x = hash y → x = y) :
    newSizes hash w xs seen = (xs.toFinset.filter fun x => hash x ∉ seen).sum w := by
  induction xs generalizing seen with
  | nil => rfl
  | cons x xs ih =>
    have hrest : ∀ y ∈ xs, ∀ z ∈ xs, hash y = hash z → y = z :=
      fun y hy z hz => h y (List.mem_cons_of_mem _ hy) z (List.mem_cons_of_mem _ hz)
    rw [newSizes, List.toFinset_cons, Finset.filter_insert]
    by_cases hx : hash x ∈ seen
    · rw [if_pos hx, if_neg (not_not.mpr hx), ih hrest]
    · rw [if_neg hx, if_pos hx, ih hrest]
      have herase : (xs.toFinset.filter fun y => hash y ∉ hash x :: seen) =
          (insert x (xs.toFinset.filter fun y => hash y ∉ seen)).erase x := by
        ext y
        simp only [Finset.mem_filter, List.mem_toFinset, List.mem_cons, not_or, Finset.mem_erase,
          Finset.mem_insert]
        constructor
        · rintro ⟨hy, hne, hnew⟩
          exact ⟨fun hxy => hne (hxy ▸ rfl), .inr ⟨hy, hnew⟩⟩
        · rintro ⟨hne, hxy | ⟨hy, hnew⟩⟩
          · exact absurd hxy hne
          · refine ⟨hy, fun hsame => hne ?_, hnew⟩
            exact h y (List.mem_cons_of_mem _ hy) x List.mem_cons_self hsame
      rw [herase, Finset.add_sum_erase _ _ (Finset.mem_insert_self _ _)]

end Sizes

section Walk

variable {node : Node} {e a b : Expr} {stack : List (Option Expr × Bytes)} {seen : List Bytes}
  {total : Nat}

/-- Where `storage_walk_size` stands. -/
structure WalkState where
  stack : List (Option Expr × Bytes)
  seen : List Bytes
  total : Nat

/-- The walk comes from one place to another in so many rounds at most. -/
def Walks (node : Node) (k : Nat) (s s' : WalkState) : Prop :=
  ∃ j ≤ k, ∀ n, storageWalkFrom node (n + j) s.stack s.seen s.total =
    storageWalkFrom node n s'.stack s'.seen s'.total

theorem Walks.refl (s : WalkState) : Walks node 0 s s := ⟨0, le_rfl, fun _ => rfl⟩

theorem Walks.trans {k k' : Nat} {s s' s'' : WalkState} (h : Walks node k s s')
    (h' : Walks node k' s' s'') : Walks node (k + k') s s'' := by
  obtain ⟨j, hj, hrun⟩ := h
  obtain ⟨j', hj', hrun'⟩ := h'
  refine ⟨j + j', by omega, fun n => ?_⟩
  rw [show n + (j + j') = n + j' + j by omega, hrun, hrun']

/-- The walk that comes to an empty stack has its total. -/
theorem Walks.size {k : Nat} {s : WalkState} {seen : List Bytes} {total : Nat}
    (h : Walks node k s ⟨[], seen, total⟩) (hfuel : k < node.fuel) :
    storageWalkFrom node node.fuel s.stack s.seen s.total = .ok (some total) := by
  obtain ⟨j, hj, hrun⟩ := h
  rw [show node.fuel = (node.fuel - j - 1) + 1 + j by omega, hrun]
  rfl

variable (stack total)

theorem walks_seen (sub : Option Expr) {h : Bytes} (hseen : h ∈ seen) :
    Walks node 1 ⟨(sub, h) :: stack, seen, total⟩ ⟨stack, seen, total⟩ :=
  ⟨1, le_rfl, fun n => by rw [storageWalkFrom, if_pos hseen]⟩

theorem walks_seen_all {items : List (Option Expr × Bytes)} (h : ∀ x ∈ items, x.2 ∈ seen) :
    Walks node items.length ⟨items ++ stack, seen, total⟩ ⟨stack, seen, total⟩ := by
  induction items with
  | nil => exact .refl _
  | cons x items ih =>
    have hstep : Walks node 1 _ _ := walks_seen (items ++ stack) total x.1
      (h x List.mem_cons_self)
    rw [List.length_cons, Nat.add_comm]
    exact hstep.trans (ih fun y hy => h y (List.mem_cons_of_mem _ hy))

theorem walks_cell {h : Bytes} {size : Nat} {below : List (Option Expr × Bytes)} (hnew : h ∉ seen)
    (hsize : flatSize node e = .ok (some size)) (hbelow : cellChildren node e = .ok below) :
    Walks node 1 ⟨(some e, h) :: stack, seen, total⟩
      ⟨below ++ stack, h :: seen, total + size⟩ := by
  refine ⟨1, le_rfl, fun n => ?_⟩
  rw [storageWalkFrom, if_neg hnew]
  simp only [Option.some_or, hsize, hbelow]
  rfl

/-- A cell below which the walk finds at most one item, which is named. -/
structure IsLeaf (node : Node) (named : List Bytes) (e : Expr) (size : Nat) : Prop where
  size : flatSize node e = .ok (some size)
  below : ∃ items, cellChildren node e = .ok items ∧ items.length ≤ 1 ∧ ∀ x ∈ items, x.2 ∈ named

theorem walks_leaf {named : List Bytes} {size : Nat} (he : IsLeaf node named e size) (h : Bytes)
    (hnamed : ∀ x ∈ named, x ∈ seen) :
    ∃ seen', (∀ x, x ∈ seen' ↔ x = h ∨ x ∈ seen) ∧
      Walks node 2 ⟨(some e, h) :: stack, seen, total⟩
        ⟨stack, seen', total + if h ∈ seen then 0 else size⟩ := by
  by_cases hseen : h ∈ seen
  · refine ⟨seen, fun x => ⟨.inr, ?_⟩, ?_⟩
    · rintro (rfl | hx)
      · exact hseen
      · exact hx
    · rw [if_pos hseen]
      have hstep : Walks node 1 _ _ := walks_seen stack total (some e) hseen
      obtain ⟨j, hj, hrun⟩ := hstep
      exact ⟨j, by omega, hrun⟩
  · obtain ⟨items, hitems, hlength, hbelow⟩ := he.below
    refine ⟨h :: seen, fun x => List.mem_cons, ?_⟩
    rw [if_neg hseen]
    have hstep := walks_cell stack total hseen he.size hitems
    obtain ⟨j, hj, hrun⟩ := hstep.trans (walks_seen_all stack _ fun x hx =>
      List.mem_cons_of_mem _ (hnamed _ (hbelow x hx)))
    exact ⟨j, by omega, hrun⟩

theorem walks_leaves {named : List Bytes} {w : Expr → Nat} {xs : List Expr}
    (hleaf : ∀ x ∈ xs, IsLeaf node named x (w x)) (hnamed : ∀ x ∈ named, x ∈ seen) :
    ∃ seen', Walks node (2 * xs.length)
      ⟨xs.map (fun x => (some x, node.hash x)) ++ stack, seen, total⟩
      ⟨stack, seen', total + newSizes node.hash w xs seen⟩ := by
  induction xs generalizing seen total with
  | nil => exact ⟨seen, .refl _⟩
  | cons x xs ih =>
    obtain ⟨seen₂, hseen₂, hitem⟩ := walks_leaf
      (xs.map (fun x => (some x, node.hash x)) ++ stack) total
      (hleaf x List.mem_cons_self) (node.hash x) hnamed
    obtain ⟨seen', hrun⟩ := ih (total + if node.hash x ∈ seen then 0 else w x)
      (fun y hy => hleaf y (List.mem_cons_of_mem _ hy))
      (fun y hy => (hseen₂ y).mpr (.inr (hnamed y hy)))
    have hsizes : newSizes node.hash w (x :: xs) seen =
        (if node.hash x ∈ seen then 0 else w x) + newSizes node.hash w xs seen₂ := by
      have happend : newSizes node.hash w ([x] ++ xs) seen =
          newSizes node.hash w [x] seen + newSizes node.hash w xs seen₂ :=
        newSizes_append fun h => by rw [hseen₂]; simp
      rw [List.singleton_append] at happend
      rw [happend]
      simp only [newSizes, Nat.add_zero]
    refine ⟨seen', ?_⟩
    rw [hsizes, ← Nat.add_assoc]
    obtain ⟨j, hj, hall⟩ := hitem.trans hrun
    exact ⟨j, by rw [List.length_cons]; omega, hall⟩

end Walk

section Links

variable {node : Node} {e a b : Expr} {named : List Bytes}

theorem not_composite_of_none (h : builtinTypeOfHash node.blake3 (node.hash b) = none)
    (tag : String) (hb : b = .symbol tag) : tag ∉ builtinCompositeTypeNames := by
  rintro htag
  subst hb
  have hmem : tag ∈ builtinTypeNames := List.mem_append_left _ htag
  have hne := List.find?_eq_none.mp h tag hmem
  exact hne (beq_self_eq_true _)

/-- A link whose tail is no type symbol is a structure, and not a value. -/
theorem plain_link (h : builtinTypeOfHash node.blake3 (node.hash b) = none) :
    node.tag (link a b) = "link" ∧ typedPayloadSize node (link a b) = .ok (some none) := by
  have hplain : (link a b).isBuiltinComposite = false := by
    rw [link]
    cases b with
    | symbol tag =>
      have htag := not_composite_of_none h tag rfl
      simp [Expr.isBuiltinComposite, htag]
    | _ => rfl
  constructor
  · cases b with
    | symbol tag =>
      have htag := not_composite_of_none h tag rfl
      exact if_neg htag
    | _ => rfl
  · have hname : builtinTypeOfHash node.blake3 ((Child.loaded b).hash node.blake3) = none := h
    rw [typedPayloadSize.eq_def]
    rw [link] at hplain ⊢
    simp only [hplain, hname]
    rfl

theorem link_cell (ha : a.hashable = true) (hb : b.hashable = true)
    (h : builtinTypeOfHash node.blake3 (node.hash b) = none) :
    flatSize node (link a b) = .ok (some 64) ∧
      cellChildren node (link a b) = .ok
        ((if node.hash a = zero32 then [] else [(some a, node.hash a)]) ++
          if node.hash b = zero32 then [] else [(some b, node.hash b)]) := by
  obtain ⟨htag, hpayload⟩ := plain_link (a := a) h
  constructor
  · rw [flatSize, hpayload]
    simp only [htag]
    rfl
  · rw [cellChildren, htag, hpayload]
    simp only [link, Expr.headChild, Expr.tailChild, Node.hash?, ha, hb, if_true]
    rfl

theorem isLeaf_int (n : Int) : IsLeaf node named (int_ n) (encodeInt n).length where
  size := rfl
  below := ⟨[], rfl, by simp, by simp⟩

theorem isLeaf_symbol (s : String) : IsLeaf node named (.symbol s) (utf8 s).length where
  size := rfl
  below := ⟨[], rfl, by simp, by simp⟩

theorem isLeaf_refTo {h : Bytes} (hnamed : h ∈ named) : IsLeaf node named (refTo h) 64 where
  size := rfl
  below := by
    refine ⟨if h = zero32 then [] else [(none, h)], ?_, ?_, ?_⟩
    · by_cases hz : h = zero32
      · subst hz
        rfl
      · rw [if_neg hz]
        have hside : cellChildren node (refTo h) =
            .ok ((if h = zero32 then [] else [(none, h)]) ++ []) := rfl
        rw [hside, if_neg hz]
        rfl
    · split <;> simp
    · split
      · simp
      · simpa using hnamed

theorem hash_spine (xs : List Expr) (last : Expr) (hxs : ∀ x ∈ xs, x.hashable = true)
    (hlast : last.hashable = true) : (xs.foldr link last).hashable = true := by
  induction xs with
  | nil => exact hlast
  | cons x xs ih =>
    have hx := hxs x List.mem_cons_self
    have hrest := ih fun y hy => hxs y (List.mem_cons_of_mem _ hy)
    simp only [List.foldr_cons, link, Expr.hashable, Child.hashable, hx, hrest, Bool.or_true,
      Bool.and_true]

/-- The links of a list of cells that ends in `last`. -/
def spineLinks : List Expr → Expr → List Expr
  | [], _ => []
  | x :: xs, last => (x :: xs).foldr link last :: spineLinks xs last

/-- The links of a list are told from each other, from its cells and from what was seen. -/
structure SpineApart (node : Node) (xs : List Expr) (last : Expr) (seen : List Bytes) : Prop where
  links : ((spineLinks xs last).map node.hash).Nodup
  fresh : ∀ x ∈ spineLinks xs last, node.hash x ∉ seen ∧ node.hash x ≠ zero32 ∧
    node.hash x ∉ xs.map node.hash
  types : ∀ x ∈ last :: spineLinks xs last, builtinTypeOfHash node.blake3 (node.hash x) = none
  cells : ∀ x ∈ last :: xs, x.hashable = true ∧ node.hash x ≠ zero32

/-- The walk goes down a list, and comes to the cell that it ends in. -/
theorem walks_spine {w : Expr → Nat} {xs : List Expr} {last : Expr} {seen : List Bytes}
    (stack : List (Option Expr × Bytes)) (total : Nat) (hleaf : ∀ x ∈ xs, IsLeaf node named x (w x))
    (hnamed : ∀ x ∈ named, x ∈ seen) (h : SpineApart node xs last seen) :
    ∃ seen', (∀ x, x ∈ seen' ↔ x ∈ (spineLinks xs last).map node.hash ∨ x ∈ xs.map node.hash ∨
        x ∈ seen) ∧
      Walks node (3 * xs.length) ⟨(some (xs.foldr link last), node.hash (xs.foldr link last)) ::
        stack, seen, total⟩ ⟨(some last, node.hash last) :: stack, seen',
          total + 64 * xs.length + newSizes node.hash w xs seen⟩ := by
  induction xs generalizing seen total with
  | nil => exact ⟨seen, by simp [spineLinks], .refl _⟩
  | cons x xs ih =>
    let rest := xs.foldr link last
    have hrestLink : rest = last ∨ rest ∈ spineLinks xs last := by
      cases xs with
      | nil => exact .inl rfl
      | cons y ys => exact .inr List.mem_cons_self
    have htype : builtinTypeOfHash node.blake3 (node.hash rest) = none := by
      rcases hrestLink with heq | hmem
      · rw [heq]
        exact h.types last List.mem_cons_self
      · exact h.types rest (List.mem_cons_of_mem _ (List.mem_cons_of_mem _ hmem))
    have hrestZero : node.hash rest ≠ zero32 := by
      rcases hrestLink with heq | hmem
      · rw [heq]
        exact (h.cells last List.mem_cons_self).2
      · exact (h.fresh rest (List.mem_cons_of_mem _ hmem)).2.1
    obtain ⟨hx, hxzero⟩ := h.cells x (List.mem_cons_of_mem _ List.mem_cons_self)
    have hrestHash : rest.hashable = true := hash_spine xs last
      (fun y hy => (h.cells y (List.mem_cons_of_mem _ (List.mem_cons_of_mem _ hy))).1)
      (h.cells last List.mem_cons_self).1
    obtain ⟨hsize, hbelow⟩ := link_cell hx hrestHash htype
    rw [if_neg hxzero, if_neg hrestZero] at hbelow
    obtain ⟨hnew, -, happart⟩ := h.fresh (link x rest) List.mem_cons_self
    have hlink := walks_cell stack total hnew hsize hbelow
    have hnamed₁ : ∀ y ∈ named, y ∈ node.hash (link x rest) :: seen :=
      fun y hy => List.mem_cons_of_mem _ (hnamed y hy)
    obtain ⟨seen₂, hseen₂, hitem⟩ := walks_leaf ((some rest, node.hash rest) :: stack)
      (total + 64) (hleaf x List.mem_cons_self) (node.hash x) hnamed₁
    have hlinks := List.nodup_cons.mp h.links
    have hnext : SpineApart node xs last seen₂ := by
      refine ⟨hlinks.2, fun y hy => ?_, fun y hy => ?_, fun y hy => ?_⟩
      · obtain ⟨hfresh, hzero, hcells⟩ := h.fresh y (List.mem_cons_of_mem _ hy)
        rw [List.map_cons, List.mem_cons, not_or] at hcells
        refine ⟨fun hcon => ?_, hzero, hcells.2⟩
        rcases (hseen₂ _).mp hcon with heq | hmem
        · exact hcells.1 heq
        · rcases List.mem_cons.mp hmem with heq | hmem
          · exact hlinks.1 (heq ▸ List.mem_map_of_mem hy)
          · exact hfresh hmem
      · rcases List.mem_cons.mp hy with rfl | hy
        · exact h.types _ List.mem_cons_self
        · exact h.types y (List.mem_cons_of_mem _ (List.mem_cons_of_mem _ hy))
      · rcases List.mem_cons.mp hy with rfl | hy
        · exact h.cells _ List.mem_cons_self
        · exact h.cells y (List.mem_cons_of_mem _ (List.mem_cons_of_mem _ hy))
    obtain ⟨seen', hseen', hrun⟩ := ih (total + 64 +
        if node.hash x ∈ node.hash (link x rest) :: seen then 0 else w x)
      (fun y hy => hleaf y (List.mem_cons_of_mem _ hy))
      (fun y hy => (hseen₂ y).mpr (.inr (hnamed₁ y hy))) hnext
    refine ⟨seen', fun y => ?_, ?_⟩
    · rw [hseen', hseen₂, spineLinks, List.map_cons, List.map_cons, List.mem_cons, List.mem_cons,
        List.mem_cons]
      change _ ↔ (y = node.hash (link x rest) ∨ _) ∨ _
      tauto
    · have hne : ∀ y ∈ x :: xs, node.hash y ≠ node.hash (link x rest) :=
        fun y hy heq => happart (heq ▸ List.mem_map_of_mem hy)
      have hsizes : newSizes node.hash w (x :: xs) seen = _ :=
        newSizes_cons_of_seen (hne x List.mem_cons_self)
          (fun y hy => hne y (List.mem_cons_of_mem _ hy)) hseen₂
      rw [show total + 64 * (x :: xs).length + newSizes node.hash w (x :: xs) seen = total + 64 +
        (if node.hash x ∈ node.hash (link x rest) :: seen then 0 else w x) + 64 * xs.length +
          newSizes node.hash w xs seen₂ by rw [hsizes, List.length_cons]; omega]
      obtain ⟨j, hj, hall⟩ := (hlink.trans hitem).trans hrun
      exact ⟨j, by rw [List.length_cons]; omega, hall⟩

end Links

namespace Receipt

/-- The cells of the body, from the one that is read first on. -/
def fields (r : Receipt) : List Expr :=
  [int_ r.dataFee, int_ r.executionFee, refTo r.logsHash, int_ r.mint, int_ r.status.code,
    int_ r.storageFee, int_ r.transactionFee]

/-- The cells without children, in the order of a walk. -/
def leaves (r : Receipt) : List Expr := r.fields ++ [refTo r.transactionHash, .symbol "receipt"]

def body (r : Receipt) : Expr := r.fields.foldr link (refTo r.transactionHash)

def links (r : Receipt) : List Expr :=
  r.expr :: link r.body .nil :: spineLinks r.fields (refTo r.transactionHash)

/-- The hashes that a receipt only refers to. -/
def named (r : Receipt) : List Bytes := [r.transactionHash, r.logsHash]

/-- The cells of a receipt are told by their hashes: its links from each other, from its other cells
and from what it names, and the other cells from each other. None has the hash of nil, and none that
ends a link has that of a type. -/
structure Apart (node : Node) (r : Receipt) : Prop where
  links : (r.links.map node.hash).Nodup
  leaves : ∀ x ∈ r.leaves, ∀ y ∈ r.leaves, node.hash x = node.hash y → x = y
  apart : ∀ x ∈ r.links, node.hash x ∉ r.leaves.map node.hash ++ r.named
  nonzero : ∀ x ∈ r.links ++ r.leaves, node.hash x ≠ zero32
  types : ∀ x ∈ .nil :: refTo r.transactionHash :: .symbol "receipt" :: r.links,
    builtinTypeOfHash node.blake3 (node.hash x) = none

instance (node : Node) (r : Receipt) : Decidable (r.Apart node) :=
  decidable_of_iff ((r.links.map node.hash).Nodup ∧
      (∀ x ∈ r.leaves, ∀ y ∈ r.leaves, node.hash x = node.hash y → x = y) ∧
      (∀ x ∈ r.links, node.hash x ∉ r.leaves.map node.hash ++ r.named) ∧
      (∀ x ∈ r.links ++ r.leaves, node.hash x ≠ zero32) ∧
      ∀ x ∈ Expr.nil :: refTo r.transactionHash :: .symbol "receipt" :: r.links,
        builtinTypeOfHash node.blake3 (node.hash x) = none)
    ⟨fun h => ⟨h.1, h.2.1, h.2.2.1, h.2.2.2.1, h.2.2.2.2⟩,
      fun h => ⟨h.links, h.leaves, h.apart, h.nonzero, h.types⟩⟩

/-- What a cell without children is charged for. -/
def leafSize : Expr → Nat
  | .link (.int n) _ _ => (encodeInt n).length
  | .symbol s => (utf8 s).length
  | _ => 64

/-- What a receipt is charged for: nine links, and its other cells that it does not only name. -/
def walkSize (node : Node) (r : Receipt) : Nat :=
  64 * 9 + (r.leaves.toFinset.filter fun x => node.hash x ∉ r.named).sum leafSize

variable {node : Node} {r : Receipt}

theorem isLeaf_of_mem {x : Expr} (hx : x ∈ r.leaves) : IsLeaf node r.named x (leafSize x) := by
  simp only [leaves, fields, List.cons_append, List.nil_append, List.mem_cons, List.not_mem_nil,
    or_false] at hx
  rcases hx with rfl | rfl | rfl | rfl | rfl | rfl | rfl | rfl | rfl
  · exact isLeaf_int _
  · exact isLeaf_int _
  · exact isLeaf_refTo (by simp [named])
  · exact isLeaf_int _
  · exact isLeaf_int _
  · exact isLeaf_int _
  · exact isLeaf_int _
  · exact isLeaf_refTo (by simp [named])
  · exact isLeaf_symbol _

theorem hashable_of_mem {x : Expr} (hx : x ∈ r.leaves) : x.hashable = true := by
  simp only [leaves, fields, List.cons_append, List.nil_append, List.mem_cons, List.not_mem_nil,
    or_false] at hx
  rcases hx with rfl | rfl | rfl | rfl | rfl | rfl | rfl | rfl | rfl <;> rfl

theorem spineApart (h : r.Apart node) : SpineApart node r.fields (refTo r.transactionHash)
    (node.hash (link r.body .nil) :: node.hash r.expr :: r.named) where
  links := (List.nodup_cons.mp (List.nodup_cons.mp h.links).2).2
  fresh := by
    intro x hx
    have hlink : x ∈ r.links := List.mem_cons_of_mem _ (List.mem_cons_of_mem _ hx)
    have happart := h.apart x hlink
    rw [List.mem_append, not_or] at happart
    obtain ⟨hroot, hrest⟩ := List.nodup_cons.mp h.links
    have hbody := (List.nodup_cons.mp hrest).1
    refine ⟨?_, h.nonzero x (List.mem_append_left _ hlink), fun hcon => happart.1 ?_⟩
    · rw [List.mem_cons, List.mem_cons, not_or, not_or]
      refine ⟨fun heq => hbody (heq ▸ List.mem_map_of_mem hx), fun heq => hroot ?_, happart.2⟩
      exact heq ▸ List.mem_cons_of_mem _ (List.mem_map_of_mem hx)
    · rw [leaves, List.map_append]
      exact List.mem_append_left _ hcon
  types := by
    intro x hx
    rcases List.mem_cons.mp hx with rfl | hx
    · exact h.types _ (by simp)
    · exact h.types x (by simp [Receipt.links, hx])
  cells := by
    intro x hx
    have hmem : x ∈ r.leaves := by
      rw [leaves, List.mem_append]
      rcases List.mem_cons.mp hx with rfl | hx
      · exact .inr (by simp)
      · exact .inl hx
    exact ⟨hashable_of_mem hmem, h.nonzero x (List.mem_append_right _ hmem)⟩

/-- The size of the walk over a receipt. -/
theorem storageWalkSize_expr (h : r.Apart node) (hfuel : 32 < node.fuel) :
    storageWalkSize node r.expr r.named = .ok (some (r.walkSize node)) := by
  have hbodyHash : r.body.hashable = true := hash_spine _ _
    (fun x hx => hashable_of_mem (List.mem_append_left _ hx))
    (hashable_of_mem (r := r) (by simp [leaves]))
  have hinner : (link r.body .nil).hashable = true := by
    simp [link, Expr.hashable, Child.hashable, hbodyHash]
  have hroot : r.expr = link (link r.body .nil) (.symbol "receipt") := rfl
  have hrootHash : r.expr.hashable = true := by
    rw [hroot, link, Expr.hashable, Child.hashable, hinner]
    rfl
  have hbodyLink : r.body ∈ r.links :=
    List.mem_cons_of_mem _ (List.mem_cons_of_mem _ List.mem_cons_self)
  obtain ⟨hsize₁, hbelow₁⟩ := link_cell hinner
    (show (Expr.symbol "receipt").hashable = true from rfl) (h.types _ (by simp))
  obtain ⟨hsize₂, hbelow₂⟩ := link_cell hbodyHash (show Expr.nil.hashable = true from rfl)
    (h.types _ (by simp))
  have hinnerLink : link r.body .nil ∈ r.links := List.mem_cons_of_mem _ List.mem_cons_self
  rw [if_neg (h.nonzero _ (List.mem_append_left _ hinnerLink)),
    if_neg (h.nonzero _ (List.mem_append_right _ (by simp [leaves])))] at hbelow₁
  rw [if_neg (h.nonzero _ (List.mem_append_left _ hbodyLink)),
    if_pos (show node.hash .nil = zero32 from rfl)] at hbelow₂
  have hnamed : ∀ x ∈ r.links, node.hash x ∉ r.named := fun x hx hcon =>
    h.apart x hx (List.mem_append_right _ hcon)
  have happart : ∀ x ∈ r.links, ∀ y ∈ r.leaves, node.hash y ≠ node.hash x := fun x hx y hy heq =>
    h.apart x hx (List.mem_append_left _ (heq ▸ List.mem_map_of_mem hy))
  have hinnerNew : node.hash (link r.body .nil) ∉ node.hash r.expr :: r.named := by
    rw [List.mem_cons, not_or]
    refine ⟨fun heq => (List.nodup_cons.mp h.links).1 ?_, hnamed _ hinnerLink⟩
    exact heq ▸ List.mem_map_of_mem (List.mem_cons_self (a := link r.body .nil))
  -- the two links above the body, the body, and the two cells after it
  let mark : List (Option Expr × Bytes) :=
    [(some (.symbol "receipt"), node.hash (.symbol "receipt"))]
  let first := node.hash (link r.body .nil) :: node.hash r.expr :: r.named
  have hstep₁ := walks_cell [] 0 (hnamed _ List.mem_cons_self) hsize₁ hbelow₁
  have hstep₂ := walks_cell mark (0 + 64) hinnerNew hsize₂ hbelow₂
  obtain ⟨seen, hseen, hstep₃⟩ := walks_spine (w := leafSize) mark (0 + 64 + 64)
    (fun x hx => isLeaf_of_mem (List.mem_append_left _ hx))
    (fun x hx => List.mem_cons_of_mem _ (List.mem_cons_of_mem _ hx)) (spineApart h)
  obtain ⟨seen', hstep₄⟩ := walks_leaves (w := leafSize) []
    (0 + 64 + 64 + 64 * r.fields.length + newSizes node.hash leafSize r.fields first)
    (fun x hx => isLeaf_of_mem (List.mem_append_right r.fields hx))
    (fun x hx => (hseen x).mpr (.inr (.inr (List.mem_cons_of_mem _ (List.mem_cons_of_mem _ hx)))))
  have hsizes : newSizes node.hash leafSize r.leaves r.named =
      newSizes node.hash leafSize r.fields first +
        newSizes node.hash leafSize [refTo r.transactionHash, .symbol "receipt"] seen := by
    have hfirst : newSizes node.hash leafSize r.leaves r.named =
        newSizes node.hash leafSize r.leaves first := newSizes_congr fun x hx => by
      rw [List.mem_cons, List.mem_cons]
      have := happart _ hinnerLink x hx
      have := happart r.expr List.mem_cons_self x hx
      tauto
    have happend : newSizes node.hash leafSize r.leaves first = newSizes node.hash leafSize r.fields
        first + newSizes node.hash leafSize [refTo r.transactionHash, .symbol "receipt"]
          (r.fields.map node.hash ++ first) := newSizes_append fun x => List.mem_append
    rw [hfirst, happend]
    congr 1
    refine newSizes_congr fun x hx => ?_
    have hlinks : node.hash x ∉ (spineLinks r.fields (refTo r.transactionHash)).map node.hash := by
      intro hcon
      obtain ⟨y, hy, heq⟩ := List.mem_map.mp hcon
      exact happart y (List.mem_cons_of_mem _ (List.mem_cons_of_mem _ hy)) x
        (List.mem_append_right _ hx) heq.symm
    rw [hseen, List.mem_append]
    tauto
  have hwalk := ((hstep₁.trans hstep₂).trans hstep₃).trans hstep₄
  have hlength : r.fields.length = 7 := rfl
  have htotal : 0 + 64 + 64 + 64 * r.fields.length + newSizes node.hash leafSize r.fields first +
      newSizes node.hash leafSize [refTo r.transactionHash, .symbol "receipt"] seen =
        r.walkSize node := by
    rw [walkSize, ← newSizes_eq_sum h.leaves, hsizes, hlength]
    omega
  rw [htotal] at hwalk
  rw [storageWalkSize, Node.hash?, if_pos hrootHash]
  refine hwalk.size ?_
  rw [hlength, List.length_cons, List.length_singleton]
  omega

end Receipt

end Astreum
