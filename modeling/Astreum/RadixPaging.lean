import Astreum.BreadthFirst
import Astreum.StoragePart
import Astreum.RadixReplay
import Mathlib.Data.List.ReduceOption

namespace Astreum

/-- A node of a tree, and the block whose record holds it. -/
abbrev RadixEntry := Bytes × Option Bytes

section Collecting

variable (node : Node)

/-- `get_radix_node_from_storage(local=True)`, or none for a node that is not held in full. -/
def heldNode (entry : RadixEntry) : Py (Option RadixNodeCells) :=
  match getRadixNodeLocal node entry.2 entry.1 with
  | .ok n => .ok (some n)
  | .error .valueError => .ok none
  | .error err => .error err

/-- `group[expr.hash()] = expr` for each expr that is not found yet. -/
def groupOf (found : Dict Bytes Expr) : List Expr → Dict Bytes Expr → Py (Dict Bytes Expr)
  | [], group => .ok group
  | e :: es, group => do
    let h ← node.hash? e
    groupOf found es (if h ∈ found.keys then group else group.insert h e)

def groupSize (group : Dict Bytes Expr) : Nat :=
  (group.pairs.map fun p => 4 + (encodeExprToBytes node.blake3 p.2).length).sum

/-- The children that the walk enters, but for those that it has seen. -/
def childEntries (followRefs : Bool) (block : Option Bytes) (n : RadixNodeCells) :
    List RadixEntry :=
  ([n.child0, n.child1].reduceOption.filter fun p =>
    decide (p.id ≠ [] ∧ p.id ≠ zero32 ∧ (followRefs = true ∨ p.block = block))).map
    fun p => (p.id, p.block)

/-- The loop of `collect_radix_all`, from the queue that is left. -/
def collectFrom (valueRule : Option ShapeRule) (followRefs : Bool) (budget : Option Nat) :
    Nat → List RadixEntry → List Bytes → Dict Bytes Expr → List RadixEntry → Nat →
      Py (Dict Bytes Expr × List RadixEntry)
  | _, [], _, found, missing, _ => .ok (found, missing)
  | 0, _ :: _, _, _, _, _ => .error .outOfFuel
  | fuel + 1, entry :: queue, seen, found, missing, used => do
    let current ← heldNode node entry
    let (nodeExprs, _) ← walkShape node radixNodeRule entry.1
    let values ← valueExprs node current valueRule
    let group ← groupOf node found (nodeExprs ++ values) .empty
    let used' := used + groupSize node group
    if (budget.any fun b => decide (found.pairs ≠ [] ∧ b < used')) = true then
      return (found, missing)
    match current with
    | none =>
      collectFrom valueRule followRefs budget fuel queue seen (found.putAll group)
        (missing ++ [entry]) used'
    | some n =>
      let entered := BreadthFirst.fresh Prod.fst seen (childEntries followRefs entry.2 n)
      collectFrom valueRule followRefs budget fuel (queue ++ entered)
        (seen ++ entered.map Prod.fst) (found.putAll group) missing used'

def collectRadixAll (root : Bytes) (block : Option Bytes) (valueShape : Bytes) (followRefs : Bool)
    (budget : Option Nat) : Py (List Expr × List RadixEntry) := do
  let valueRule ← valueRuleOf valueShape
  let (found, missing) ← collectFrom node valueRule followRefs budget node.fuel [(root, block)]
    [root] .empty [] 0
  return (found.pairs.map Prod.snd, missing)

end Collecting

section Spec

variable (node : Node) (valueRule : Option ShapeRule) (followRefs : Bool)

/-- What is sent for a node: what the node rule reaches, and the value rule at its value. -/
def EntrySends (entry : RadixEntry) (x : Bytes) : Prop :=
  ShapeReaches node radixNodeRule entry.1 x ∨
    ∃ r v rule, getRadixNodeLocal node entry.2 entry.1 = .ok r ∧ r.value = some v ∧
      valueRule = some rule ∧ ShapeReaches node rule (v.pointer node.blake3).id x

/-- The entries below an entry. -/
def entered (entry : RadixEntry) : List RadixEntry :=
  match getRadixNodeLocal node entry.2 entry.1 with
  | .ok n => childEntries followRefs entry.2 n
  | .error _ => []

/-- An entry that is not held in full. -/
def isMissing (entry : RadixEntry) : Bool :=
  match getRadixNodeLocal node entry.2 entry.1 with
  | .ok _ => false
  | .error _ => true

/-- The entries below a start are bounded, and each can be walked. -/
structure Walkable (start : RadixEntry) (bound : List Bytes) : Prop where
  bounded : ∀ n p, BreadthFirst.Steps (entered node followRefs) start n p → p.1 ∈ bound
  reads : ∀ n p, BreadthFirst.Steps (entered node followRefs) start n p →
    ∃ current, heldNode node p = .ok current
  walks : ∀ n p, BreadthFirst.Steps (entered node followRefs) start n p →
    ∃ out, walkShape node radixNodeRule p.1 = .ok out
  values : ∀ n p r v rule, BreadthFirst.Steps (entered node followRefs) start n p →
    getRadixNodeLocal node p.2 p.1 = .ok r → r.value = some v → valueRule = some rule →
    ∃ out, walkShape node rule (v.pointer node.blake3).id = .ok out

/-- Where the loop stands. -/
structure Collected (budget : Option Nat) (start : RadixEntry)
    (done queue : List (RadixEntry × Nat)) (seen : List Bytes) (found : Dict Bytes Expr)
    (missing : List RadixEntry) (used : Nat) : Prop where
  search : BreadthFirst.Search (entered node followRefs) Prod.fst start done queue
  head : (done ++ queue).head? = some (start, 0)
  begun : done = [] → queue = [(start, 0)]
  queued : ∀ k, k ∈ seen ↔ k ∈ (done ++ queue).map fun q => q.1.1
  sends : ∀ x e, found.get? x = some e ↔
    node.stored x = some e ∧ ∃ q ∈ done, EntrySends node valueRule q.1 x
  missed : missing = (done.map Prod.fst).filter (isMissing node)
  size : used = groupSize node found
  within : ∀ b, budget = some b → used ≤ b ∨ done.map Prod.fst ⊆ [start]
  first : done ≠ [] → ∃ group, group <+: found.pairs.map Prod.snd ∧
    ∀ e, e ∈ group ↔ ∃ x, node.stored x = some e ∧ EntrySends node valueRule start x
  empty : found.pairs = [] → done = [] ∨ queue = []

/-- What a run returns: the exprs of the entries visited, which begin the breadth-first order, each
expr once and within the budget but for the start, and the entries that are not held. -/
structure Paged (budget : Option Nat) (start : RadixEntry) (exprs : List Expr)
    (missing visited : List RadixEntry) : Prop where
  order : ∃ order, visited <+: order ∧
    BreadthFirst.Order (entered node followRefs) Prod.fst start order
  whole : budget = none → BreadthFirst.Order (entered node followRefs) Prod.fst start visited
  head : visited.head? = some start
  sends : ∀ e, e ∈ exprs ↔
    ∃ p ∈ visited, ∃ x, node.stored x = some e ∧ EntrySends node valueRule p x
  once : (exprs.map node.hash).Nodup
  first : ∃ group, group <+: exprs ∧
    ∀ e, e ∈ group ↔ ∃ x, node.stored x = some e ∧ EntrySends node valueRule start x
  within : ∀ b, budget = some b →
    (exprs.map fun e => 4 + (encodeExprToBytes node.blake3 e).length).sum ≤ b ∨ visited = [start]
  missed : missing = visited.filter (isMissing node)

end Spec

section Groups

variable {node : Node} {found group out : Dict Bytes Expr} {es : List Expr}

theorem groupOf_returns (hkeeps : node.KeepsCells) (hes : ∀ e ∈ es, ∃ x, node.stored x = some e)
    (found group : Dict Bytes Expr) : ∃ out, groupOf node found es group = .ok out := by
  induction es generalizing group with
  | nil => exact ⟨group, rfl⟩
  | cons e es ih =>
    obtain ⟨x, hx⟩ := hes e List.mem_cons_self
    rw [groupOf, hkeeps.hash? hx, py_ok_bind]
    exact ih (fun e he => hes e (List.mem_cons_of_mem _ he)) _

/-- What a group holds: the exprs that are not found yet. -/
theorem groupOf_spec (hkeeps : node.KeepsCells) (hes : ∀ e ∈ es, ∃ x, node.stored x = some e)
    (h : groupOf node found es group = .ok out) (x : Bytes) (e : Expr)
    (hgroup : ∀ e', group.get? x = some e' → node.stored x = some e') :
    out.get? x = some e ↔ group.get? x = some e ∨
      e ∈ es ∧ node.stored x = some e ∧ x ∉ found.keys := by
  induction es generalizing group with
  | nil =>
    obtain rfl := Except.ok.inj h
    simp
  | cons e₀ es ih =>
    obtain ⟨y, hy⟩ := hes e₀ List.mem_cons_self
    have hes' : ∀ e ∈ es, ∃ x, node.stored x = some e := fun e he =>
      hes e (List.mem_cons_of_mem _ he)
    rw [groupOf, hkeeps.hash? hy, py_ok_bind] at h
    by_cases hin : y ∈ found.keys
    · rw [if_pos hin] at h
      rw [ih hes' h hgroup, List.mem_cons]
      refine or_congr_right ⟨fun h => ⟨.inr h.1, h.2⟩, ?_⟩
      rintro ⟨rfl | he, hx, hnot⟩
      · have hxy : x = y := by rw [← hkeeps.hash _ _ hx, hkeeps.hash _ _ hy]
        exact absurd (hxy ▸ hin) hnot
      · exact ⟨he, hx, hnot⟩
    · rw [if_neg hin] at h
      have hgroup' : ∀ e', (group.insert y e₀).get? x = some e' → node.stored x = some e' := by
        intro e' he'
        rw [Dict.get?_insert] at he'
        split at he'
        · rename_i hxy
          rw [← hxy, hy]
          exact he'
        · exact hgroup e' he'
      rw [ih hes' h hgroup', Dict.get?_insert, List.mem_cons]
      by_cases hxy : y = x
      · subst hxy
        rw [if_pos rfl]
        constructor
        · rintro (he | ⟨he, hx, hnot⟩)
          · obtain rfl := Option.some.inj he
            exact .inr ⟨.inl rfl, hy, hin⟩
          · exact .inr ⟨.inr he, hx, hnot⟩
        · rintro (he | ⟨-, hx, -⟩)
          · rw [hgroup e he] at hy
            exact .inl hy.symm
          · rw [hx] at hy
            exact .inl hy.symm
      · rw [if_neg hxy]
        refine or_congr_right ⟨fun h => ⟨.inr h.1, h.2⟩, ?_⟩
        rintro ⟨rfl | he, hx, hnot⟩
        · exact absurd (by rw [← hkeeps.hash _ _ hx, hkeeps.hash _ _ hy]) hxy
        · exact ⟨he, hx, hnot⟩

theorem groupSize_putAll (h : ∀ k ∈ group.keys, k ∉ found.keys) :
    groupSize node (found.putAll group) = groupSize node found + groupSize node group := by
  rw [groupSize, Dict.pairs_putAll h, List.map_append, List.sum_append]
  rfl

theorem Dict.pairs_eq_nil {d : Dict Bytes Expr} (h : ∀ x e, d.get? x ≠ some e) : d.pairs = [] := by
  refine List.eq_nil_iff_forall_not_mem.mpr fun p hp => ?_
  exact h p.1 p.2 (Dict.get?_eq_some.mpr hp)

end Groups

section Entries

variable {node : Node} {valueRule : Option ShapeRule} {followRefs : Bool} {entry : RadixEntry}
  {r : RadixNodeCells} {held : Option Bytes} {x : Bytes}

theorem heldNode_some : heldNode node entry = .ok (some r) ↔
    getRadixNodeLocal node entry.2 entry.1 = .ok r := by
  rw [heldNode]
  split
  · rename_i n hn
    rw [hn]
    simp
  · rename_i hn
    rw [hn]
    simp
  · rename_i err hne hn
    rw [hn]
    simp

theorem heldNode_none (h : heldNode node entry = .ok none) :
    getRadixNodeLocal node entry.2 entry.1 = .error .valueError := by
  rw [heldNode] at h
  split at h
  · cases h
  · assumption
  · cases h

/-- A list that has items is a link that is kept. -/
theorem stored_of_read (hkeeps : node.KeepsCells) (h : getRadixNodeLocal node held x = .ok r) :
    skipsHash node x = false ∧ ∃ e, node.stored x = some e := by
  obtain ⟨elements, helements, hfields⟩ := except_bind_eq_ok.mp h
  have hitems : elements ≠ [] := by
    rintro rfl
    cases hfields
  obtain ⟨_, hexpect, helements⟩ := except_bind_eq_ok.mp helements
  have hzero : x ≠ zero32 := expect_eq_ok.mp hexpect
  obtain ⟨list, hlist, helements⟩ := except_bind_eq_ok.mp helements
  rcases list with - | list
  · cases helements
  obtain ⟨⟨items, missed⟩, hresolve, helements⟩ := except_bind_eq_ok.mp helements
  obtain ⟨_, -, helements⟩ := except_bind_eq_ok.mp helements
  obtain rfl := Except.ok.inj helements
  obtain ⟨n, hn⟩ : ∃ n, node.fuel = n + 1 := by
    cases hfuel : node.fuel with
    | zero =>
      rw [resolveListExprs, hfuel] at hresolve
      cases hresolve
    | succ n => exact ⟨n, rfl⟩
  -- a symbol and bytes are lists without items
  have hterminal : ∀ e, getExpr node x = some e → node.tag e ≠ "link" → e.base ≠ .link → False := by
    intro e he htag hbase
    rw [getExprList, he] at hlist
    change getExprListFrom node node.fuel e = .ok (some list) at hlist
    rw [hn, getExprListFrom.eq_def] at hlist
    dsimp only at hlist
    rw [if_pos htag] at hlist
    obtain rfl := Option.some.inj (Except.ok.inj hlist)
    rw [resolveListExprs, hn, resolveListFrom, if_pos hbase] at hresolve
    exact hitems (Prod.mk.inj (Except.ok.inj hresolve)).1.symm
  have hsymbol : ∀ s, getExpr node x ≠ some (.symbol s) := fun s hs =>
    hterminal _ hs (by change "symbol" ≠ "link"; decide) (by simp [Expr.base])
  rcases hstored : node.stored x with - | e
  · have hget : getExpr node x = (builtinTypeOfHash node.blake3 x).map .symbol := by
      rw [getExpr, if_neg hzero, hstored]
    rcases htype : builtinTypeOfHash node.blake3 x with - | name
    · rw [htype] at hget
      rw [getExprList, hget] at hlist
      cases hlist
    · rw [htype] at hget
      exact absurd hget (hsymbol name)
  · have hget : getExpr node x = some e := by rw [getExpr, if_neg hzero, hstored]
    obtain ⟨bytes, hbytes⟩ := hkeeps.decoded _ _ hstored
    rcases decoded_cases hbytes with ⟨s, rfl⟩ | ⟨b, rfl⟩ | ⟨a, b, -, -, rfl⟩
    · exact absurd hget (hsymbol s)
    · exact (hterminal _ hget (by change "bytes" ≠ "link"; decide) (by simp [Expr.base])).elim
    · exact ⟨skipsHash_of_link hkeeps hstored hzero, _, rfl⟩

theorem root_sent (hkeeps : node.KeepsCells)
    (h : getRadixNodeLocal node entry.2 entry.1 = .ok r) :
    ∃ e, node.stored entry.1 = some e ∧ EntrySends node valueRule entry entry.1 := by
  obtain ⟨hskip, e, hstored⟩ := stored_of_read hkeeps h
  exact ⟨e, hstored, .inl (.here (by simp [radixNodeRule]) hskip hstored)⟩

/-- What is walked at an entry is what is sent for it. -/
theorem mem_entryExprs {current : Option RadixNodeCells} {nodeExprs values : List Expr}
    {missing : List Bytes} (hcurrent : heldNode node entry = .ok current)
    (hwalk : walkShape node radixNodeRule entry.1 = .ok (nodeExprs, missing))
    (hvalues : valueExprs node current valueRule = .ok values) (e : Expr) :
    e ∈ nodeExprs ++ values ↔ ∃ x, node.stored x = some e ∧ EntrySends node valueRule entry x := by
  rw [List.mem_append, walkShape_spec hwalk, valueExprs_spec hvalues]
  have hread : ∀ v, current.bind RadixNodeCells.value = some v ↔
      ∃ r, getRadixNodeLocal node entry.2 entry.1 = .ok r ∧ r.value = some v := by
    intro v
    rcases current with - | n
    · have herror := heldNode_none hcurrent
      rw [herror]
      simp
    · rw [heldNode_some.mp hcurrent]
      simp
  constructor
  · rintro (⟨x, hx, hreach⟩ | ⟨x, hx, v, rule, hv, hrule, hreach⟩)
    · exact ⟨x, hx, .inl hreach⟩
    · obtain ⟨r, hr, hv⟩ := (hread v).mp hv
      exact ⟨x, hx, .inr ⟨r, v, rule, hr, hv, hrule, hreach⟩⟩
  · rintro ⟨x, hx, hreach | ⟨r, v, rule, hr, hv, hrule, hreach⟩⟩
    · exact .inl ⟨x, hx, hreach⟩
    · exact .inr ⟨x, hx, v, rule, (hread v).mpr ⟨r, hr, hv⟩, hrule, hreach⟩

theorem RadixNodeCells.Alike.child_of {blake3 : Bytes → Bytes} {r r' : RadixNodeCells} {p : Pointer}
    (h : r.Alike blake3 r') (hp : r.child0 = some p ∨ r.child1 = some p) :
    ∃ p' : Pointer, (r'.child0 = some p' ∨ r'.child1 = some p') ∧ p'.id = p.id := by
  rcases hp with hp | hp
  · have hids := h.child0
    rw [hp] at hids
    obtain ⟨p', hp', hid⟩ := Option.map_eq_some_iff.mp hids.symm
    exact ⟨p', .inl hp', hid⟩
  · have hids := h.child1
    rw [hp] at hids
    obtain ⟨p', hp', hid⟩ := Option.map_eq_some_iff.mp hids.symm
    exact ⟨p', .inr hp', hid⟩

/-- A node is read under every block alike. -/
theorem getRadixNode_underBlock (held' : Option Bytes) (h : getRadixNodeLocal node held x = .ok r) :
    ∃ r', getRadixNodeLocal node held' x = .ok r' ∧ r'.Alike node.blake3 r := by
  obtain ⟨elements, helements, h⟩ := except_bind_eq_ok.mp h
  rw [getRadixNodeLocal, helements, py_ok_bind]
  rcases elements with _ | ⟨e₁, _ | ⟨e₂, _ | ⟨c₀, _ | ⟨c₁, _ | ⟨v, _ | ⟨e₃, rest⟩⟩⟩⟩⟩⟩
  case cons.cons.cons.cons.cons.nil =>
    obtain ⟨tag₁, htag₁, h⟩ := except_bind_eq_ok.mp h
    obtain ⟨_, hint, h⟩ := except_bind_eq_ok.mp h
    obtain ⟨value₁, hvalue₁, h⟩ := except_bind_eq_ok.mp h
    obtain ⟨keyLen, hkeyLen, h⟩ := except_bind_eq_ok.mp h
    obtain ⟨tag₂, htag₂, h⟩ := except_bind_eq_ok.mp h
    obtain ⟨_, hbytes, h⟩ := except_bind_eq_ok.mp h
    obtain ⟨value₂, hvalue₂, h⟩ := except_bind_eq_ok.mp h
    obtain ⟨key, hkey, h⟩ := except_bind_eq_ok.mp h
    obtain ⟨child0, h₀, h⟩ := except_bind_eq_ok.mp h
    obtain ⟨child1, h₁, h⟩ := except_bind_eq_ok.mp h
    obtain ⟨value, hvalue, h⟩ := except_bind_eq_ok.mp h
    obtain rfl := Except.ok.inj h
    obtain ⟨child0', h₀', hid₀⟩ := readChild_held held' h₀
    obtain ⟨child1', h₁', hid₁⟩ := readChild_held held' h₁
    obtain ⟨value', hvalue', hids⟩ := readValue_held held' hvalue
    refine ⟨⟨keyLen, key, value', child0', child1'⟩, ?_, ⟨rfl, rfl, hid₀, hid₁, hids⟩⟩
    rw [radixNodeLocalOf, htag₁, py_ok_bind, hint, py_ok_bind, hvalue₁, py_ok_bind, hkeyLen,
      py_ok_bind, htag₂, py_ok_bind, hbytes, py_ok_bind, hvalue₂, py_ok_bind, hkey, py_ok_bind,
      h₀', py_ok_bind, h₁', py_ok_bind, hvalue']
    rfl
  all_goals cases h

theorem valueExprs_returns {found : Option RadixNodeCells}
    (h : ∀ v rule, found.bind RadixNodeCells.value = some v → valueRule = some rule →
      ∃ out, walkShape node rule (v.pointer node.blake3).id = .ok out) :
    ∃ values, valueExprs node found valueRule = .ok values := by
  rcases hv : found.bind RadixNodeCells.value with - | v
  · exact ⟨[], by simp only [valueExprs, hv]; rfl⟩
  · rcases valueRule with - | rule
    · exact ⟨[], by simp only [valueExprs, hv]; rfl⟩
    · obtain ⟨out, hout⟩ := h v rule hv rfl
      exact ⟨out.1, by simp only [valueExprs, hv, hout]; rfl⟩

theorem mem_childEntries {n : RadixNodeCells} {block : Option Bytes} {p : RadixEntry} :
    p ∈ childEntries followRefs block n ↔ ∃ q : Pointer, (n.child0 = some q ∨ n.child1 = some q) ∧
      q.id ≠ [] ∧ q.id ≠ zero32 ∧ (followRefs = true ∨ q.block = block) ∧ p = (q.id, q.block) := by
  rw [childEntries, List.mem_map]
  refine exists_congr fun q => ?_
  rw [List.mem_filter, List.reduceOption_mem_iff, decide_eq_true_eq, List.mem_cons,
    List.mem_singleton]
  constructor
  · rintro ⟨⟨hchild, hne, hzero, hfollow⟩, rfl⟩
    exact ⟨hchild.imp Eq.symm Eq.symm, hne, hzero, hfollow, rfl⟩
  · rintro ⟨hchild, hne, hzero, hfollow, rfl⟩
    exact ⟨⟨hchild.imp Eq.symm Eq.symm, hne, hzero, hfollow⟩, rfl⟩

/-- What is below an entry, with the reading of it. -/
theorem mem_entered {p : RadixEntry} (h : p ∈ entered node followRefs entry) :
    ∃ n, getRadixNodeLocal node entry.2 entry.1 = .ok n ∧
      p ∈ childEntries followRefs entry.2 n := by
  rw [entered] at h
  split at h
  · rename_i n hn
    exact ⟨n, hn, h⟩
  · cases h

theorem entered_eq {n : RadixNodeCells} (h : getRadixNodeLocal node entry.2 entry.1 = .ok n) :
    entered node followRefs entry = childEntries followRefs entry.2 n := by
  rw [entered, h]

/-- A walk that does not follow refs stays in the block. -/
theorem block_of_steps {start : RadixEntry} {n : Nat} {p : RadixEntry}
    (h : BreadthFirst.Steps (entered node false) start n p) : p.2 = start.2 := by
  induction h with
  | zero => rfl
  | succ _ hy ih =>
    obtain ⟨r, -, hchild⟩ := mem_entered hy
    obtain ⟨q, -, -, -, hblock, rfl⟩ := mem_childEntries.mp hchild
    exact (hblock.resolve_left (by simp)).trans ih

/-- Two entries with one hash have the same hashes below. -/
theorem entered_keys {start p q : RadixEntry}
    (hp : ∃ n, BreadthFirst.Steps (entered node followRefs) start n p)
    (hq : ∃ n, BreadthFirst.Steps (entered node followRefs) start n q) (hpq : p.1 = q.1) :
    ∀ c ∈ entered node followRefs p, ∃ c' ∈ entered node followRefs q, c'.1 = c.1 := by
  intro c hc
  cases followRefs with
  | false =>
    obtain ⟨n, hp⟩ := hp
    obtain ⟨m, hq⟩ := hq
    have hsame : p = q := Prod.ext hpq ((block_of_steps hp).trans (block_of_steps hq).symm)
    exact ⟨c, hsame ▸ hc, rfl⟩
  | true =>
    obtain ⟨r, hread, hchild⟩ := mem_entered hc
    obtain ⟨c₀, hc₀, hne, hzero, -, rfl⟩ := mem_childEntries.mp hchild
    rw [hpq] at hread
    obtain ⟨r', hread', halike⟩ := getRadixNode_underBlock q.2 hread
    rw [entered_eq hread']
    obtain ⟨c₁, hc₁, hid⟩ := halike.symm.child_of hc₀
    exact ⟨(c₁.id, c₁.block), mem_childEntries.mpr ⟨c₁, hc₁, hid ▸ hne, hid ▸ hzero, .inl rfl, rfl⟩,
      hid⟩

end Entries

section Running

variable {node : Node} {valueRule : Option ShapeRule} {followRefs : Bool} {budget : Option Nat}
  {start : RadixEntry} {done queue : List (RadixEntry × Nat)} {p : RadixEntry × Nat}
  {seen bound : List Bytes} {found group : Dict Bytes Expr} {missing : List RadixEntry}
  {used : Nat} {es : List Expr}

theorem Collected.init (node : Node) (valueRule : Option ShapeRule) (followRefs : Bool)
    (budget : Option Nat) (start : RadixEntry) :
    Collected node valueRule followRefs budget start [] [(start, 0)] [start.1] .empty [] 0 where
  search := .init start
  head := rfl
  begun := fun _ => rfl
  queued := fun k => Iff.rfl
  sends := fun x e => by simp
  missed := rfl
  size := rfl
  within := fun b _ => .inl (Nat.zero_le b)
  first := fun h => absurd rfl h
  empty := fun _ => .inl rfl

/-- What a step that is not cut preserves. -/
theorem Collected.step (hkeeps : node.KeepsCells)
    (h : Collected node valueRule followRefs budget start done (p :: queue) seen found missing used)
    (hes : ∀ e, e ∈ es ↔ ∃ x, node.stored x = some e ∧ EntrySends node valueRule p.1 x)
    (hgroup : groupOf node found es .empty = .ok group)
    (hfits : ¬(budget.any fun b =>
      decide (found.pairs ≠ [] ∧ b < used + groupSize node group)) = true) :
    Collected node valueRule followRefs budget start (done ++ [p])
      (queue ++ (BreadthFirst.fresh Prod.fst seen (entered node followRefs p.1)).map
        fun y => (y, p.2 + 1))
      (seen ++ (BreadthFirst.fresh Prod.fst seen (entered node followRefs p.1)).map Prod.fst)
      (found.putAll group) (missing ++ if isMissing node p.1 then [p.1] else [])
      (used + groupSize node group) := by
  have hstored : ∀ e ∈ es, ∃ x, node.stored x = some e := fun e he => by
    obtain ⟨x, hx, -⟩ := (hes e).mp he
    exact ⟨x, hx⟩
  have hmem : ∀ x e, group.get? x = some e ↔
      node.stored x = some e ∧ EntrySends node valueRule p.1 x ∧ x ∉ found.keys := by
    intro x e
    rw [groupOf_spec hkeeps hstored hgroup x e (fun e' he' => by cases he')]
    constructor
    · rintro (he | ⟨he, hx, hnot⟩)
      · cases he
      · obtain ⟨y, hy, hsends⟩ := (hes e).mp he
        have hxy : x = y := by rw [← hkeeps.hash _ _ hx, hkeeps.hash _ _ hy]
        exact ⟨hx, hxy ▸ hsends, hnot⟩
    · rintro ⟨hx, hsends, hnot⟩
      exact .inr ⟨(hes e).mpr ⟨x, hx, hsends⟩, hx, hnot⟩
  have hnew : ∀ k ∈ group.keys, k ∉ found.keys := by
    intro k hk
    obtain ⟨q, hq, rfl⟩ := List.mem_map.mp hk
    exact ((hmem q.1 q.2).mp (Dict.get?_eq_some.mpr hq)).2.2
  have hpairs : (found.putAll group).pairs = found.pairs ++ group.pairs := Dict.pairs_putAll hnew
  have hlist : ∀ new : List (RadixEntry × Nat),
      done ++ [p] ++ (queue ++ new) = (done ++ p :: queue) ++ new := fun new => by simp
  have hsends : ∀ x e, (found.putAll group).get? x = some e ↔
      node.stored x = some e ∧ ∃ q ∈ done ++ [p], EntrySends node valueRule q.1 x := by
    intro x e
    rw [Dict.get?_putAll, Option.or_eq_some_iff]
    constructor
    · rintro (hin | ⟨-, hin⟩)
      · obtain ⟨hx, hsent, -⟩ := (hmem x e).mp hin
        exact ⟨hx, p, List.mem_append_right _ (List.mem_singleton_self p), hsent⟩
      · obtain ⟨hx, q, hq, hsent⟩ := (h.sends x e).mp hin
        exact ⟨hx, q, List.mem_append_left _ hq, hsent⟩
    · rintro ⟨hx, q, hq, hsent⟩
      by_cases hin : x ∈ found.keys
      · obtain ⟨e', he'⟩ := Option.ne_none_iff_exists'.mp
          (mt Dict.get?_eq_none.mp (not_not.mpr hin))
        have hx' := ((h.sends x e').mp he').1
        rw [hx] at hx'
        obtain rfl := Option.some.inj hx'
        refine .inr ⟨Dict.get?_eq_none.mpr fun hk => hnew x hk hin, he'⟩
      · rcases List.mem_append.mp hq with hq | hq
        · have hk := (h.sends x e).mpr ⟨hx, q, hq, hsent⟩
          have hnone := Dict.get?_eq_none.mpr hin
          rw [hnone] at hk
          cases hk
        · obtain rfl := List.mem_singleton.mp hq
          exact .inl ((hmem x e).mpr ⟨hx, hsent, hin⟩)
  have hbegun : found.pairs = [] → done = [] ∧ p = (start, 0) ∧ queue = [] := by
    intro hnil
    have hdone := (h.empty hnil).resolve_right (List.cons_ne_nil p queue)
    obtain ⟨rfl, rfl⟩ := List.cons.inj (h.begun hdone)
    exact ⟨hdone, rfl, rfl⟩
  refine ⟨h.search.step seen h.queued, ?_, fun hnil => ?_, fun k => ?_, hsends, ?_, ?_, ?_, ?_, ?_⟩
  · rw [hlist, List.head?_append, h.head]
    rfl
  · exact absurd hnil (by simp)
  · have hkeys : ∀ new : List RadixEntry,
        (new.map fun y => (y, p.2 + 1)).map (fun q => q.1.1) = new.map Prod.fst := fun new => by
      rw [List.map_map]
      rfl
    rw [hlist, List.mem_append, h.queued, ← hkeys, ← List.mem_append, ← List.map_append]
  · rw [h.missed, List.map_append, List.filter_append, List.map_singleton]
    cases hp : isMissing node p.1 <;> simp [hp]
  · rw [groupSize_putAll hnew, h.size]
  · intro b hb
    rw [hb] at hfits
    by_cases hle : used + groupSize node group ≤ b
    · exact .inl hle
    · refine .inr ?_
      have hnil : found.pairs = [] := by
        by_contra hne
        exact hfits (decide_eq_true ⟨hne, by omega⟩)
      obtain ⟨rfl, rfl, -⟩ := hbegun hnil
      exact List.Subset.refl _
  · intro _
    by_cases hdone : done = []
    · have hnil : found.pairs = [] := Dict.pairs_eq_nil fun x e he => by
        obtain ⟨-, q, hq, -⟩ := (h.sends x e).mp he
        rw [hdone] at hq
        cases hq
      obtain ⟨-, rfl, -⟩ := hbegun hnil
      refine ⟨group.pairs.map Prod.snd, by rw [hpairs, hnil]; exact List.prefix_rfl, fun e => ?_⟩
      constructor
      · intro he
        obtain ⟨q, hq, rfl⟩ := List.mem_map.mp he
        obtain ⟨hx, hsent, -⟩ := (hmem q.1 q.2).mp (Dict.get?_eq_some.mpr hq)
        exact ⟨q.1, hx, hsent⟩
      · rintro ⟨x, hx, hsent⟩
        have hnot : x ∉ found.keys := by
          rw [Dict.keys, hnil]
          exact List.not_mem_nil
        have hin := (hmem x e).mpr ⟨hx, hsent, hnot⟩
        exact List.mem_map.mpr ⟨(x, e), Dict.get?_eq_some.mp hin, rfl⟩
    · obtain ⟨firsts, hprefix, hfirsts⟩ := h.first hdone
      refine ⟨firsts, hprefix.trans ?_, hfirsts⟩
      rw [hpairs, List.map_append]
      exact List.prefix_append _ _
  · intro hnil
    refine .inr ?_
    rw [hpairs, List.append_eq_nil_iff] at hnil
    obtain ⟨rfl, rfl, rfl⟩ := hbegun hnil.1
    have hunread : entered node followRefs start = [] := by
      rw [entered]
      split
      · rename_i n hn
        have hroot : ∃ e, node.stored start.1 = some e ∧
            EntrySends node valueRule start start.1 := root_sent hkeeps hn
        obtain ⟨e, he, hsent⟩ := hroot
        have hin := (hsends start.1 e).mpr
          ⟨he, _, List.mem_append_right _ (List.mem_singleton_self _), hsent⟩
        have hpair := Dict.get?_eq_some.mp hin
        rw [hpairs, hnil.1, hnil.2] at hpair
        cases hpair
      · rfl
    rw [hunread]
    rfl

/-- The loop ends with everything collected, or where the budget ends. -/
theorem collectFrom_returns (hkeeps : node.KeepsCells)
    (hwalk : Walkable node valueRule followRefs start bound) {fuel : Nat}
    (h : Collected node valueRule followRefs budget start done queue seen found missing used)
    (hfuel : bound.length ≤ fuel + done.length) :
    ∃ found' missing' done' queue' seen' used',
      collectFrom node valueRule followRefs budget fuel (queue.map Prod.fst) seen found missing used
        = .ok (found', missing') ∧
      Collected node valueRule followRefs budget start done' queue' seen' found' missing' used' ∧
      done' ≠ [] ∧ (budget = none → queue' = []) := by
  induction fuel generalizing done queue seen found missing used with
  | zero =>
    cases queue with
    | nil =>
      refine ⟨found, missing, done, [], seen, used, rfl, h, ?_, fun _ => rfl⟩
      rintro rfl
      cases h.begun rfl
    | cons p queue =>
      have hle := h.search.length_le hwalk.bounded
      rw [List.length_append, List.length_cons] at hle
      omega
  | succ fuel ih =>
    cases queue with
    | nil =>
      refine ⟨found, missing, done, [], seen, used, rfl, h, ?_, fun _ => rfl⟩
      rintro rfl
      cases h.begun rfl
    | cons p queue =>
      have hreached := h.search.steps p (List.mem_append_right _ List.mem_cons_self)
      obtain ⟨current, hcurrent⟩ := hwalk.reads _ _ hreached
      obtain ⟨⟨nodeExprs, missedExprs⟩, hwalked⟩ := hwalk.walks _ _ hreached
      obtain ⟨values, hvalues⟩ : ∃ values, valueExprs node current valueRule = .ok values := by
        refine valueExprs_returns fun v rule hv hrule => ?_
        obtain ⟨n, rfl, hv⟩ := Option.bind_eq_some_iff.mp hv
        exact hwalk.values _ _ n v rule hreached (heldNode_some.mp hcurrent) hv hrule
      have hes := mem_entryExprs hcurrent hwalked hvalues
      have hstored : ∀ e ∈ nodeExprs ++ values, ∃ x, node.stored x = some e := fun e he => by
        obtain ⟨x, hx, -⟩ := (hes e).mp he
        exact ⟨x, hx⟩
      obtain ⟨group, hgroup⟩ := groupOf_returns hkeeps hstored found .empty
      rw [List.map_cons, collectFrom, hcurrent, py_ok_bind, hwalked, py_ok_bind]
      dsimp only
      rw [hvalues, py_ok_bind, hgroup, py_ok_bind]
      by_cases hcut : (budget.any fun b =>
          decide (found.pairs ≠ [] ∧ b < used + groupSize node group)) = true
      · refine ⟨found, missing, done, p :: queue, seen, used, by rw [if_pos hcut]; rfl, h, ?_, ?_⟩
        · obtain ⟨b, -, hover⟩ := (Option.any_eq_true _ _).mp hcut
          rintro rfl
          refine (of_decide_eq_true hover).1 (Dict.pairs_eq_nil fun x e he => ?_)
          obtain ⟨-, q, hq, -⟩ := (h.sends x e).mp he
          cases hq
        · rintro rfl
          cases hcut
      · have hstep := h.step hkeeps hes hgroup hcut
        obtain ⟨found', missing', done', queue', seen', used', hrun, hrest⟩ := ih hstep (by
          rw [List.length_append, List.length_singleton]
          omega)
        refine ⟨found', missing', done', queue', seen', used', ?_, hrest⟩
        have hqueue : ∀ new : List RadixEntry,
            (queue ++ new.map fun y => (y, p.2 + 1)).map Prod.fst = queue.map Prod.fst ++ new := by
          intro new
          rw [List.map_append, List.map_map]
          exact congrArg _ (List.map_id new)
        rw [if_neg hcut, ← hrun, hqueue]
        rcases current with - | n
        · have herror := heldNode_none hcurrent
          have hnone : entered node followRefs p.1 = [] := by rw [entered, herror]
          have hmissing : isMissing node p.1 = true := by rw [isMissing, herror]
          rw [hnone, hmissing, if_pos rfl, BreadthFirst.fresh, List.append_nil, List.map_nil,
            List.append_nil]
        · have hread := heldNode_some.mp hcurrent
          have hmissing : isMissing node p.1 = false := by rw [isMissing, hread]
          rw [entered_eq hread, hmissing, if_neg (by simp), List.append_nil]

theorem Collected.paged (hkeeps : node.KeepsCells)
    (hwalk : Walkable node valueRule followRefs start bound)
    (h : Collected node valueRule followRefs budget start done queue seen found missing used)
    (hdone : done ≠ []) (hwhole : budget = none → queue = []) :
    Paged node valueRule followRefs budget start (found.pairs.map Prod.snd) missing
      (done.map Prod.fst) := by
  have hkey := fun p q => @entered_keys node followRefs start p q
  have hstored : ∀ q ∈ found.pairs, node.stored q.1 = some q.2 := fun q hq =>
    ((h.sends q.1 q.2).mp (Dict.get?_eq_some.mpr hq)).1
  have hhead : (done.map Prod.fst).head? = some start := by
    have hfirst := h.head
    rw [List.head?_append_of_ne_nil done hdone] at hfirst
    rw [List.head?_map, hfirst]
    rfl
  refine ⟨h.search.exists_order hkey hwalk.bounded, fun hnone => ?_, hhead, fun e => ?_, ?_,
    h.first hdone, fun b hb => ?_, h.missed⟩
  · obtain rfl := hwhole hnone
    exact h.search.order hkey
  · constructor
    · intro he
      obtain ⟨q, hq, rfl⟩ := List.mem_map.mp he
      obtain ⟨hx, p, hp, hsent⟩ := (h.sends q.1 q.2).mp (Dict.get?_eq_some.mpr hq)
      exact ⟨p.1, List.mem_map_of_mem hp, q.1, hx, hsent⟩
    · rintro ⟨p, hp, x, hx, hsent⟩
      obtain ⟨q, hq, rfl⟩ := List.mem_map.mp hp
      have hin := (h.sends x e).mpr ⟨hx, q, hq, hsent⟩
      exact List.mem_map.mpr ⟨(x, e), Dict.get?_eq_some.mp hin, rfl⟩
  · have hkeys : (found.pairs.map Prod.snd).map node.hash = found.pairs.map Prod.fst := by
      rw [List.map_map]
      exact List.map_congr_left fun q hq => hkeeps.hash _ _ (hstored q hq)
    rw [hkeys]
    exact found.nodup
  · have hsize : ((found.pairs.map Prod.snd).map fun e =>
        4 + (encodeExprToBytes node.blake3 e).length).sum = used := by
      rw [h.size, groupSize, List.map_map]
      rfl
    rw [hsize]
    refine (h.within b hb).imp_right fun hsub => ?_
    have honce : ((done.map Prod.fst).map Prod.fst).Nodup := by
      have honce := h.search.once
      rw [List.map_append] at honce
      rw [List.map_map]
      exact (List.nodup_append.mp honce).1
    cases hvisited : done.map Prod.fst with
    | nil => exact absurd (List.map_eq_nil_iff.mp hvisited) hdone
    | cons p rest =>
      rw [hvisited] at hhead hsub honce
      obtain rfl := Option.some.inj hhead
      cases rest with
      | nil => rfl
      | cons q rest =>
        have hq : q = p := List.mem_singleton.mp (hsub (List.mem_cons_of_mem _ List.mem_cons_self))
        rw [hq, List.map_cons, List.map_cons] at honce
        exact absurd List.mem_cons_self (List.nodup_cons.mp honce).1

/-- A run over entries that are bounded and can be walked returns. -/
theorem collectRadixAll_pages (hkeeps : node.KeepsCells) {root valueShape : Bytes}
    {block : Option Bytes} (hshape : valueRuleOf valueShape = .ok valueRule)
    (hwalk : Walkable node valueRule followRefs (root, block) bound)
    (hfuel : bound.length ≤ node.fuel) (budget : Option Nat) :
    ∃ exprs missing visited,
      collectRadixAll node root block valueShape followRefs budget = .ok (exprs, missing) ∧
      Paged node valueRule followRefs budget (root, block) exprs missing visited := by
  obtain ⟨found, missing, done, queue, seen, used, hrun, hcollected, hdone, hwhole⟩ :=
    collectFrom_returns hkeeps hwalk (.init node valueRule followRefs budget (root, block))
      (show bound.length ≤ node.fuel + 0 from hfuel)
  refine ⟨_, missing, _, ?_, hcollected.paged hkeeps hwalk hdone hwhole⟩
  have hrun' : collectFrom node valueRule followRefs budget node.fuel [(root, block)] [root]
      .empty [] 0 = .ok (found, missing) := hrun
  rw [collectRadixAll, hshape, py_ok_bind, hrun']
  rfl

end Running

end Astreum
