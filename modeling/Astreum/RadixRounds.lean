import Astreum.RadixPaging

namespace Astreum

section Rounds

variable (node : Node)

/-- The answer to a request for all nodes below a hash, with the exprs of the nodes of one block. -/
def serveRadixAll (budget : Nat) (valueShape exprId : Bytes) : Py (List Expr) :=
  match node.stored exprId with
  | none => .ok []
  | some _ => do
    let (exprs, _) ← collectRadixAll node exprId none valueShape false (some budget)
    return exprs

/-- The answers to the requests of one round. -/
def serveRound (budget : Nat) (valueShape : Bytes) : List RadixEntry → Py (List Expr)
  | [] => .ok []
  | entry :: entries => do
    let exprs ← serveRadixAll node budget valueShape entry.1
    let rest ← serveRound budget valueShape entries
    return exprs ++ rest

/-- The loop of `get_radix_all_from_network`, by a reader that has the exprs `held` and asks the
node. A request of a round is queued where it has a destination, and answered in the round. -/
def roundsFrom (budget : Nat) (valueShape : Bytes) (queues : Nat → RadixEntry → Bool)
    (root : Bytes) (block : Option Bytes) (followRefs : Bool) :
    Nat → Nat → List Expr → Option (List RadixEntry) → Bool → Py (Bool × List Expr)
  | 0, _, _, _, _ => .error .outOfFuel
  | fuel + 1, round, held, last, confirmed => do
    let (_, missing) ← collectRadixAll (node.storing held) root block [] followRefs none
    if missing = [] then return (true, held)
    if some missing = last then
      if confirmed then return (false, held)
      roundsFrom budget valueShape queues root block followRefs fuel round held last true
    else
      let queued := missing.filter (queues round)
      if queued = [] then return (false, held)
      let replies ← serveRound node budget valueShape queued
      roundsFrom budget valueShape queues root block followRefs fuel (round + 1) (held ++ replies)
        (some missing) false

def getRadixAllFromNetwork (budget : Nat) (valueShape : Bytes) (queues : Nat → RadixEntry → Bool)
    (root : Bytes) (block : Option Bytes) (followRefs : Bool) (fuel : Nat) (held : List Expr) :
    Py (Bool × List Expr) :=
  roundsFrom node budget valueShape queues root block followRefs fuel 0 held none false

end Rounds

section Trees

/-- The nodes of a tree. -/
inductive Below (node : Node) : Bytes → Bytes → Prop
  | self {h : Bytes} : Below node h h
  | child {h x : Bytes} {r : RadixNodeCells} {p : Pointer} (hbelow : Below node h x)
      (hread : getRadixNodeLocal node none x = .ok r)
      (hchild : r.child0 = some p ∨ r.child1 = some p) : Below node h p.id

variable (node : Node) (root : Bytes) (valueRule : Option ShapeRule)

/-- There is fuel for every walk of the tree. -/
structure EnoughFuel : Prop where
  list : 5 < node.fuel
  nodes : ∃ bound : List Bytes, bound.length ≤ node.fuel ∧ ∀ x, Below node root x → x ∈ bound
  walks : ∀ x, Below node root x → ∃ out, walkShape node radixNodeRule x = .ok out
  values : ∀ x r v rule, Below node root x → getRadixNodeLocal node none x = .ok r →
    r.value = some v → valueRule = some rule →
    ∃ out, walkShape node rule (v.pointer node.blake3).id = .ok out

/-- The cell of every value is known, or sent with its node. A value that is written as a stored ref
names a cell that the node rule does not reach from the ref. -/
def ValuesSent : Prop :=
  ∀ x r v, Below node root x → getRadixNodeLocal node none x = .ok r → r.value = some v →
    KnownHash node (v.pointer node.blake3).id ∨
      EntrySends node valueRule (x, none) (v.pointer node.blake3).id

end Trees

section Parts

variable {node : Node} {kept : Bytes → Bool} {root x y : Bytes} {valueRule : Option ShapeRule}
  {followRefs : Bool} {start : RadixEntry}

theorem Below.trans (hx : Below node root x) (hy : Below node x y) : Below node root y := by
  induction hy with
  | self => exact hx
  | child _ hread hchild ih => exact .child ih hread hchild

theorem HeldTree.at_below (hheld : HeldTree node root) (h : Below node root x) :
    HeldTree node x := by
  induction h with
  | self => exact hheld
  | child _ hread hchild ih =>
    obtain ⟨hholds, hhash, hread', hbelow⟩ := ih
    rw [hread] at hread'
    obtain rfl := Except.ok.inj hread'
    exact hbelow _ hchild

theorem EnoughFuel.below (hfuel : EnoughFuel node root valueRule) (h : Below node root x) :
    EnoughFuel node x valueRule where
  list := hfuel.list
  nodes := by
    obtain ⟨bound, hlength, hbound⟩ := hfuel.nodes
    exact ⟨bound, hlength, fun y hy => hbound y (h.trans hy)⟩
  walks := fun y hy => hfuel.walks y (h.trans hy)
  values := fun y r v rule hy => hfuel.values y r v rule (h.trans hy)

/-- A node of a tree is read under every block, and a part reads it so or does not hold it. -/
theorem HeldTree.read (hkeeps : node.KeepsCells) (hfuel : 5 < node.fuel) (hheld : HeldTree node x)
    (kept : Bytes → Bool) (held : Option Bytes) :
    ∃ r, getRadixNodeLocal node held x = .ok r ∧
      Lags (getRadixNodeLocal (node.keeping kept) held x) (.ok r) := by
  obtain ⟨hholds, rfl, hread, -⟩ := hheld
  obtain ⟨r, hr, -⟩ := getRadixNode_underBlock held hread
  refine ⟨r, hr, ?_⟩
  have hlags : Lags (getRadixNodeLocal (node.keeping kept) held _) _ :=
    lags_getRadixNodeLocal hkeeps hholds hfuel hr
  rwa [hr] at hlags

/-- What a part reads is what the whole reads. -/
theorem HeldTree.read_eq (hkeeps : node.KeepsCells) (hfuel : 5 < node.fuel)
    (hheld : HeldTree node x) {held : Option Bytes} {r : RadixNodeCells}
    (h : getRadixNodeLocal (node.keeping kept) held x = .ok r) :
    getRadixNodeLocal node held x = .ok r := by
  obtain ⟨r', hr', hlags⟩ := hheld.read hkeeps hfuel kept held
  rw [hr', Except.ok.inj (hlags.eq_ok h)]

/-- The entries that a walk over a part comes to are nodes of the tree. -/
theorem below_of_steps (hkeeps : node.KeepsCells) (hfuel : 5 < node.fuel)
    (hheld : HeldTree node start.1) {n : Nat} {p : RadixEntry}
    (h : BreadthFirst.Steps (entered (node.keeping kept) followRefs) start n p) :
    Below node start.1 p.1 := by
  induction h with
  | zero => exact .self
  | @succ n z p hz hp ih =>
    obtain ⟨r, hread, hchild⟩ := mem_entered hp
    obtain ⟨c, hc, -, -, -, rfl⟩ := mem_childEntries.mp hchild
    have hread' := (hheld.at_below ih).read_eq hkeeps hfuel hread
    obtain ⟨r₀, hread₀, halike⟩ := getRadixNode_underBlock none hread'
    obtain ⟨c₀, hc₀, hid⟩ := halike.symm.child_of hc
    exact hid ▸ .child ih hread₀ hc₀

theorem walkable_keeping (hkeeps : node.KeepsCells) (hheld : HeldTree node start.1)
    (hfuel : EnoughFuel node start.1 valueRule) {bound : List Bytes}
    (hbound : ∀ x, Below node start.1 x → x ∈ bound) (kept : Bytes → Bool) (followRefs : Bool) :
    Walkable (node.keeping kept) valueRule followRefs start bound where
  bounded := fun n p hp => hbound _ (below_of_steps hkeeps hfuel.list hheld hp)
  reads := fun n p hp => by
    have hbelow := below_of_steps hkeeps hfuel.list hheld hp
    obtain ⟨r, -, hlags⟩ := (hheld.at_below hbelow).read hkeeps hfuel.list kept p.2
    rcases hlags with hr | hr
    · exact ⟨some r, by rw [heldNode, hr]⟩
    · exact ⟨none, by rw [heldNode, hr]⟩
  walks := fun n p hp => by
    obtain ⟨out, hout⟩ := hfuel.walks _ (below_of_steps hkeeps hfuel.list hheld hp)
    exact walkShape_keeping hout
  values := fun n p r v rule hp hread hv hrule => by
    have hbelow := below_of_steps hkeeps hfuel.list hheld hp
    have hread' := (hheld.at_below hbelow).read_eq hkeeps hfuel.list hread
    obtain ⟨r₀, hread₀, halike⟩ := getRadixNode_underBlock none hread'
    obtain ⟨v₀, hv₀, hid⟩ := halike.symm.value_of hv
    obtain ⟨out, hout⟩ := hfuel.values _ r₀ v₀ rule hbelow hread₀ hv₀ hrule
    rw [hid] at hout
    exact walkShape_keeping hout

end Parts

section AnswersFor

variable (node : Node) (valueRule : Option ShapeRule)

/-- The exprs hold all that is sent for a node. -/
def AnswersFor (exprs : List Expr) (h : Bytes) : Prop :=
  ∀ x e, EntrySends node valueRule (h, none) x → node.stored x = some e → e ∈ exprs

/-- A reader with the exprs reads every node that the walk comes to as the provider does. -/
def ReadsAll (followRefs : Bool) (start : RadixEntry) (exprs : List Expr) : Prop :=
  ∀ n p, BreadthFirst.Steps (entered node followRefs) start n p →
    ∃ r, getRadixNodeLocal node p.2 p.1 = .ok r ∧
      getRadixNodeLocal (node.storing exprs) p.2 p.1 = .ok r

end AnswersFor

section Replies

variable {node : Node} {valueRule : Option ShapeRule} {exprs held : List Expr}
  {root h valueShape : Bytes} {budget : Nat}

/-- What a reader holds that has exprs of the provider. -/
def heldHashes (node : Node) (exprs : List Expr) (x : Bytes) : Prop :=
  ∃ e ∈ exprs, node.stored x = some e

theorem delivers_heldHashes (hexprs : ∀ e ∈ exprs, ∃ x, node.stored x = some e) :
    Delivers node exprs (heldHashes node exprs) := by
  intro e
  constructor
  · intro he
    obtain ⟨x, hx⟩ := hexprs e he
    exact ⟨x, hx, e, he, hx⟩
  · rintro ⟨x, hx, e', he', hx'⟩
    rw [hx] at hx'
    exact (Option.some.inj hx') ▸ he'

/-- The reader is a part of the provider. -/
theorem storing_eq_keeping (hkeeps : node.KeepsCells)
    (hexprs : ∀ e ∈ exprs, ∃ x, node.stored x = some e) :
    node.storing exprs = node.keeping fun x => ((node.storing exprs).stored x).isSome := by
  have hstored : (node.storing exprs).stored =
      fun x => if ((node.storing exprs).stored x).isSome then node.stored x else none := by
    funext x
    rcases hx : (node.storing exprs).stored x with - | e
    · rfl
    · exact (((stored_storing hkeeps (delivers_heldHashes hexprs) x e).mp hx).2).symm
  exact congrArg (fun f => { node with stored := f }) hstored

theorem AnswersFor.mono (hanswers : AnswersFor node valueRule exprs h) (hsub : exprs ⊆ held) :
    AnswersFor node valueRule held h :=
  fun x e hsent hx => hsub (hanswers x e hsent hx)

/-- A node that was answered is read by the reader. -/
theorem read_of_answers (hkeeps : node.KeepsCells) (hfuel : 5 < node.fuel)
    (hheld : HeldTree node root) (hvalues : ValuesSent node root valueRule)
    (hexprs : ∀ e ∈ exprs, ∃ x, node.stored x = some e) (hbelow : Below node root h)
    (hanswers : AnswersFor node valueRule exprs h) {block : Option Bytes} {r : RadixNodeCells}
    (hread : getRadixNodeLocal node block h = .ok r) :
    getRadixNodeLocal (node.storing exprs) block h = .ok r := by
  have hsends := delivers_heldHashes hexprs
  have hsent : ∀ x, EntrySends node valueRule (h, none) x → (∃ e, node.stored x = some e) →
      heldHashes node exprs x := by
    rintro x hx ⟨e, he⟩
    exact ⟨e, hanswers x e hx he, he⟩
  have hwalked : Walked node (heldHashes node exprs) radixNodeRule h := fun x hreach =>
    hsent x (.inl hreach) hreach.stored.2
  obtain ⟨r₀, hread₀, halike⟩ := getRadixNode_underBlock none hread
  have hvalue : ∀ v, r.value = some v → Agrees node exprs (v.pointer node.blake3).id := by
    intro v hv
    obtain ⟨v₀, hv₀, hid⟩ := halike.symm.value_of hv
    rw [← hid]
    rcases hvalues h r₀ v₀ hbelow hread₀ hv₀ with hknown | hreached
    · exact agrees_of_known hkeeps hsends hknown
    · refine agrees_of_sent hkeeps hsends (hsent _ hreached ?_)
      rcases hreached with hreach | ⟨_, _, _, _, _, _, hreach⟩
      · exact hreach.stored.2
      · exact hreach.stored.2
  obtain ⟨hholds, rfl, -, -⟩ := hheld.at_below hbelow
  exact (getRadixNode_agrees hkeeps hsends hholds hfuel hwalked hread).mpr hvalue

/-- A request for a node that is held in full is answered with all that is sent for it. -/
theorem serveRadixAll_answers (hkeeps : node.KeepsCells) (hheld : HeldTree node h)
    (hfuel : EnoughFuel node h valueRule) (hshape : valueRuleOf valueShape = .ok valueRule)
    (budget : Nat) : ∃ exprs, serveRadixAll node budget valueShape h = .ok exprs ∧
      (∀ e ∈ exprs, ∃ x, node.stored x = some e) ∧ AnswersFor node valueRule exprs h := by
  obtain ⟨bound, hlength, hbound⟩ := hfuel.nodes
  have hwalk : Walkable (node.keeping fun _ => true) valueRule false (h, none) bound :=
    walkable_keeping hkeeps hheld hfuel hbound (fun _ => true) false
  rw [keeping_true] at hwalk
  obtain ⟨exprs, missing, visited, hrun, hpaged⟩ :=
    collectRadixAll_pages hkeeps hshape hwalk hlength (some budget)
  obtain ⟨v, a, b, hroot⟩ := hheld.root_kept
  refine ⟨exprs, by rw [serveRadixAll, hroot, hrun]; rfl, fun e he => ?_, fun x e hsent hx => ?_⟩
  · obtain ⟨-, -, x, hx, -⟩ := (hpaged.sends e).mp he
    exact ⟨x, hx⟩
  · exact (hpaged.sends e).mpr ⟨_, List.mem_of_mem_head? hpaged.head, x, hx, hsent⟩

theorem serveRound_answers (hkeeps : node.KeepsCells)
    (hshape : valueRuleOf valueShape = .ok valueRule) (budget : Nat) {entries : List RadixEntry}
    (hheld : ∀ m ∈ entries, HeldTree node m.1 ∧ EnoughFuel node m.1 valueRule) :
    ∃ replies, serveRound node budget valueShape entries = .ok replies ∧
      (∀ e ∈ replies, ∃ x, node.stored x = some e) ∧
      ∀ m ∈ entries, AnswersFor node valueRule replies m.1 := by
  induction entries with
  | nil =>
    exact ⟨[], rfl, fun e he => absurd he List.not_mem_nil, fun m hm => absurd hm List.not_mem_nil⟩
  | cons m entries ih =>
    obtain ⟨hfirst, hfuel⟩ := hheld m List.mem_cons_self
    obtain ⟨exprs, hserve, hexprs, hanswers⟩ :=
      serveRadixAll_answers hkeeps hfirst hfuel hshape budget
    obtain ⟨rest, hrest, hstored, hothers⟩ := ih fun m hm => hheld m (List.mem_cons_of_mem _ hm)
    refine ⟨exprs ++ rest, by rw [serveRound, hserve, py_ok_bind, hrest]; rfl, fun e he => ?_,
      fun m' hm' => ?_⟩
    · rcases List.mem_append.mp he with he | he
      · exact hexprs e he
      · exact hstored e he
    · rcases List.mem_cons.mp hm' with rfl | hm'
      · exact hanswers.mono (List.subset_append_left _ _)
      · exact (hothers m' hm').mono (List.subset_append_right _ _)

end Replies

section Ending

variable {node : Node} {valueRule : Option ShapeRule} {root valueShape : Bytes}
  {block : Option Bytes} {followRefs : Bool}

theorem EnoughFuel.without (hfuel : EnoughFuel node root valueRule) :
    EnoughFuel node root none where
  list := hfuel.list
  nodes := hfuel.nodes
  walks := hfuel.walks
  values := fun _ _ _ _ _ _ _ h => by cases h

/-- What a reader with the exprs collects from the root on. -/
theorem reader_collects (hkeeps : node.KeepsCells) (hheld : HeldTree node root)
    (hfuel : EnoughFuel node root valueRule) {held : List Expr}
    (hstored : ∀ e ∈ held, ∃ x, node.stored x = some e) (block : Option Bytes) (followRefs : Bool) :
    ∃ exprs missing visited,
      collectRadixAll (node.storing held) root block [] followRefs none = .ok (exprs, missing) ∧
      Paged (node.storing held) none followRefs none (root, block) exprs missing visited ∧
      ∀ p ∈ visited, Below node root p.1 := by
  obtain ⟨bound, hlength, hbound⟩ := hfuel.nodes
  rw [storing_eq_keeping hkeeps hstored]
  have hwalk : Walkable (node.keeping fun x => ((node.storing held).stored x).isSome) none
      followRefs (root, block) bound :=
    walkable_keeping hkeeps hheld hfuel.without hbound _ followRefs
  have hshape : valueRuleOf [] = .ok none := rfl
  obtain ⟨exprs, missing, visited, hrun, hpaged⟩ :=
    collectRadixAll_pages (hkeeps.keeping _) hshape hwalk hlength none
  refine ⟨exprs, missing, visited, hrun, hpaged, fun p hp => ?_⟩
  obtain ⟨n, hn⟩ := (hpaged.whole rfl).reached p hp
  exact below_of_steps hkeeps hfuel.list hheld hn

/-- A reader that misses nothing reads all that the provider does. -/
theorem readsAll_of_nothing_missing (hkeeps : node.KeepsCells) (hfuel : 5 < node.fuel)
    (hheld : HeldTree node root) {held : List Expr}
    (hstored : ∀ e ∈ held, ∃ x, node.stored x = some e) {exprs : List Expr}
    {visited : List RadixEntry}
    (hpaged : Paged (node.storing held) none followRefs none (root, block) exprs [] visited) :
    ReadsAll node followRefs (root, block) held := by
  have hpart := storing_eq_keeping hkeeps hstored
  have hread : ∀ n p,
      BreadthFirst.Steps (entered (node.storing held) followRefs) (root, block) n p →
      ∃ r, getRadixNodeLocal node p.2 p.1 = .ok r ∧
        getRadixNodeLocal (node.storing held) p.2 p.1 = .ok r := by
    intro n p hp
    obtain ⟨q, hq, hqp⟩ := (hpaged.whole rfl).complete n p hp
    have hheldq : isMissing (node.storing held) q = false := by
      have hnone := List.filter_eq_nil_iff.mp hpaged.missed.symm q hq
      simpa using hnone
    obtain ⟨r, hr⟩ : ∃ r, getRadixNodeLocal (node.storing held) q.2 q.1 = .ok r := by
      rw [isMissing] at hheldq
      split at hheldq
      · rename_i r hr
        exact ⟨r, hr⟩
      · cases hheldq
    obtain ⟨r', hr', -⟩ := getRadixNode_underBlock p.2 hr
    rw [hqp] at hr'
    rw [hpart] at hp hr'
    have hbelow : Below node root p.1 := below_of_steps hkeeps hfuel hheld hp
    refine ⟨r', (hheld.at_below hbelow).read_eq hkeeps hfuel hr', ?_⟩
    rw [hpart]
    exact hr'
  intro n p hp
  have hsame : ∀ n p, BreadthFirst.Steps (entered node followRefs) (root, block) n p →
      BreadthFirst.Steps (entered (node.storing held) followRefs) (root, block) n p := by
    intro n p hp
    induction hp with
    | zero => exact .zero
    | succ _ hy ih =>
      obtain ⟨r, hr, hr'⟩ := hread _ _ ih
      refine .succ ih ?_
      rw [entered_eq hr']
      rw [entered_eq hr] at hy
      exact hy
  exact hread n p (hsame n p hp)

/-- The rounds end: each brings a node that was not answered before. -/
theorem roundsFrom_reads (hkeeps : node.KeepsCells) (hheld : HeldTree node root)
    (hfuel : EnoughFuel node root valueRule) (hshape : valueRuleOf valueShape = .ok valueRule)
    (hvalues : ValuesSent node root valueRule) {bound : List Bytes}
    (hbound : ∀ x, Below node root x → x ∈ bound) {budget : Nat}
    {queues : Nat → RadixEntry → Bool}
    (hqueues : ∀ round missing, missing ≠ [] → ∃ m ∈ missing, queues round m = true)
    {fuel round : Nat} {held : List Expr} {last : Option (List RadixEntry)} {confirmed : Bool}
    {answered : List Bytes} (hstored : ∀ e ∈ held, ∃ x, node.stored x = some e)
    (hanswered : ∀ h ∈ answered, Below node root h ∧ AnswersFor node valueRule held h)
    (hnodup : answered.Nodup) (hlast : ∀ m, last = some m → ∃ p ∈ m, p.1 ∈ answered)
    (hrounds : bound.length < fuel + answered.length) :
    ∃ held', roundsFrom node budget valueShape queues root block followRefs fuel round held last
        confirmed = .ok (true, held') ∧ ReadsAll node followRefs (root, block) held' := by
  induction fuel generalizing round held last confirmed answered with
  | zero =>
    have hsub : answered ⊆ bound := fun h hh => hbound h (hanswered h hh).1
    have hle := (List.subperm_of_subset hnodup hsub).length_le
    omega
  | succ fuel ih =>
    obtain ⟨exprs, missing, visited, hrun, hpaged, hbelow⟩ :=
      reader_collects hkeeps hheld hfuel hstored block followRefs
    by_cases hnil : missing = []
    · subst hnil
      refine ⟨held, ?_, readsAll_of_nothing_missing hkeeps hfuel.list hheld hstored hpaged⟩
      rw [roundsFrom, hrun, py_ok_bind]
      rfl
    have hmissing : ∀ m ∈ missing, Below node root m.1 ∧ m.1 ∉ answered := by
      intro m hm
      rw [hpaged.missed] at hm
      obtain ⟨hvisited, hunread⟩ := List.mem_filter.mp hm
      refine ⟨hbelow m hvisited, fun hin => ?_⟩
      obtain ⟨hbelowm, hanswers⟩ := hanswered _ hin
      obtain ⟨r, hr, -⟩ := (hheld.at_below hbelowm).read hkeeps hfuel.list (fun _ => true) m.2
      have hread := read_of_answers hkeeps hfuel.list hheld hvalues hstored hbelowm hanswers hr
      rw [isMissing, hread] at hunread
      cases hunread
    have hnew : some missing ≠ last := by
      intro heq
      obtain ⟨p, hp, hin⟩ := hlast missing heq.symm
      exact (hmissing p hp).2 hin
    obtain ⟨m, hm, hqueued⟩ := hqueues round missing hnil
    have hmem : m ∈ missing.filter (queues round) := List.mem_filter.mpr ⟨hm, hqueued⟩
    have hqueuedHeld : ∀ q ∈ missing.filter (queues round),
        HeldTree node q.1 ∧ EnoughFuel node q.1 valueRule := by
      intro q hq
      have hbelowq := (hmissing q (List.mem_filter.mp hq).1).1
      exact ⟨hheld.at_below hbelowq, hfuel.below hbelowq⟩
    obtain ⟨replies, hreplies, hrepliesStored, hanswers⟩ :=
      serveRound_answers hkeeps hshape budget hqueuedHeld
    have hstored' : ∀ e ∈ held ++ replies, ∃ x, node.stored x = some e := by
      intro e he
      rcases List.mem_append.mp he with he | he
      · exact hstored e he
      · exact hrepliesStored e he
    have hanswered' : ∀ h ∈ answered ++ [m.1],
        Below node root h ∧ AnswersFor node valueRule (held ++ replies) h := by
      intro h hh
      rcases List.mem_append.mp hh with hh | hh
      · obtain ⟨hb, ha⟩ := hanswered h hh
        exact ⟨hb, ha.mono (List.subset_append_left _ _)⟩
      · obtain rfl := List.mem_singleton.mp hh
        exact ⟨(hmissing m hm).1, (hanswers m hmem).mono (List.subset_append_right _ _)⟩
    have hnodup' : (answered ++ [m.1]).Nodup := by
      rw [← List.concat_eq_append]
      exact hnodup.concat (hmissing m hm).2
    have hlast' : ∀ l, some missing = some l → ∃ p ∈ l, p.1 ∈ answered ++ [m.1] := by
      rintro l hl
      exact ⟨m, Option.some.inj hl ▸ hm, List.mem_append_right _ (List.mem_singleton_self _)⟩
    have hrounds' : bound.length < fuel + (answered ++ [m.1]).length := by
      rw [List.length_append, List.length_singleton]
      omega
    obtain ⟨held', hrest, hreads⟩ :=
      @ih (round + 1) (held ++ replies) (some missing) false (answered ++ [m.1]) hstored'
        hanswered' hnodup' hlast' hrounds'
    refine ⟨held', ?_, hreads⟩
    rw [roundsFrom, hrun, py_ok_bind]
    dsimp only
    rw [if_neg hnil, if_neg hnew, if_neg (List.ne_nil_of_mem hmem), hreplies, py_ok_bind]
    exact hrest

/-- What is collected over a part of the storage begins the breadth-first order, and where the cell
of every value is sent, the rounds end with all nodes. -/
theorem paging_brings_the_tree (hkeeps : node.KeepsCells) (hheld : HeldTree node root)
    (hfuel : EnoughFuel node root valueRule) (hshape : valueRuleOf valueShape = .ok valueRule) :
    (∀ (kept : Bytes → Bool) (block : Option Bytes) (followRefs : Bool) (budget : Option Nat),
      ∃ exprs missing visited,
        collectRadixAll (node.keeping kept) root block valueShape followRefs budget
          = .ok (exprs, missing) ∧
        Paged (node.keeping kept) valueRule followRefs budget (root, block) exprs missing visited) ∧
    (ValuesSent node root valueRule → ∀ (block : Option Bytes) (followRefs : Bool) (budget : Nat)
      (queues : Nat → RadixEntry → Bool) (held : List Expr),
      (∀ round missing, missing ≠ [] → ∃ m ∈ missing, queues round m = true) →
      (∀ e ∈ held, ∃ x, node.stored x = some e) →
      ∃ rounds, ∀ fuel, rounds ≤ fuel → ∃ held',
        getRadixAllFromNetwork node budget valueShape queues root block followRefs fuel held
          = .ok (true, held') ∧ ReadsAll node followRefs (root, block) held') := by
  obtain ⟨bound, hlength, hbound⟩ := hfuel.nodes
  constructor
  · intro kept block followRefs budget
    have hwalk : Walkable (node.keeping kept) valueRule followRefs (root, block) bound :=
      walkable_keeping hkeeps hheld hfuel hbound kept followRefs
    exact collectRadixAll_pages (hkeeps.keeping kept) hshape hwalk hlength budget
  · intro hvalues block followRefs budget queues held hqueues hstored
    refine ⟨bound.length + 1, fun fuel hle => ?_⟩
    have hrounds : bound.length < fuel + ([] : List Bytes).length := hle
    exact roundsFrom_reads hkeeps hheld hfuel hshape hvalues hbound hqueues hstored
      (fun h hh => absurd hh List.not_mem_nil) List.nodup_nil (fun m hm => by cases hm) hrounds

end Ending

section Samples

/-- The value is sent as far as the ref goes. -/
example : (serveRadixAll refLeafNode 1 [] refLeafRoot).map List.length = .ok 14 := by decide +kernel

theorem refLeaf_below {x : Bytes} (h : Below refLeafNode refLeafRoot x) : x = refLeafRoot := by
  obtain ⟨r, hread, -, -, h₀, h₁, -⟩ := refLeaf_read
  induction h with
  | self => rfl
  | child _ hread' hchild ih =>
    subst ih
    rw [hread] at hread'
    obtain rfl := Except.ok.inj hread'
    rw [h₀, h₁] at hchild
    rcases hchild with hchild | hchild <;> cases hchild

theorem refLeaf_value {x : Bytes} {r : RadixNodeCells} {v : RadixValue}
    (h : Below refLeafNode refLeafRoot x) (hread : getRadixNodeLocal refLeafNode none x = .ok r)
    (hv : r.value = some v) : (v.pointer sampleDigest).id = (int_ 5).hash sampleDigest := by
  obtain rfl := refLeaf_below h
  obtain ⟨r₀, hread₀, -, -, -, -, hvalue⟩ := refLeaf_read
  rw [hread₀] at hread
  obtain rfl := Except.ok.inj hread
  rw [hv] at hvalue
  exact Option.some.inj hvalue

theorem refLeaf_fuel (valueRule : Option ShapeRule)
    (hrule : valueRule = none ∨ valueRule = some .send) :
    EnoughFuel refLeafNode refLeafRoot valueRule := by
  have hreturns : ∀ {rule : ShapeRule} {x : Bytes},
      (walkShape refLeafNode rule x).map (fun _ => true) = .ok true →
      ∃ out, walkShape refLeafNode rule x = .ok out := by
    intro rule x h
    rcases hwalk : walkShape refLeafNode rule x with err | out
    · rw [hwalk] at h
      cases h
    · exact ⟨out, rfl⟩
  refine ⟨by decide, ⟨[refLeafRoot], by decide, fun x hx => ?_⟩, fun x hx => ?_,
    fun x r v rule hx hread hv hsome => ?_⟩
  · exact List.mem_singleton.mpr (refLeaf_below hx)
  · rw [refLeaf_below hx]
    exact hreturns (by decide +kernel)
  · obtain rfl : rule = .send := by
      rcases hrule with rfl | rfl
      · cases hsome
      · exact (Option.some.inj hsome).symm
    change ∃ out, walkShape refLeafNode .send (v.pointer sampleDigest).id = .ok out
    rw [refLeaf_value hx hread hv]
    exact hreturns (by decide +kernel)

/-- The cell that a value names by a ref is never sent, and the reader gives up. -/
theorem ref_target_never_arrives :
    refLeafNode.KeepsCells ∧ HeldTree refLeafNode refLeafRoot ∧
    EnoughFuel refLeafNode refLeafRoot none ∧
    ∃ held, getRadixAllFromNetwork refLeafNode 4096 [] (fun _ _ => true) refLeafRoot none true 3 []
        = .ok (false, held) ∧
      ¬ReadsAll refLeafNode true (refLeafRoot, none) held := by
  refine ⟨refLeafNode_keeps.1, refLeaf_heldTree, refLeaf_fuel none (.inl rfl), ?_⟩
  have hrun : (do
      let p ← getRadixAllFromNetwork refLeafNode 4096 [] (fun _ _ => true) refLeafRoot none true 3
        []
      return (p.1, isMissing (refLeafNode.storing p.2) (refLeafRoot, none)) : Py (Bool × Bool)) =
        .ok (false, true) := by decide +kernel
  obtain ⟨⟨done, held⟩, hfetch, hrun⟩ := except_bind_eq_ok.mp hrun
  have hpair := Except.ok.inj hrun
  simp only [Prod.mk.injEq] at hpair
  obtain ⟨hdone, hmissing⟩ := hpair
  rw [hdone] at hfetch
  refine ⟨held, hfetch, fun hreads => ?_⟩
  obtain ⟨r, -, hread⟩ := hreads 0 (refLeafRoot, none) .zero
  rw [isMissing, hread] at hmissing
  cases hmissing

/-- With a value shape that sends the value the tree arrives. -/
theorem ref_target_arrives_with_shape :
    ∃ rounds, ∀ fuel, rounds ≤ fuel → ∃ held,
      getRadixAllFromNetwork refLeafNode 1 [1] (fun _ _ => true) refLeafRoot none true fuel []
        = .ok (true, held) ∧ ReadsAll refLeafNode true (refLeafRoot, none) held := by
  refine (paging_brings_the_tree refLeafNode_keeps.1 refLeaf_heldTree
    (refLeaf_fuel (some .send) (.inr rfl)) rfl).2 ?_ none true 1 (fun _ _ => true) []
    (fun round missing hne => ?_) (fun e he => absurd he List.not_mem_nil)
  · intro x r v hx hread hv
    refine .inr (.inr ⟨r, v, .send, hread, hv, rfl, ?_⟩)
    change ShapeReaches refLeafNode .send (v.pointer sampleDigest).id (v.pointer sampleDigest).id
    rw [refLeaf_value hx hread hv]
    have hskip : skipsHash refLeafNode ((int_ 5).hash sampleDigest) = false := by decide +kernel
    obtain ⟨e, he⟩ : ∃ e, refLeafNode.stored ((int_ 5).hash sampleDigest) = some e :=
      Option.isSome_iff_exists.mp (by decide +kernel)
    exact .here (by decide) hskip he
  · obtain ⟨m, hm⟩ := List.exists_mem_of_ne_nil _ hne
    exact ⟨m, hm, rfl⟩

end Samples

end Astreum
