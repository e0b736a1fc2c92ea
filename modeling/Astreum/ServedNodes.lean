import Astreum.RadixWalk

namespace Astreum

/-- Local storage keeps cells as they are decoded, each under its own hash. Nothing else has the
hash of a type symbol. -/
structure Node.KeepsCells (node : Node) : Prop where
  digest : ∀ x, (node.blake3 x).length = 32
  decoded : ∀ h e, node.stored h = some e → ∃ bytes, decodeExprFromBytes bytes = .ok e
  hash : ∀ h e, node.stored h = some e → node.hash e = h
  types : ∀ tag ∈ builtinTypeNames, ∀ e,
    node.stored (terminalHash node.blake3 1 (utf8 tag)) = some e → e = .symbol tag

section Decoded

variable {blake3 : Bytes → Bytes} {e : Expr} {bytes : Bytes}

/-- The cells that can be decoded. -/
theorem decoded_cases (h : decodeExprFromBytes bytes = .ok e) :
    (∃ s, e = .symbol s) ∨ (∃ b, e = .bytes b) ∨
      ∃ x y : Bytes, x.length = 32 ∧ y.length = 32 ∧ e = .link .none (.byHash x) (.byHash y) := by
  rw [decodeExprFromBytes.eq_def] at h
  split at h
  · rename_i data
    split at h
    · cases h
    · rename_i hlen
      obtain rfl := Except.ok.inj h
      refine .inr (.inr ⟨_, _, ?_, ?_, rfl⟩)
      · rw [List.length_take]
        omega
      · rw [List.length_take, List.length_drop]
        omega
  · rename_i data
    rcases hs : utf8Decode data with err | s
    · rw [hs] at h
      cases h
    · rw [hs] at h
      exact .inl ⟨s, (Except.ok.inj h).symm⟩
  · obtain rfl := Except.ok.inj h
    exact .inr (.inl ⟨_, rfl⟩)
  · cases h

theorem decode_encode_decoded (h : decodeExprFromBytes bytes = .ok e) :
    decodeExprFromBytes (encodeExprToBytes blake3 e) = .ok e := by
  rcases decoded_cases h with ⟨s, rfl⟩ | ⟨b, rfl⟩ | ⟨x, y, hx, hy, rfl⟩
  · exact decodeExprFromBytes_encode (fun _ h => by cases h) rfl rfl
  · rfl
  · exact decodeExprFromBytes_encode (fun _ h => by cases h) hx hy

theorem hashable_decoded (h : decodeExprFromBytes bytes = .ok e) : e.hashable = true := by
  rcases decoded_cases h with ⟨s, rfl⟩ | ⟨b, rfl⟩ | ⟨x, y, hx, hy, rfl⟩ <;> rfl

theorem Node.KeepsCells.hash? {node : Node} (hkeeps : node.KeepsCells) {x : Bytes}
    (h : node.stored x = some e) : node.hash? e = .ok x := by
  obtain ⟨bytes, hbytes⟩ := hkeeps.decoded x e h
  rw [Node.hash?, if_pos (hashable_decoded hbytes), hkeeps.hash x e h]

end Decoded

section Sending

variable {node : Node}

theorem walkShape_spec {rule : ShapeRule} {root : Bytes} {exprs : List Expr} {missing : List Bytes}
    (h : walkShape node rule root = .ok (exprs, missing)) (e : Expr) :
    e ∈ exprs ↔ ∃ x, node.stored x = some e ∧ ShapeReaches node rule root x := by
  obtain ⟨⟨found, missed⟩, hrun, h⟩ := except_bind_eq_ok.mp h
  obtain ⟨rfl, -⟩ := Prod.mk.inj (Except.ok.inj h)
  have hmem := mem_walkShapeFrom hrun (fun p hp => absurd hp List.not_mem_nil)
  constructor
  · intro he
    obtain ⟨p, hp, rfl⟩ := List.mem_map.mp he
    rcases (hmem p).mp hp with hp | ⟨hget, q, hq, hreach⟩
    · cases hp
    · obtain rfl := List.mem_singleton.mp hq
      exact ⟨p.1, hget, hreach⟩
  · rintro ⟨x, hget, hreach⟩
    exact List.mem_map.mpr ⟨(x, e), (hmem (x, e)).mpr (.inr ⟨hget, _, List.mem_singleton_self _,
      hreach⟩), rfl⟩

/-- The root comes first. -/
theorem walkShape_root {rule : ShapeRule} {root : Bytes} {exprs : List Expr} {missing : List Bytes}
    {e : Expr} (h : walkShape node rule root = .ok (exprs, missing)) (hrule : rule ≠ .hold)
    (hskip : skipsHash node root = false) (hget : node.stored root = some e) :
    ∃ rest, exprs = e :: rest := by
  obtain ⟨⟨found, missed⟩, hrun, h⟩ := except_bind_eq_ok.mp h
  obtain ⟨rfl, -⟩ := Prod.mk.inj (Except.ok.inj h)
  cases hfuel : node.fuel with
  | zero =>
    rw [hfuel] at hrun
    cases hrun
  | succ fuel =>
    have hpass : ¬(rule = .hold ∨ skipsHash node root = true) := by
      rw [hskip]
      simp [hrule]
    rw [hfuel, walkShapeFrom, if_neg hpass, hget] at hrun
    obtain ⟨-, rest, hrest⟩ := nodup_walkShapeFrom hrun (by simp)
    exact ⟨rest.map Prod.snd, by rw [← hrest]; simp⟩

theorem addFound_spec (hkeeps : node.KeepsCells) {es : List Expr} {found out : List (Bytes × Expr)}
    (h : addFound node es found = .ok out) (hes : ∀ e ∈ es, ∃ x, node.stored x = some e)
    (hfound : ∀ p ∈ found, node.stored p.1 = some p.2) (hnodup : (found.map Prod.fst).Nodup) :
    (∀ p, p ∈ out ↔ p ∈ found ∨ p.2 ∈ es ∧ node.stored p.1 = some p.2) ∧
      (out.map Prod.fst).Nodup ∧ found <+: out := by
  induction es generalizing found with
  | nil =>
    obtain rfl := Except.ok.inj h
    exact ⟨fun p => by simp, hnodup, List.prefix_rfl⟩
  | cons e es ih =>
    obtain ⟨x, hget⟩ := hes e List.mem_cons_self
    rw [addFound, hkeeps.hash? hget, py_ok_bind] at h
    have hes' : ∀ e ∈ es, ∃ x, node.stored x = some e := fun e he =>
      hes e (List.mem_cons_of_mem _ he)
    have hpair : ∀ p : Bytes × Expr, p = (x, e) ↔ p.2 = e ∧ node.stored p.1 = some p.2 := by
      intro p
      constructor
      · rintro rfl
        exact ⟨rfl, hget⟩
      · rintro ⟨he, hp⟩
        have hx : p.1 = x := by
          rw [← hkeeps.hash _ _ hp, he, hkeeps.hash _ _ hget]
        rw [← hx, ← he]
    split at h
    · rename_i hin
      obtain ⟨hmem, hnodup', hprefix⟩ := ih h hes' hfound hnodup
      refine ⟨fun p => ?_, hnodup', hprefix⟩
      rw [hmem p, List.mem_cons]
      obtain ⟨p₀, hp₀, hx⟩ := List.mem_map.mp hin
      have hin' : (x, e) ∈ found := by
        have hval := hfound p₀ hp₀
        rw [hx, hget] at hval
        rw [Option.some.inj hval, ← hx]
        exact hp₀
      constructor
      · rintro (hp | ⟨hp, hs⟩)
        · exact .inl hp
        · exact .inr ⟨.inr hp, hs⟩
      · rintro (hp | ⟨hp | hp, hs⟩)
        · exact .inl hp
        · rw [(hpair p).mpr ⟨hp, hs⟩]
          exact .inl hin'
        · exact .inr ⟨hp, hs⟩
    · rename_i hnew
      obtain ⟨hmem, hnodup', hprefix⟩ := ih h hes' (fun p hp => by
        rcases List.mem_append.mp hp with hp | hp
        · exact hfound p hp
        · rw [List.mem_singleton.mp hp]
          exact hget) (by
        rw [← List.concat_eq_append, List.map_concat]
        exact hnodup.concat hnew)
      refine ⟨fun p => ?_, hnodup', (List.prefix_append _ _).trans hprefix⟩
      rw [hmem p, List.mem_cons, List.mem_append, List.mem_singleton, hpair p]
      constructor
      · rintro ((hp | ⟨hp, hs⟩) | ⟨hp, hs⟩)
        · exact .inl hp
        · exact .inr ⟨.inl hp, hs⟩
        · exact .inr ⟨.inr hp, hs⟩
      · rintro (hp | ⟨hp | hp, hs⟩)
        · exact .inl (.inl hp)
        · exact .inl (.inr ⟨hp, hs⟩)
        · exact .inr ⟨hp, hs⟩

theorem walkNodes_spec (hkeeps : node.KeepsCells) {hs : List Bytes}
    {found out : List (Bytes × Expr)} (h : walkNodes node hs found = .ok out)
    (hfound : ∀ p ∈ found, node.stored p.1 = some p.2) (hnodup : (found.map Prod.fst).Nodup) :
    (∀ p, p ∈ out ↔ p ∈ found ∨ node.stored p.1 = some p.2 ∧
      ∃ x ∈ hs, ShapeReaches node radixNodeRule x p.1) ∧
      (out.map Prod.fst).Nodup ∧ found <+: out := by
  induction hs generalizing found with
  | nil =>
    obtain rfl := Except.ok.inj h
    exact ⟨fun p => by simp, hnodup, List.prefix_rfl⟩
  | cons x hs ih =>
    obtain ⟨⟨exprs, missing⟩, hwalk, h⟩ := except_bind_eq_ok.mp h
    obtain ⟨found', hadd, h⟩ := except_bind_eq_ok.mp h
    have hmem := walkShape_spec hwalk
    have hexprs : ∀ e ∈ exprs, ∃ y, node.stored y = some e := fun e he => by
      obtain ⟨y, hy, -⟩ := (hmem e).mp he
      exact ⟨y, hy⟩
    obtain ⟨hadded, hnodup', hprefix⟩ := addFound_spec hkeeps hadd hexprs hfound hnodup
    have hsame : ∀ p : Bytes × Expr, p.2 ∈ exprs ∧ node.stored p.1 = some p.2 ↔
        node.stored p.1 = some p.2 ∧ ShapeReaches node radixNodeRule x p.1 := by
      intro p
      constructor
      · rintro ⟨hp, hs⟩
        obtain ⟨y, hy, hreach⟩ := (hmem p.2).mp hp
        have hxy : p.1 = y := by rw [← hkeeps.hash _ _ hs, hkeeps.hash _ _ hy]
        rw [hxy]
        exact ⟨hy, hreach⟩
      · rintro ⟨hs, hreach⟩
        exact ⟨(hmem p.2).mpr ⟨p.1, hs, hreach⟩, hs⟩
    obtain ⟨hall, hnodup'', hprefix'⟩ := ih h (fun p hp => by
      rcases (hadded p).mp hp with hp | ⟨-, hp⟩
      · exact hfound p hp
      · exact hp) hnodup'
    refine ⟨fun p => ?_, hnodup'', hprefix.trans hprefix'⟩
    rw [hall p, hadded p, hsame p]
    constructor
    · rintro ((hp | ⟨hp, hr⟩) | ⟨hp, y, hy, hr⟩)
      · exact .inl hp
      · exact .inr ⟨hp, x, List.mem_cons_self, hr⟩
      · exact .inr ⟨hp, y, List.mem_cons_of_mem _ hy, hr⟩
    · rintro (hp | ⟨hp, y, hy, hr⟩)
      · exact .inl (.inl hp)
      · rcases List.mem_cons.mp hy with rfl | hy
        · exact .inl (.inr ⟨hp, hr⟩)
        · exact .inr ⟨hp, y, hy, hr⟩

/-- What is sent for the nodes read and the value at the key. -/
def Sends (node : Node) (hashes : List Bytes) (found : Option RadixNodeCells)
    (valueRule : Option ShapeRule) (x : Bytes) : Prop :=
  (∃ h ∈ hashes, ShapeReaches node radixNodeRule h x) ∨
    ∃ v rule, found.bind RadixNodeCells.value = some v ∧ valueRule = some rule ∧
      ShapeReaches node rule (v.pointer node.blake3).id x

theorem valueExprs_spec {found : Option RadixNodeCells} {valueRule : Option ShapeRule}
    {exprs : List Expr} (h : valueExprs node found valueRule = .ok exprs) (e : Expr) :
    e ∈ exprs ↔ ∃ x, node.stored x = some e ∧
      ∃ v rule, found.bind RadixNodeCells.value = some v ∧ valueRule = some rule ∧
        ShapeReaches node rule (v.pointer node.blake3).id x := by
  rcases hv : found.bind RadixNodeCells.value with - | v
  · simp only [valueExprs, hv] at h
    obtain rfl := Except.ok.inj h
    simp
  · rcases valueRule with - | rule
    · simp only [valueExprs, hv] at h
      obtain rfl := Except.ok.inj h
      simp
    · simp only [valueExprs, hv] at h
      obtain ⟨⟨exprs', missing⟩, hwalk, h⟩ := except_bind_eq_ok.mp h
      obtain rfl := Except.ok.inj h
      rw [walkShape_spec hwalk e]
      simp

theorem walkNodes_root (hkeeps : node.KeepsCells) {root : Bytes} {hs : List Bytes}
    {out : List (Bytes × Expr)} {e : Expr} (h : walkNodes node (root :: hs) [] = .ok out)
    (hskip : skipsHash node root = false) (hget : node.stored root = some e) :
    [(root, e)] <+: out := by
  obtain ⟨⟨exprs, missing⟩, hwalk, hafter⟩ := except_bind_eq_ok.mp h
  obtain ⟨found, hadd, hnodes⟩ := except_bind_eq_ok.mp hafter
  obtain ⟨rest, rfl⟩ := walkShape_root hwalk (by decide) hskip hget
  have hstored : ∀ e' ∈ e :: rest, ∃ x, node.stored x = some e' := fun e' he' => by
    obtain ⟨x, hx, -⟩ := (walkShape_spec hwalk e').mp he'
    exact ⟨x, hx⟩
  obtain ⟨hmem, hnodup, -⟩ := addFound_spec hkeeps hadd hstored
    (fun p hp => absurd hp List.not_mem_nil) List.nodup_nil
  have hfound : ∀ p ∈ found, node.stored p.1 = some p.2 := fun p hp => by
    rcases (hmem p).mp hp with hp | ⟨-, hp⟩
    · cases hp
    · exact hp
  rw [addFound, hkeeps.hash? hget, py_ok_bind, if_neg (by simp)] at hadd
  obtain ⟨-, -, hfirst⟩ := addFound_spec hkeeps hadd
    (fun e' he' => hstored e' (List.mem_cons_of_mem _ he'))
    (fun p hp => by rw [List.mem_singleton.mp hp]; exact hget) (List.nodup_singleton _)
  exact hfirst.trans (walkNodes_spec hkeeps hnodes hfound hnodup).2.2

/-- What `walk_radix_key` returns. -/
theorem walkRadixKey_spec (hkeeps : node.KeepsCells) {root key valueShape : Bytes} {offset : Int}
    {exprs : List Expr} (h : walkRadixKey node root key offset valueShape = .ok exprs)
    (hoffset : 0 ≤ offset ∧ offset ≤ key.length * 8) :
    ∃ valueRule found nodes, valueRuleOf valueShape = .ok valueRule ∧
      findNodeLocal node root key offset = .ok (found, nodes) ∧
      (∀ e, e ∈ exprs ↔ ∃ x, node.stored x = some e ∧
        Sends node (root :: nodes.keys) found valueRule x) ∧
      (exprs.map node.hash).Nodup ∧
      (skipsHash node root = false → ∀ e, node.stored root = some e → exprs.head? = some e) := by
  obtain ⟨valueRule, hrule, h⟩ := except_bind_eq_ok.mp h
  rw [if_neg (not_not.mpr hoffset)] at h
  obtain ⟨⟨foundNode, nodes⟩, hfind, h⟩ := except_bind_eq_ok.mp h
  obtain ⟨found, hnodes, h⟩ := except_bind_eq_ok.mp h
  obtain ⟨values, hvalues, h⟩ := except_bind_eq_ok.mp h
  obtain ⟨all, hall, h⟩ := except_bind_eq_ok.mp h
  obtain rfl := Except.ok.inj h
  have hvalue := valueExprs_spec hvalues
  obtain ⟨hmem, hnodup, -⟩ := walkNodes_spec hkeeps hnodes (fun p hp => absurd hp List.not_mem_nil)
    List.nodup_nil
  have hfound : ∀ p ∈ found, node.stored p.1 = some p.2 := fun p hp => by
    rcases (hmem p).mp hp with hp | ⟨hp, -⟩
    · cases hp
    · exact hp
  obtain ⟨hadded, hnodup', hprefix⟩ := addFound_spec hkeeps hall (fun e he => by
    obtain ⟨x, hx, -⟩ := (hvalue e).mp he
    exact ⟨x, hx⟩) hfound hnodup
  have hstored : ∀ p ∈ all, node.stored p.1 = some p.2 := fun p hp => by
    rcases (hadded p).mp hp with hp | ⟨-, hp⟩
    · exact hfound p hp
    · exact hp
  have hhashes : ∀ x, x ∈ root :: nodes.keys.filter (fun h => decide (h ≠ root)) ↔
      x ∈ root :: nodes.keys := by
    intro x
    by_cases hx : x = root <;> simp [hx]
  refine ⟨valueRule, foundNode, nodes, hrule, hfind, fun e => ?_, ?_, fun hskip e hget => ?_⟩
  · constructor
    · intro he
      obtain ⟨p, hp, rfl⟩ := List.mem_map.mp he
      refine ⟨p.1, hstored p hp, ?_⟩
      rcases (hadded p).mp hp with hp' | ⟨hp', -⟩
      · rcases (hmem p).mp hp' with hp' | ⟨-, x, hx, hreach⟩
        · cases hp'
        · exact .inl ⟨x, (hhashes x).mp hx, hreach⟩
      · obtain ⟨x, hx, v, rule, hv, hr, hreach⟩ := (hvalue p.2).mp hp'
        have hxp : p.1 = x := by rw [← hkeeps.hash _ _ (hstored p hp), hkeeps.hash _ _ hx]
        exact .inr ⟨v, rule, hv, hr, hxp ▸ hreach⟩
    · rintro ⟨x, hx, ⟨y, hy, hreach⟩ | hsent⟩
      · have hin : (x, e) ∈ found := (hmem (x, e)).mpr (.inr ⟨hx, y, (hhashes y).mpr hy, hreach⟩)
        exact List.mem_map.mpr ⟨(x, e), (hadded _).mpr (.inl hin), rfl⟩
      · have hin : e ∈ values := (hvalue e).mpr ⟨x, hx, hsent⟩
        exact List.mem_map.mpr ⟨(x, e), (hadded _).mpr (.inr ⟨hin, hx⟩), rfl⟩
  · have hkeys : (all.map Prod.snd).map node.hash = all.map Prod.fst := by
      rw [List.map_map]
      exact List.map_congr_left fun p hp => hkeeps.hash _ _ (hstored p hp)
    rw [hkeys]
    exact hnodup'
  · obtain ⟨rest, hrest⟩ := (walkNodes_root hkeeps hnodes hskip hget).trans hprefix
    rw [← hrest]
    rfl

end Sending

section Reader

variable {node : Node} {exprs : List Expr} {sent : Bytes → Prop}

/-- The exprs are those that are held under the hashes sent. -/
def Delivers (node : Node) (exprs : List Expr) (sent : Bytes → Prop) : Prop :=
  ∀ e, e ∈ exprs ↔ ∃ x, node.stored x = some e ∧ sent x

/-- The reader finds under a hash what the provider does. -/
def Agrees (node : Node) (exprs : List Expr) (x : Bytes) : Prop :=
  getExpr (node.storing exprs) x = getExpr node x

/-- Everything that the rule reaches is sent. -/
def Walked (node : Node) (sent : Bytes → Prop) (rule : ShapeRule) (h : Bytes) : Prop :=
  ∀ x, ShapeReaches node rule h x → sent x

/-- A store that was empty holds what was sent. -/
theorem stored_storing (hkeeps : node.KeepsCells) (hsends : Delivers node exprs sent) (x : Bytes)
    (e : Expr) : (node.storing exprs).stored x = some e ↔ sent x ∧ node.stored x = some e := by
  change storedAmong node.blake3 exprs x = some e ↔ _
  have hread : ∀ c ∈ exprs, c.hash node.blake3 = x → node.stored x = some c ∧ sent x ∧
      (decodeExprFromBytes (encodeExprToBytes node.blake3 c)).toOption = some c := by
    intro c hc hhash
    obtain ⟨y, hy, hs⟩ := (hsends c).mp hc
    have hxy : y = x := by
      rw [← hkeeps.hash _ _ hy]
      exact hhash
    obtain ⟨bytes, hbytes⟩ := hkeeps.decoded _ _ hy
    rw [hxy] at hy hs
    refine ⟨hy, hs, ?_⟩
    rw [decode_encode_decoded hbytes]
    rfl
  constructor
  · intro h
    obtain ⟨c, hmem, hhash, hc⟩ := storedAmong_eq_some h
    obtain ⟨hget, hs, hdecode⟩ := hread c hmem hhash
    rw [hdecode] at hc
    obtain rfl := Option.some.inj hc
    exact ⟨hs, hget⟩
  · rintro ⟨hs, hget⟩
    have hmem : e ∈ exprs := (hsends e).mpr ⟨x, hget, hs⟩
    have hhash : e.hash node.blake3 = x := hkeeps.hash _ _ hget
    obtain ⟨c, hc, hhash', hstored⟩ := storedAmong_hash node.blake3 hmem
    rw [hhash] at hhash' hstored
    obtain ⟨hget', -, hdecode⟩ := hread c hc hhash'
    rw [hstored, hdecode]
    exact hget'.symm.trans hget

theorem agrees_of_stored {x : Bytes} (h : (node.storing exprs).stored x = node.stored x) :
    Agrees node exprs x := by
  rw [Agrees, getExpr, getExpr, h]
  rfl

theorem holds_of_agrees {e : Expr} (h : node.Holds e)
    (hagrees : ∀ c ∈ e.cells, Agrees node exprs (node.hash c)) : (node.storing exprs).Holds e :=
  ⟨fun c hc => (hagrees c hc).trans (h.get c hc), h.zero, h.type⟩

theorem Walked.below {rule : ShapeRule} {x : Bytes} {e : Expr} {q : ShapeRule × Bytes}
    (h : Walked node sent rule x) (hrule : rule ≠ .hold) (hskip : skipsHash node x = false)
    (hget : node.stored x = some e) (hq : q ∈ belowCell node rule e) : Walked node sent q.1 q.2 :=
  fun y hy => h y (.under hrule hskip hget hq hy)

theorem hash_of_builtinTypeOfHash {x : Bytes} {name : String}
    (h : builtinTypeOfHash node.blake3 x = some name) :
    terminalHash node.blake3 1 (utf8 name) = x := by
  simpa using List.find?_some h

variable (hkeeps : node.KeepsCells) (hsends : Delivers node exprs sent)

include hkeeps hsends

theorem stored_storing_of_none {x : Bytes} (h : node.stored x = none) :
    (node.storing exprs).stored x = none := by
  rcases hr : (node.storing exprs).stored x with - | e
  · rfl
  · have hget := ((stored_storing hkeeps hsends x e).mp hr).2
    rw [h] at hget
    cases hget

theorem agrees_of_none {x : Bytes} (h : node.stored x = none) : Agrees node exprs x :=
  agrees_of_stored ((stored_storing_of_none hkeeps hsends h).trans h.symm)

theorem agrees_of_sent {x : Bytes} (h : sent x) : Agrees node exprs x := by
  rcases hget : node.stored x with - | e
  · exact agrees_of_none hkeeps hsends hget
  · exact agrees_of_stored
      (((stored_storing hkeeps hsends x e).mpr ⟨h, hget⟩).trans hget.symm)

/-- The type symbols are known to every node. -/
theorem agrees_of_type {x : Bytes} {name : String}
    (h : builtinTypeOfHash node.blake3 x = some name) : Agrees node exprs x := by
  have hx : terminalHash node.blake3 1 (utf8 name) = x := hash_of_builtinTypeOfHash h
  have hname : name ∈ builtinTypeNames := List.mem_of_find?_eq_some h
  rcases hget : node.stored x with - | e
  · exact agrees_of_none hkeeps hsends hget
  · have he : e = .symbol name := hkeeps.types name hname e (hx ▸ hget)
    have hr : (node.storing exprs).stored x = none ∨
        (node.storing exprs).stored x = some e := by
      rcases hr : (node.storing exprs).stored x with - | e'
      · exact .inl rfl
      · have hget' := ((stored_storing hkeeps hsends x e').mp hr).2
        rw [hget] at hget'
        exact .inr hget'.symm
    rcases hr with hr | hr
    · rw [Agrees, getExpr, getExpr, hr, hget]
      change (if x = zero32 then some Expr.nil
        else (builtinTypeOfHash node.blake3 x).map Expr.symbol) = _
      rw [h, he]
      rfl
    · exact agrees_of_stored (hr.trans hget.symm)

theorem agrees_of_skip {x : Bytes} (h : skipsHash node x = true) : Agrees node exprs x := by
  rw [skipsHash, Bool.or_eq_true, decide_eq_true_eq] at h
  rcases h with (rfl | rfl) | h
  · refine agrees_of_none hkeeps hsends ?_
    rcases hget : node.stored [] with - | e
    · rfl
    · obtain ⟨bytes, hbytes⟩ := hkeeps.decoded _ _ hget
      have hhash : e.hash node.blake3 = [] := hkeeps.hash _ _ hget
      have hlength : (e.hash node.blake3).length = 32 := by
        rcases decoded_cases hbytes with ⟨s, rfl⟩ | ⟨b, rfl⟩ | ⟨x, y, hx, hy, rfl⟩
        · exact hkeeps.digest _
        · exact hkeeps.digest _
        · rw [hash_link]
          exact hkeeps.digest _
      rw [hhash] at hlength
      cases hlength
  · rfl
  · rcases htype : builtinTypeOfHash node.blake3 x with - | name
    · rw [htype] at h
      cases h
    · exact agrees_of_type hkeeps hsends htype

/-- What a rule is applied to is found by the reader as well. -/
theorem agrees_of_walked {rule : ShapeRule} {x : Bytes} (hrule : rule ≠ .hold)
    (h : Walked node sent rule x) : Agrees node exprs x := by
  by_cases hskip : skipsHash node x = true
  · exact agrees_of_skip hkeeps hsends hskip
  rcases hget : node.stored x with - | e
  · exact agrees_of_none hkeeps hsends hget
  · exact agrees_of_sent hkeeps hsends
      (h x (.here hrule (Bool.eq_false_of_not_eq_true hskip) hget))

end Reader

end Astreum
