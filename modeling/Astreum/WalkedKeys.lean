import Astreum.WalkedNodes

namespace Astreum

/-- What the loop of `_find_node` does at a node that it has read. -/
inductive WayStep where
  | holds
  | stops
  | goes (next : Pointer) (pos : Int)

def wayStep (key : Bytes) (current : RadixNodeCells) (pos : Int) : Py WayStep := do
  if (← matchPrefix current.key current.keyLen key pos) = false then return .stops
  if pos + current.keyLen = key.length * 8 then return .holds
  match bitAt key (pos + current.keyLen) with
  | .error .indexError => return .stops
  | .error err => throw err
  | .ok next => match if next then current.child1 else current.child0 with
    | none => return .stops
    | some p => return .goes p (pos + current.keyLen + 1)

section Ways

variable (node : Node) (key : Bytes)

/-- A tree that is held in full: the list of each node with its length and its key, and all that a
node names. -/
inductive HeldTree : Bytes → Prop
  | mk {h : Bytes} {n r : RadixNodeCells} (hholds : node.HoldsNode n)
      (hhash : node.hash (n.toExpr node.blake3) = h)
      (hread : getRadixNodeLocal node none h = .ok r)
      (hbelow : ∀ p, r.child0 = some p ∨ r.child1 = some p → HeldTree p.id) : HeldTree h

/-- A node on the way to a key, with the bits that are matched before it. -/
inductive OnWay : Bytes → Int → Bytes → Int → Prop
  | self {h : Bytes} {pos : Int} : OnWay h pos h pos
  | next {h x : Bytes} {pos pos' pos'' : Int} {r : RadixNodeCells} {p : Pointer}
      (hread : getRadixNodeLocal node none h = .ok r)
      (hstep : wayStep key r pos = .ok (.goes p pos'))
      (hway : OnWay p.id pos' x pos'') : OnWay h pos x pos''

/-- The way ends at a node that holds the key. -/
def EndsAt (h : Bytes) (pos : Int) (r : RadixNodeCells) : Prop :=
  ∃ x pos', OnWay node key h pos x pos' ∧ getRadixNodeLocal node none x = .ok r ∧
    wayStep key r pos' = .ok .holds

end Ways

/-- Two readings of a node that differ only in the blocks of what it names. -/
structure RadixNodeCells.Alike (blake3 : Bytes → Bytes) (r r' : RadixNodeCells) : Prop where
  keyLen : r.keyLen = r'.keyLen
  key : r.key = r'.key
  child0 : r.child0.map Pointer.id = r'.child0.map Pointer.id
  child1 : r.child1.map Pointer.id = r'.child1.map Pointer.id
  value : (r.value.map fun v => (v.pointer blake3).id) = r'.value.map fun v => (v.pointer blake3).id

section Alike

variable {blake3 : Bytes → Bytes} {r r' : RadixNodeCells}

theorem RadixNodeCells.Alike.symm (h : r.Alike blake3 r') : r'.Alike blake3 r :=
  ⟨h.keyLen.symm, h.key.symm, h.child0.symm, h.child1.symm, h.value.symm⟩

theorem RadixNodeCells.Alike.value_of {v : RadixValue} (h : r.Alike blake3 r')
    (hv : r.value = some v) :
    ∃ v', r'.value = some v' ∧ (v'.pointer blake3).id = (v.pointer blake3).id := by
  have hids := h.value
  rw [hv] at hids
  exact Option.map_eq_some_iff.mp hids.symm

end Alike

section Blocks

variable {node : Node} {held : Option Bytes} {c : Expr}

theorem readPointer_held {p : Pointer} (held' : Option Bytes)
    (h : readPointerLocal node held c = .ok p) :
    ∃ p', readPointerLocal node held' c = .ok p' ∧ p'.id = p.id := by
  obtain ⟨target, htarget, h⟩ := except_bind_eq_ok.mp h
  cases target with
  | some q =>
    obtain rfl := Except.ok.inj h
    exact ⟨q, by rw [readPointerLocal, htarget]; rfl, rfl⟩
  | none =>
    obtain ⟨x, hx, h⟩ := except_bind_eq_ok.mp h
    obtain rfl := Except.ok.inj h
    exact ⟨⟨x, held'⟩, by rw [readPointerLocal, htarget, py_ok_bind]; simp only [hx]; rfl, rfl⟩

theorem readChild_held {q : Option Pointer} (held' : Option Bytes)
    (h : readChildLocal node held c = .ok q) :
    ∃ q', readChildLocal node held' c = .ok q' ∧ q'.map Pointer.id = q.map Pointer.id := by
  by_cases hnil : c = .nil
  · rw [readChildLocal, if_pos hnil] at h
    obtain rfl := Except.ok.inj h
    exact ⟨none, by rw [readChildLocal, if_pos hnil], rfl⟩
  · rw [readChildLocal, if_neg hnil] at h
    obtain ⟨p, hp, h⟩ := except_bind_eq_ok.mp h
    obtain rfl := Except.ok.inj h
    obtain ⟨p', hp', hid⟩ := readPointer_held held' hp
    refine ⟨some p', by rw [readChildLocal, if_neg hnil, hp']; rfl, ?_⟩
    rw [Option.map_some, Option.map_some, hid]

theorem readValue_held {value : Option RadixValue} (held' : Option Bytes)
    (h : readValueLocal node held c = .ok value) :
    ∃ value', readValueLocal node held' c = .ok value' ∧
      (value'.map fun v => (v.pointer node.blake3).id) =
        value.map fun v => (v.pointer node.blake3).id := by
  by_cases hnil : c = .nil
  · rw [readValueLocal, if_pos hnil] at h
    obtain rfl := Except.ok.inj h
    exact ⟨none, by rw [readValueLocal, if_pos hnil], rfl⟩
  rw [readValueLocal, if_neg hnil] at h
  obtain ⟨p, hp, h⟩ := except_bind_eq_ok.mp h
  obtain ⟨y, hy, h⟩ := except_bind_eq_ok.mp h
  obtain ⟨p', hp', hid⟩ := readPointer_held held' hp
  rw [readValueLocal_eq hnil hp' hy, hid]
  by_cases hself : p.id = y
  · rw [if_pos hself] at h ⊢
    obtain rfl := Except.ok.inj h
    exact ⟨_, rfl, rfl⟩
  · rw [if_neg hself] at h ⊢
    rcases he : getExpr node p.id with - | e
    · rw [he] at h
      cases h
    · rw [he] at h
      obtain rfl := Except.ok.inj h
      exact ⟨_, rfl, rfl⟩

/-- A node is read under every block alike. -/
theorem getRadixNode_held {n r : RadixNodeCells} (hholds : node.HoldsNode n)
    (hfuel : 5 < node.fuel) (held' : Option Bytes)
    (h : getRadixNodeLocal node held (node.hash (n.toExpr node.blake3)) = .ok r) :
    ∃ r', getRadixNodeLocal node held' (node.hash (n.toExpr node.blake3)) = .ok r' ∧
      r'.Alike node.blake3 r := by
  obtain ⟨hkeyLen, hkey, ⟨c₀, hc₀, h₀⟩, ⟨c₁, hc₁, h₁⟩, v, hv, hvalue⟩ :=
    (getRadixNodeLocal_eq_ok hholds hfuel).mp h
  obtain ⟨child0, h₀', hid₀⟩ := readChild_held held' h₀
  obtain ⟨child1, h₁', hid₁⟩ := readChild_held held' h₁
  obtain ⟨value, hvalue', hids⟩ := readValue_held held' hvalue
  refine ⟨⟨n.keyLen, n.key, value, child0, child1⟩, (getRadixNodeLocal_eq_ok hholds hfuel).mpr
    ⟨rfl, rfl, ⟨c₀, hc₀, h₀'⟩, ⟨c₁, hc₁, h₁'⟩, v, hv, hvalue'⟩, ?_⟩
  exact ⟨hkeyLen.symm, hkey.symm, hid₀, hid₁, hids⟩

/-- What the loop does does not depend on the blocks. -/
def WayStep.Alike : WayStep → WayStep → Prop
  | .goes p pos, .goes p' pos' => p.id = p'.id ∧ pos = pos'
  | .holds, .holds => True
  | .stops, .stops => True
  | _, _ => False

theorem wayStep_alike {blake3 : Bytes → Bytes} {r r' : RadixNodeCells} {key : Bytes} {pos : Int}
    {s : WayStep} (halike : r.Alike blake3 r') (h : wayStep key r pos = .ok s) :
    ∃ s', wayStep key r' pos = .ok s' ∧ s.Alike s' := by
  rw [wayStep, halike.keyLen, halike.key] at h
  rw [wayStep]
  obtain ⟨matched, hmatched, h⟩ := except_bind_eq_ok.mp h
  rw [hmatched, py_ok_bind]
  by_cases hno : matched = false
  · rw [if_pos hno] at h ⊢
    obtain rfl := Except.ok.inj h
    exact ⟨_, rfl, trivial⟩
  rw [if_neg hno] at h ⊢
  by_cases hend : pos + r'.keyLen = key.length * 8
  · rw [if_pos hend] at h ⊢
    obtain rfl := Except.ok.inj h
    exact ⟨_, rfl, trivial⟩
  rw [if_neg hend] at h ⊢
  rcases hbit : bitAt key (pos + r'.keyLen) with err | bit
  · rw [hbit] at h
    cases err with
    | indexError =>
      obtain rfl := Except.ok.inj h
      exact ⟨_, rfl, trivial⟩
    | _ => cases h
  · rw [hbit] at h
    have hchild : (if bit then r.child1 else r.child0).map Pointer.id =
        (if bit then r'.child1 else r'.child0).map Pointer.id := by
      cases bit with
      | true => exact halike.child1
      | false => exact halike.child0
    rcases hp : (if bit then r.child1 else r.child0) with - | p
    · rw [hp] at hchild
      have hp' : (if bit then r'.child1 else r'.child0) = none :=
        Option.map_eq_none_iff.mp hchild.symm
      simp only [hp] at h
      obtain rfl := Except.ok.inj h
      exact ⟨.stops, by simp only [hp']; rfl, trivial⟩
    · rw [hp] at hchild
      obtain ⟨p', hp', hid⟩ := Option.map_eq_some_iff.mp hchild.symm
      simp only [hp] at h
      obtain rfl := Except.ok.inj h
      exact ⟨.goes p' _, by simp only [hp']; rfl, hid.symm, rfl⟩

end Blocks

section Walks

variable {node : Node} {key : Bytes} {h : Bytes} {pos : Int} {nodes : ReadNodes}

theorem onWay_iff {r : RadixNodeCells} {x : Bytes} {pos' : Int}
    (hread : getRadixNodeLocal node none h = .ok r) :
    OnWay node key h pos x pos' ↔ (x = h ∧ pos' = pos) ∨
      ∃ p q, wayStep key r pos = .ok (.goes p q) ∧ OnWay node key p.id q x pos' := by
  constructor
  · intro hway
    cases hway with
    | self => exact .inl ⟨rfl, rfl⟩
    | next hread' hstep hway =>
      rw [hread] at hread'
      obtain rfl := Except.ok.inj hread'
      exact .inr ⟨_, _, hstep, hway⟩
  · rintro (⟨rfl, rfl⟩ | ⟨p, q, hstep, hway⟩)
    · exact .self
    · exact .next hread hstep hway

theorem endsAt_iff {r e : RadixNodeCells} (hread : getRadixNodeLocal node none h = .ok r) :
    EndsAt node key h pos e ↔ (e = r ∧ wayStep key r pos = .ok .holds) ∨
      ∃ p q, wayStep key r pos = .ok (.goes p q) ∧ EndsAt node key p.id q e := by
  constructor
  · rintro ⟨x, pos', hway, hread', hholds⟩
    rcases (onWay_iff hread).mp hway with ⟨rfl, rfl⟩ | ⟨p, q, hstep, hway⟩
    · rw [hread] at hread'
      obtain rfl := Except.ok.inj hread'
      exact .inl ⟨rfl, hholds⟩
    · exact .inr ⟨p, q, hstep, x, pos', hway, hread', hholds⟩
  · rintro (⟨rfl, hholds⟩ | ⟨p, q, hstep, x, pos', hway, hread', hholds⟩)
    · exact ⟨h, pos, .self, hread, hholds⟩
    · exact ⟨x, pos', (onWay_iff hread).mpr (.inr ⟨p, q, hstep, hway⟩), hread', hholds⟩

/-- The nodes that are kept were read from the store. -/
def ReadFrom (node : Node) (nodes : ReadNodes) : Prop :=
  ∀ k r, nodes.get? k = some r → ∃ held, getRadixNodeLocal node held k = .ok r

theorem findNodeFrom_succ {block : Option Bytes} {r : RadixNodeCells} {nodes' : ReadNodes}
    (fuel : Nat) (hfetch : fetchNodeLocal node nodes h block = .ok (some r, nodes')) :
    findNodeFrom node key (fuel + 1) nodes pos h block = (do
      match ← wayStep key r pos with
      | .holds => return (some r, nodes')
      | .stops => return (none, nodes')
      | .goes p pos => findNodeFrom node key fuel nodes' pos p.id p.block) := by
  rw [findNodeFrom, hfetch, py_ok_bind, wayStep]
  dsimp only
  rcases matchPrefix r.key r.keyLen key pos with err | matched
  · rfl
  simp only [py_ok_bind]
  by_cases hno : matched = false
  · rw [if_pos hno, if_pos hno]
    rfl
  rw [if_neg hno, if_neg hno]
  by_cases hend : pos + r.keyLen = key.length * 8
  · rw [if_pos hend, if_pos hend]
    rfl
  rw [if_neg hend, if_neg hend]
  rcases bitAt key (pos + r.keyLen) with err | bit
  · cases err <;> rfl
  · simp only
    rcases (if bit then r.child1 else r.child0) with - | p <;> rfl

/-- A node that is held is read, from the store or from the nodes kept, and a reader that reads it
reads it alike. -/
theorem fetchNode_spec (hnodes : ReadFrom node nodes) {n r : RadixNodeCells}
    (hholds : node.HoldsNode n) (hfuel : 5 < node.fuel)
    (hhash : node.hash (n.toExpr node.blake3) = h)
    (hread : getRadixNodeLocal node none h = .ok r) (block : Option Bytes) :
    ∃ r' nodes', fetchNodeLocal node nodes h block = .ok (some r', nodes') ∧
      r'.Alike node.blake3 r ∧ ReadFrom node nodes' ∧
      (∀ k, k ∈ nodes'.keys ↔ k ∈ nodes.keys ∨ k = h) ∧
      ∀ exprs, Agrees node exprs h → (∀ held v, getRadixNodeLocal node held h = .ok v →
          getRadixNodeLocal (node.storing exprs) held h = .ok v) →
        fetchNodeLocal (node.storing exprs) nodes h block = .ok (some r', nodes') := by
  subst hhash
  rcases hkept : nodes.get? (node.hash (n.toExpr node.blake3)) with - | kept
  · obtain ⟨r', hread', halike⟩ := getRadixNode_held hholds hfuel block hread
    have hget : ∃ e, getExpr node (node.hash (n.toExpr node.blake3)) = some e :=
      ⟨_, (congrArg (getExpr node) (hash_toExpr n node.blake3)).trans hholds.spine.self⟩
    obtain ⟨e, hget⟩ := hget
    refine ⟨r', nodes.insert (node.hash (n.toExpr node.blake3)) r', ?_, halike, fun k v hv => ?_,
      fun k => Dict.mem_keys_insert.trans or_comm, fun exprs hagrees hreads => ?_⟩
    · simp only [fetchNodeLocal, hkept, hget, hread']
    · rw [Dict.get?_insert] at hv
      split at hv
      · rename_i hk
        rw [← Option.some.inj hv, ← hk]
        exact ⟨block, hread'⟩
      · exact hnodes k v hv
    · have hget' : getExpr (node.storing exprs) (node.hash (n.toExpr node.blake3)) = some e :=
        hagrees.trans hget
      simp only [fetchNodeLocal, hkept, hget', hreads block r' hread']
  · obtain ⟨held, hheld⟩ := hnodes _ _ hkept
    obtain ⟨r₀, hread₀, halike⟩ := getRadixNode_held hholds hfuel none hheld
    rw [hread] at hread₀
    obtain rfl := Except.ok.inj hread₀
    refine ⟨kept, nodes, ?_, halike.symm, hnodes, fun k => ?_, fun exprs _ _ => ?_⟩
    · simp only [fetchNodeLocal, hkept]
    · constructor
      · exact .inl
      · rintro (hk | rfl)
        · exact hk
        · by_contra hnot
          rw [Dict.get?_eq_none.mpr hnot] at hkept
          cases hkept
    · simp only [fetchNodeLocal, hkept]

theorem wayStep_child {r : RadixNodeCells} {p : Pointer} {q : Int}
    (hstep : wayStep key r pos = .ok (.goes p q)) : r.child0 = some p ∨ r.child1 = some p := by
  obtain ⟨matched, -, hstep⟩ := except_bind_eq_ok.mp hstep
  split at hstep
  · cases hstep
  split at hstep
  · cases hstep
  split at hstep
  · cases hstep
  · cases hstep
  · split at hstep
    · cases hstep
    · rename_i p' hp
      obtain ⟨rfl, -⟩ := WayStep.goes.inj (Except.ok.inj hstep)
      split at hp
      · exact .inr hp
      · exact .inl hp

/-- What `_find_node` reads are the nodes on the way, and it finds the node that holds the key. -/
theorem findNodeFrom_spec (hfuel : 5 < node.fuel) {fuel : Nat} {block : Option Bytes}
    {found : Option RadixNodeCells} {nodes' : ReadNodes} (hheld : HeldTree node h)
    (hnodes : ReadFrom node nodes)
    (hrun : findNodeFrom node key fuel nodes pos h block = .ok (found, nodes')) :
    ReadFrom node nodes' ∧
      (∀ k, k ∈ nodes'.keys ↔ k ∈ nodes.keys ∨ ∃ pos', OnWay node key h pos k pos') ∧
      (∀ r, found = some r → ∃ e, EndsAt node key h pos e ∧ r.Alike node.blake3 e) ∧
      ∀ e, EndsAt node key h pos e → ∃ r, found = some r ∧ r.Alike node.blake3 e := by
  induction fuel generalizing nodes pos h block with
  | zero => cases hrun
  | succ fuel ih =>
    obtain ⟨hholds, hhash, hread, hbelow⟩ := hheld
    obtain ⟨r', nodes₁, hfetch, halike, hnodes₁, hkeys, -⟩ :=
      fetchNode_spec hnodes hholds hfuel hhash hread block
    rw [findNodeFrom_succ fuel hfetch] at hrun
    obtain ⟨step, hstep, hrun⟩ := except_bind_eq_ok.mp hrun
    obtain ⟨step', hstep', hsame⟩ := wayStep_alike halike hstep
    have hhere : (∀ p q, step' ≠ .goes p q) → ∀ k,
        (k ∈ nodes₁.keys ↔ k ∈ nodes.keys ∨ ∃ pos', OnWay node key h pos k pos') := by
      intro hgoes k
      rw [hkeys k]
      refine or_congr_right ⟨?_, ?_⟩
      · rintro rfl
        exact ⟨pos, .self⟩
      · rintro ⟨pos', hway⟩
        rcases (onWay_iff hread).mp hway with ⟨rfl, -⟩ | ⟨p, q, hgo, -⟩
        · rfl
        · rw [hstep'] at hgo
          exact absurd (Except.ok.inj hgo) (hgoes p q)
    cases step with
    | holds =>
      cases step' with
      | holds =>
        obtain ⟨rfl, rfl⟩ := Prod.mk.inj (Except.ok.inj hrun)
        refine ⟨hnodes₁, hhere (by simp), fun r hr => ?_, fun e hends => ?_⟩
        · obtain rfl := Option.some.inj hr
          exact ⟨_, (endsAt_iff hread).mpr (.inl ⟨rfl, hstep'⟩), halike⟩
        · rcases (endsAt_iff hread).mp hends with ⟨rfl, -⟩ | ⟨p, q, hgo, -⟩
          · exact ⟨r', rfl, halike⟩
          · rw [hstep'] at hgo
            cases hgo
      | stops => exact hsame.elim
      | goes p' q' => exact hsame.elim
    | stops =>
      cases step' with
      | holds => exact hsame.elim
      | stops =>
        obtain ⟨rfl, rfl⟩ := Prod.mk.inj (Except.ok.inj hrun)
        refine ⟨hnodes₁, hhere (by simp), fun r hr => (by cases hr), fun e hends => ?_⟩
        rcases (endsAt_iff hread).mp hends with ⟨-, hholds'⟩ | ⟨p, q, hgo, -⟩
        · rw [hstep'] at hholds'
          cases hholds'
        · rw [hstep'] at hgo
          cases hgo
      | goes p' q' => exact hsame.elim
    | goes p q =>
      cases step' with
      | holds => exact hsame.elim
      | stops => exact hsame.elim
      | goes p' q' =>
        obtain ⟨hid, rfl⟩ := hsame
        have hrun' : findNodeFrom node key fuel nodes₁ q p.id p.block = .ok (found, nodes') := hrun
        rw [hid] at hrun'
        obtain ⟨hread', hkeys', hfound, hends⟩ :=
          ih (hbelow p' (wayStep_child hstep')) hnodes₁ hrun'
        refine ⟨hread', fun k => ?_, fun r hr => ?_, fun e he => ?_⟩
        · rw [hkeys' k, hkeys k, or_assoc]
          refine or_congr_right ⟨?_, ?_⟩
          · rintro (rfl | ⟨pos', hway⟩)
            · exact ⟨pos, .self⟩
            · exact ⟨pos', .next hread hstep' hway⟩
          · rintro ⟨pos', hway⟩
            rcases (onWay_iff hread).mp hway with ⟨rfl, -⟩ | ⟨p₀, q₀, hgo, hway⟩
            · exact .inl rfl
            · rw [hstep'] at hgo
              obtain ⟨rfl, rfl⟩ := WayStep.goes.inj (Except.ok.inj hgo)
              exact .inr ⟨pos', hway⟩
        · obtain ⟨e, he, hr'⟩ := hfound r hr
          exact ⟨e, (endsAt_iff hread).mpr (.inr ⟨p', q, hstep', he⟩), hr'⟩
        · rcases (endsAt_iff hread).mp he with ⟨-, hholds'⟩ | ⟨p₀, q₀, hgo, he⟩
          · rw [hstep'] at hholds'
            cases hholds'
          · rw [hstep'] at hgo
            obtain ⟨rfl, rfl⟩ := WayStep.goes.inj (Except.ok.inj hgo)
            exact hends e he

/-- A reader that reads every node on the way as the provider does takes the same way. -/
theorem findNodeFrom_agrees (hfuel : 5 < node.fuel) {exprs : List Expr} {fuel : Nat}
    {block : Option Bytes} (hheld : HeldTree node h) (hnodes : ReadFrom node nodes)
    (hreads : ∀ x pos', OnWay node key h pos x pos' → Agrees node exprs x ∧
      ∀ held v, getRadixNodeLocal node held x = .ok v →
        getRadixNodeLocal (node.storing exprs) held x = .ok v) :
    findNodeFrom (node.storing exprs) key fuel nodes pos h block
      = findNodeFrom node key fuel nodes pos h block := by
  induction fuel generalizing nodes pos h block with
  | zero => rfl
  | succ fuel ih =>
    obtain ⟨hholds, hhash, hread, hbelow⟩ := hheld
    obtain ⟨r', nodes₁, hfetch, halike, hnodes₁, -, hagrees⟩ :=
      fetchNode_spec hnodes hholds hfuel hhash hread block
    obtain ⟨hself, hself'⟩ := hreads h pos .self
    rw [findNodeFrom_succ fuel hfetch, findNodeFrom_succ fuel (hagrees exprs hself hself')]
    refine except_bind_congr fun step hstep => ?_
    obtain ⟨step', hstep', hsame⟩ := wayStep_alike halike hstep
    cases step with
    | holds => rfl
    | stops => rfl
    | goes p q =>
      cases step' with
      | holds => exact hsame.elim
      | stops => exact hsame.elim
      | goes p' q' =>
        obtain ⟨hid, rfl⟩ := hsame
        change findNodeFrom _ key fuel nodes₁ q p.id p.block =
          findNodeFrom node key fuel nodes₁ q p.id p.block
        rw [hid]
        refine ih (hbelow p' (wayStep_child hstep')) hnodes₁ fun x pos' hway => ?_
        exact hreads x pos' (.next hread hstep' hway)

end Walks

end Astreum
