import Astreum.WalkedKeys

namespace Astreum

/-- The hashes that every node knows without a read. -/
def KnownHash (node : Node) (x : Bytes) : Prop :=
  x = zero32 ∨ (builtinTypeOfHash node.blake3 x).isSome = true

/-- What the node rule reaches at the nodes on the way, and the value shape at the value found. -/
def WalkReaches (node : Node) (root key : Bytes) (offset : Int) (valueShape x : Bytes) : Prop :=
  (∃ y pos, OnWay node key root offset y pos ∧ ShapeReaches node radixNodeRule y x) ∨
    ∃ e v rule, EndsAt node key root offset e ∧ e.value = some v ∧
      valueRuleOf valueShape = .ok (some rule) ∧
      ShapeReaches node rule (v.pointer node.blake3).id x

/-- The cell of every value on the way is known or reached. A value that is written as a stored ref
names a cell that the node rule does not reach from the ref. -/
def ValuesReached (node : Node) (root key : Bytes) (offset : Int) (valueShape : Bytes) : Prop :=
  ∀ y pos r v, OnWay node key root offset y pos → getRadixNodeLocal node none y = .ok r →
    r.value = some v → KnownHash node (v.pointer node.blake3).id ∨
      WalkReaches node root key offset valueShape (v.pointer node.blake3).id

/-- A reader whose store was empty and has the exprs follows the same nodes to the same outcome, and
has what the value shape reaches. Each expr comes once, the root first. -/
structure ReplaysWalk (node : Node) (root key : Bytes) (offset : Int) (valueShape : Bytes)
    (exprs : List Expr) : Prop where
  find : ∃ found nodes, findNodeLocal node root key offset = .ok (found, nodes) ∧
    findNodeLocal (node.storing exprs) root key offset = .ok (found, nodes)
  value : ∀ found nodes v rule x, findNodeLocal node root key offset = .ok (found, nodes) →
    found.bind RadixNodeCells.value = some v → valueRuleOf valueShape = .ok (some rule) →
    ShapeReaches node rule (v.pointer node.blake3).id x →
    (node.storing exprs).stored x = node.stored x
  once : (exprs.map node.hash).Nodup
  first : root ≠ zero32 → exprs.head? = node.stored root

section Reading

variable {node : Node} {exprs : List Expr} {sent : Bytes → Prop}

theorem findNodeFrom_reads {key h : Bytes} {pos : Int} {fuel : Nat} {block : Option Bytes}
    {nodes nodes' : ReadNodes} {found : Option RadixNodeCells} (hnodes : ReadFrom node nodes)
    (hrun : findNodeFrom node key fuel nodes pos h block = .ok (found, nodes')) :
    ReadFrom node nodes' := by
  induction fuel generalizing nodes pos h block with
  | zero => cases hrun
  | succ fuel ih =>
    have hfetched : ∀ x nodes₁, fetchNodeLocal node nodes h block = .ok (x, nodes₁) →
        ReadFrom node nodes₁ := by
      intro x nodes₁ hfetch
      rw [fetchNodeLocal] at hfetch
      split at hfetch
      · obtain ⟨-, rfl⟩ := Prod.mk.inj (Except.ok.inj hfetch)
        exact hnodes
      split at hfetch
      · obtain ⟨-, rfl⟩ := Prod.mk.inj (Except.ok.inj hfetch)
        exact hnodes
      split at hfetch
      · rename_i r hread
        obtain ⟨-, rfl⟩ := Prod.mk.inj (Except.ok.inj hfetch)
        intro k v hv
        rw [Dict.get?_insert] at hv
        split at hv
        · rename_i hk
          rw [← Option.some.inj hv, ← hk]
          exact ⟨block, hread⟩
        · exact hnodes k v hv
      · obtain ⟨-, rfl⟩ := Prod.mk.inj (Except.ok.inj hfetch)
        exact hnodes
      · cases hfetch
    rcases hfetch : fetchNodeLocal node nodes h block with err | ⟨_ | r, nodes₁⟩
    · rw [findNodeFrom, hfetch] at hrun
      cases hrun
    · rw [findNodeFrom, hfetch] at hrun
      obtain ⟨-, rfl⟩ := Prod.mk.inj (Except.ok.inj hrun)
      exact hfetched _ _ hfetch
    · rw [findNodeFrom_succ fuel hfetch] at hrun
      obtain ⟨step, -, hrun⟩ := except_bind_eq_ok.mp hrun
      cases step with
      | holds =>
        obtain ⟨-, rfl⟩ := Prod.mk.inj (Except.ok.inj hrun)
        exact hfetched _ _ hfetch
      | stops =>
        obtain ⟨-, rfl⟩ := Prod.mk.inj (Except.ok.inj hrun)
        exact hfetched _ _ hfetch
      | goes p q => exact ih (hfetched _ _ hfetch) hrun

theorem HeldTree.onWay {key h x : Bytes} {pos pos' : Int} (hheld : HeldTree node h)
    (hway : OnWay node key h pos x pos') : HeldTree node x := by
  induction hway with
  | self => exact hheld
  | next hread hstep _ ih =>
    obtain ⟨hholds, hhash, hread', hbelow⟩ := hheld
    rw [hread] at hread'
    obtain rfl := Except.ok.inj hread'
    exact ih (hbelow _ (wayStep_child hstep))

variable (hkeeps : node.KeepsCells) (hsends : Delivers node exprs sent)

include hkeeps hsends

theorem agrees_of_known {x : Bytes} (h : KnownHash node x) : Agrees node exprs x := by
  rcases h with rfl | h
  · rfl
  · obtain ⟨name, hname⟩ := Option.isSome_iff_exists.mp h
    exact agrees_of_type hkeeps hsends hname

/-- What the reader and the provider agree on was sent or is known. -/
theorem reached_of_agrees {x : Bytes} {e : Expr} (h : Agrees node exprs x)
    (hget : getExpr node x = some e) : KnownHash node x ∨ sent x := by
  by_cases hzero : x = zero32
  · exact .inl (.inl hzero)
  rw [Agrees, hget, getExpr, if_neg hzero] at h
  rcases hr : (node.storing exprs).stored x with - | e'
  · rw [hr] at h
    obtain ⟨name, hname, -⟩ := Option.map_eq_some_iff.mp h
    have hname' : builtinTypeOfHash node.blake3 x = some name := hname
    exact .inl (.inr (by rw [hname']; rfl))
  · exact .inr ((stored_storing hkeeps hsends x e').mp hr).1

end Reading

section Replaying

variable {node : Node} {root key valueShape : Bytes} {offset : Int} {exprs : List Expr}

theorem HeldTree.ne_zero (hheld : HeldTree node root) : root ≠ zero32 := by
  obtain ⟨hholds, hhash, -, -⟩ := hheld
  rw [← hhash]
  exact fun hz => hash_spine_ne_zero hholds.spine ((hash_toExpr _ node.blake3).symm.trans hz)

theorem HeldTree.root_kept (hheld : HeldTree node root) :
    ∃ v a b, node.stored root = some (.link v a b) := by
  have hzero := hheld.ne_zero
  obtain ⟨hholds, rfl, -, -⟩ := hheld
  have hget := (congrArg (getExpr node) (hash_toExpr _ node.blake3)).trans
    (hholds.spine.self.trans (congrArg some (stored_spine _ _)))
  exact ⟨_, _, _, stored_of_getExpr hget hzero⟩

theorem walkRadixKey_outside (hwalk : walkRadixKey node root key offset valueShape = .ok exprs)
    (hoffset : ¬(0 ≤ offset ∧ offset ≤ key.length * 8)) : exprs = [] := by
  obtain ⟨valueRule, -, hwalk⟩ := except_bind_eq_ok.mp hwalk
  rw [if_pos hoffset] at hwalk
  exact (Except.ok.inj hwalk).symm

/-- What the walk of a tree that is held in full sends. -/
theorem delivers_walkReaches (hkeeps : node.KeepsCells) (hfuel : 5 < node.fuel)
    (hheld : HeldTree node root)
    (hwalk : walkRadixKey node root key offset valueShape = .ok exprs)
    (hoffset : 0 ≤ offset ∧ offset ≤ key.length * 8) :
    ∃ found nodes, findNodeLocal node root key offset = .ok (found, nodes) ∧
      ReadFrom node nodes ∧ (∀ k, k ∈ nodes.keys ↔ ∃ pos, OnWay node key root offset k pos) ∧
      (∀ r, found = some r → ∃ e, EndsAt node key root offset e ∧ r.Alike node.blake3 e) ∧
      Delivers node exprs (WalkReaches node root key offset valueShape) ∧
      (exprs.map node.hash).Nodup ∧ exprs.head? = node.stored root := by
  obtain ⟨valueRule, found, nodes, hrule, hfind, hsends, hnodup, hfirst⟩ :=
    walkRadixKey_spec hkeeps hwalk hoffset
  have hfrom := hfind
  rw [findNodeLocal, if_neg hheld.ne_zero] at hfrom
  obtain ⟨hnodes, hkeys, hfound, hends⟩ := findNodeFrom_spec hfuel hheld
    (fun k r hr => by cases hr) hfrom
  have hkeys' : ∀ k, k ∈ nodes.keys ↔ ∃ pos, OnWay node key root offset k pos := by
    intro k
    rw [hkeys k]
    exact or_iff_right List.not_mem_nil
  refine ⟨found, nodes, hfind, hnodes, hkeys', hfound, fun e => ?_, hnodup, ?_⟩
  · rw [hsends e]
    refine exists_congr fun x => and_congr_right fun _ => or_congr ?_ ?_
    · constructor
      · rintro ⟨y, hy, hreach⟩
        rcases List.mem_cons.mp hy with rfl | hy
        · exact ⟨y, offset, .self, hreach⟩
        · obtain ⟨pos, hway⟩ := (hkeys' y).mp hy
          exact ⟨y, pos, hway, hreach⟩
      · rintro ⟨y, pos, hway, hreach⟩
        exact ⟨y, List.mem_cons_of_mem _ ((hkeys' y).mpr ⟨pos, hway⟩), hreach⟩
    · constructor
      · rintro ⟨v, rule, hv, rfl, hreach⟩
        obtain ⟨r, hr, hv⟩ := Option.bind_eq_some_iff.mp hv
        obtain ⟨e', he', halike⟩ := hfound r hr
        obtain ⟨v', hv', hid⟩ := halike.value_of hv
        rw [← hid] at hreach
        exact ⟨e', v', rule, he', hv', hrule, hreach⟩
      · rintro ⟨e', v', rule, he', hv', hrule', hreach⟩
        obtain ⟨r, rfl, halike⟩ := hends e' he'
        obtain ⟨v, hv, hid⟩ := halike.symm.value_of hv'
        rw [← hid] at hreach
        rw [hrule] at hrule'
        exact ⟨v, rule, hv, Except.ok.inj hrule', hreach⟩
  · obtain ⟨v, a, b, hroot⟩ := hheld.root_kept
    rw [hroot]
    exact hfirst (skipsHash_of_link hkeeps hroot hheld.ne_zero) _ hroot

theorem walked_onWay {y : Bytes} {pos : Int} (hway : OnWay node key root offset y pos) :
    Walked node (WalkReaches node root key offset valueShape) radixNodeRule y :=
  fun _ hreach => .inl ⟨y, pos, hway, hreach⟩

/-- The reader reads a node on the way exactly if it finds the cell of the value. -/
theorem reads_onWay_iff (hkeeps : node.KeepsCells) (hfuel : 5 < node.fuel)
    (hheld : HeldTree node root)
    (hsends : Delivers node exprs (WalkReaches node root key offset valueShape)) {y : Bytes}
    {pos : Int} {r : RadixNodeCells} {held : Option Bytes}
    (hway : OnWay node key root offset y pos) (hread : getRadixNodeLocal node held y = .ok r) :
    getRadixNodeLocal (node.storing exprs) held y = .ok r ↔
      ∀ v, r.value = some v → KnownHash node (v.pointer node.blake3).id ∨
        WalkReaches node root key offset valueShape (v.pointer node.blake3).id := by
  have hwalked : Walked node (WalkReaches node root key offset valueShape) radixNodeRule _ :=
    walked_onWay hway
  obtain ⟨hholds, rfl, -, -⟩ := hheld.onWay hway
  refine (getRadixNode_agrees hkeeps hsends hholds hfuel hwalked hread).trans ?_
  refine forall₂_congr fun v hv => ?_
  constructor
  · intro hagrees
    obtain ⟨e, he⟩ := node_value_found hkeeps hholds hfuel hread hv
    exact reached_of_agrees hkeeps hsends hagrees he
  · rintro (hknown | hsent)
    · exact agrees_of_known hkeeps hsends hknown
    · exact agrees_of_sent hkeeps hsends hsent

theorem replaysWalk_zero (hkeeps : node.KeepsCells)
    (hwalk : walkRadixKey node zero32 key offset valueShape = .ok exprs) :
    ReplaysWalk node zero32 key offset valueShape exprs := by
  refine ⟨⟨none, .empty, rfl, rfl⟩, fun found nodes v rule x hfind hv _ _ => ?_, ?_,
    fun hne => absurd rfl hne⟩
  · obtain ⟨rfl, -⟩ := Prod.mk.inj (Except.ok.inj hfind)
    cases hv
  · by_cases hoffset : 0 ≤ offset ∧ offset ≤ key.length * 8
    · obtain ⟨-, -, -, -, -, -, hnodup, -⟩ := walkRadixKey_spec hkeeps hwalk hoffset
      exact hnodup
    · rw [walkRadixKey_outside hwalk hoffset]
      exact List.nodup_nil

/-- Where every value on the way is reached, every node on the way is read by the reader. -/
theorem reads_of_valuesReached (hkeeps : node.KeepsCells) (hfuel : 5 < node.fuel)
    (hheld : HeldTree node root)
    (hsends : Delivers node exprs (WalkReaches node root key offset valueShape))
    (hvalues : ValuesReached node root key offset valueShape) {y : Bytes} {pos : Int}
    (hway : OnWay node key root offset y pos) {held : Option Bytes} {r : RadixNodeCells}
    (hread : getRadixNodeLocal node held y = .ok r) :
    getRadixNodeLocal (node.storing exprs) held y = .ok r := by
  refine (reads_onWay_iff hkeeps hfuel hheld hsends hway hread).mpr fun v hv => ?_
  obtain ⟨hholds, rfl, -, -⟩ := hheld.onWay hway
  obtain ⟨r₀, hread₀, halike⟩ := getRadixNode_held hholds hfuel none hread
  obtain ⟨v₀, hv₀, hid⟩ := halike.symm.value_of hv
  rw [← hid]
  exact hvalues _ pos r₀ v₀ hway hread₀ hv₀

/-- A reader that follows the same nodes has found the cell of every value on the way. -/
theorem valuesReached_of_reads (hkeeps : node.KeepsCells) (hfuel : 5 < node.fuel)
    (hheld : HeldTree node root)
    (hsends : Delivers node exprs (WalkReaches node root key offset valueShape))
    (hreads : ∀ y pos, OnWay node key root offset y pos →
      ∃ held r, getRadixNodeLocal (node.storing exprs) held y = .ok r) :
    ValuesReached node root key offset valueShape := by
  intro y pos r v hway hread hv
  obtain ⟨held, r', hread'⟩ := hreads y pos hway
  obtain ⟨hholds, rfl, -, -⟩ := hheld.onWay hway
  obtain ⟨r₁, hread₁, halike⟩ := getRadixNode_held hholds hfuel held hread
  have hwalked : Walked node (WalkReaches node root key offset valueShape) radixNodeRule _ :=
    walked_onWay hway
  obtain rfl := getRadixNode_unique hkeeps hsends hholds hfuel hwalked hread₁ hread'
  obtain ⟨v₁, hv₁, hid⟩ := halike.symm.value_of hv
  rw [← hid]
  exact (reads_onWay_iff hkeeps hfuel hheld hsends hway hread₁).mp hread' v₁ hv₁

/-- The reader replays the walk exactly if the offset is within the key and the cell of every value
on the way is known or reached. -/
theorem walk_replays_iff (hkeeps : node.KeepsCells) (hfuel : 5 < node.fuel)
    (htree : root = zero32 ∨ HeldTree node root)
    (hwalk : walkRadixKey node root key offset valueShape = .ok exprs) :
    ReplaysWalk node root key offset valueShape exprs ↔
      root = zero32 ∨ (0 ≤ offset ∧ offset ≤ key.length * 8) ∧
        ValuesReached node root key offset valueShape := by
  rcases htree with rfl | hheld
  · exact iff_of_true (replaysWalk_zero hkeeps hwalk) (.inl rfl)
  by_cases hoffset : 0 ≤ offset ∧ offset ≤ key.length * 8
  swap
  · refine iff_of_false (fun hreplays => ?_) fun h => ?_
    · obtain ⟨v, a, b, hroot⟩ := hheld.root_kept
      have hfirst := hreplays.first hheld.ne_zero
      rw [walkRadixKey_outside hwalk hoffset, hroot] at hfirst
      cases hfirst
    · exact h.elim hheld.ne_zero fun h => hoffset h.1
  obtain ⟨found, nodes, hfind, hnodes, hkeys, hfound, hsends, hnodup, hfirst⟩ :=
    delivers_walkReaches hkeeps hfuel hheld hwalk hoffset
  have hempty : ∀ node : Node, ReadFrom node .empty := fun node k r hr => by cases hr
  constructor
  · intro hreplays
    refine .inr ⟨hoffset, valuesReached_of_reads hkeeps hfuel hheld hsends fun y pos hway => ?_⟩
    obtain ⟨found', nodes', hfind', hreader⟩ := hreplays.find
    rw [hfind] at hfind'
    obtain ⟨rfl, rfl⟩ := Prod.mk.inj (Except.ok.inj hfind')
    rw [findNodeLocal, if_neg hheld.ne_zero] at hreader
    obtain ⟨kept, hkept⟩ := Option.ne_none_iff_exists'.mp
      (mt Dict.get?_eq_none.mp (not_not.mpr ((hkeys y).mpr ⟨pos, hway⟩)))
    obtain ⟨held, hheld'⟩ := findNodeFrom_reads (hempty _) hreader y kept hkept
    exact ⟨held, kept, hheld'⟩
  · rintro (hzero | ⟨-, hvalues⟩)
    · exact absurd hzero hheld.ne_zero
    refine ⟨⟨found, nodes, hfind, ?_⟩, fun found' nodes' v rule x hfind' hv hrule hreach => ?_,
      hnodup, fun _ => hfirst⟩
    · rw [← hfind, findNodeLocal, findNodeLocal, if_neg hheld.ne_zero, if_neg hheld.ne_zero]
      refine findNodeFrom_agrees hfuel hheld (hempty node) fun y pos hway => ⟨?_, ?_⟩
      · exact agrees_of_walked hkeeps hsends (by simp [radixNodeRule]) (walked_onWay hway)
      · exact fun held r hread =>
          reads_of_valuesReached hkeeps hfuel hheld hsends hvalues hway hread
    · rw [hfind] at hfind'
      obtain ⟨rfl, rfl⟩ := Prod.mk.inj (Except.ok.inj hfind')
      obtain ⟨r, rfl, hv⟩ := Option.bind_eq_some_iff.mp hv
      obtain ⟨e, hends, halike⟩ := hfound r rfl
      obtain ⟨v', hv', hid⟩ := halike.value_of hv
      obtain ⟨-, c, hc⟩ := hreach.stored
      rw [← hid] at hreach
      rw [hc]
      have hsent : WalkReaches node root key offset valueShape x :=
        .inr ⟨e, v', rule, hends, hv', hrule, hreach⟩
      exact (stored_storing hkeeps hsends x c).mpr ⟨hsent, hc⟩

end Replaying

section Samples

variable {node : Node} {cells : List Expr}

/-- A store that does not keep nil under its hash finds it all the same. -/
theorem getExpr_storing_kept (x : Bytes) :
    getExpr (node.storing (cells.filter fun c => decide (c ≠ .nil))) x =
      getExpr (node.storing cells) x := by
  by_cases hzero : x = zero32
  · rw [hzero]
    rfl
  have hfind : (cells.filter fun c => decide (c ≠ .nil)).find? (fun c => c.hash node.blake3 == x) =
      cells.find? fun c => c.hash node.blake3 == x := by
    rw [List.find?_filter]
    congr 1
    funext c
    by_cases hc : c = .nil
    · subst hc
      have hne : ((Expr.nil).hash node.blake3 == x) = false := beq_false_of_ne (Ne.symm hzero)
      simp [hne]
    · simp only [hc, ne_eq, not_false_eq_true, decide_true]
      exact Bool.eq_iff_iff.mpr (by simp)
  rw [getExpr, getExpr]
  simp only [Node.storing, storedAmong, hfind]

theorem keepsCells_storing (hdigest : ∀ x, (node.blake3 x).length = 32)
    (hwritable : ∀ c ∈ cells, c.Writable) (hapart : DistinctHashes node.blake3 cells) :
    (node.storing (cells.filter fun c => decide (c ≠ .nil))).KeepsCells := by
  have hread : ∀ x e, storedAmong node.blake3 (cells.filter fun c => decide (c ≠ .nil)) x = some e →
      ∃ c ∈ cells, c ≠ .nil ∧ c.hash node.blake3 = x ∧ wireOf node.blake3 c = e ∧
        decodeExprFromBytes (encodeExprToBytes node.blake3 c) = .ok e := by
    intro x e h
    obtain ⟨c, hc, hhash, hdecode⟩ := storedAmong_eq_some h
    obtain ⟨hmem, hne⟩ := List.mem_filter.mp hc
    have hwire := decode_writable hdigest (hwritable c hmem)
    rw [hwire] at hdecode
    obtain rfl := Option.some.inj hdecode
    exact ⟨c, hmem, of_decide_eq_true hne, hhash, rfl, hwire⟩
  refine ⟨hdigest, fun x e h => ?_, fun x e h => ?_, fun tag htag e h => ?_⟩
  · obtain ⟨c, -, -, -, -, hdecode⟩ := hread x e h
    exact ⟨_, hdecode⟩
  · obtain ⟨c, hmem, hne, hhash, rfl, -⟩ := hread x e h
    exact (hash_wireOf_writable hne (hwritable c hmem)).trans hhash
  · obtain ⟨c, hmem, -, hhash, rfl, -⟩ := hread _ e h
    rw [hapart.type c hmem tag htag hhash]
    rfl

/-- A node that holds a leaf at the key of one byte, whose value is written as a ref to the cell of
the number 5 in a block. -/
def refLeafNode : Node := (sampleNode 60).storing (refCells.filter fun c => decide (c ≠ .nil))

def refLeafRoot : Bytes := (leafOf refValue).hash sampleDigest

example : refLeafRoot.length = 32 := by decide +kernel

theorem refLeafNode_keeps : refLeafNode.KeepsCells ∧ refLeafNode.Holds (leafOf refValue) := by
  have hdigest : ∀ x, (sampleDigest x).length = 32 := fun x => by simp [sampleDigest]
  have href : refValue.Writable :=
    writable_link trivial (writable_link trivial (writable_link trivial trivial))
  have hleaf : (leafOf refValue).Writable := .inl ⟨rfl, writable_int 8, .inl ⟨rfl, trivial,
    .inl ⟨rfl, trivial, .inl ⟨rfl, trivial, .inl ⟨rfl, href, trivial⟩⟩⟩⟩⟩
  have hcells : ∀ c ∈ refCells, c.Writable := fun c hc => (List.mem_append.mp hc).elim
    (Expr.cells_writable _ hleaf c) (Expr.cells_writable _ (writable_int 5) c)
  have hapart : DistinctHashes sampleDigest refCells :=
    ⟨by decide +kernel, by decide +kernel, by decide +kernel⟩
  have hholds : ((sampleNode 60).storing refCells).Holds (leafOf refValue) :=
    holds_storing hdigest hcells hapart (List.subset_append_left _ _)
  have hkept : ∀ c ∈ (leafOf refValue).cells,
      getExpr refLeafNode (c.hash sampleDigest) = some (c.stored sampleDigest) := fun c hc =>
    (getExpr_storing_kept _).trans (hholds.get c hc)
  have hsub : (leafOf refValue).cells ⊆ refCells := List.subset_append_left _ _
  exact ⟨@keepsCells_storing (sampleNode 60) refCells hdigest hcells hapart, hkept,
    fun c hc => hapart.zero c (hsub hc), fun c hc => hapart.type c (hsub hc)⟩

theorem refLeaf_read : ∃ r, getRadixNodeLocal refLeafNode none refLeafRoot = .ok r ∧
    r.keyLen = 8 ∧ r.key = [1] ∧ r.child0 = none ∧ r.child1 = none ∧
    r.value.map (fun v => (v.pointer sampleDigest).id) = some ((int_ 5).hash sampleDigest) := by
  have hkey : (getRadixNodeLocal refLeafNode none refLeafRoot).map
      (fun r => (r.keyLen, r.key)) = .ok (8, [1]) := by decide +kernel
  have hnames : (getRadixNodeLocal refLeafNode none refLeafRoot).map
      (fun r => (r.child0, r.child1, r.value.map fun v => (v.pointer sampleDigest).id)) =
      .ok (none, none, some ((int_ 5).hash sampleDigest)) := by decide +kernel
  rcases hr : getRadixNodeLocal refLeafNode none refLeafRoot with err | r
  · rw [hr] at hkey
    cases hkey
  · rw [hr] at hkey hnames
    have hkey' := Except.ok.inj hkey
    have hnames' := Except.ok.inj hnames
    simp only [Prod.mk.injEq] at hkey' hnames'
    exact ⟨r, rfl, hkey'.1, hkey'.2, hnames'⟩

theorem refLeaf_heldTree : HeldTree refLeafNode refLeafRoot := by
  obtain ⟨r, hread, -, -, h₀, h₁, -⟩ := refLeaf_read
  refine .mk (n := ⟨8, [1], some (.expr refValue none), none, none⟩)
    (holdsNode_of_holds refLeafNode_keeps.2) rfl hread ?_
  rintro p (hp | hp)
  · rw [h₀] at hp
    cases hp
  · rw [h₁] at hp
    cases hp

/-- The cell that a value names by a ref is not sent, and a reader without it does not find the node
that the provider finds. -/
theorem ref_target_is_left_out :
    refLeafNode.KeepsCells ∧ HeldTree refLeafNode refLeafRoot ∧
    ∃ exprs, walkRadixKey refLeafNode refLeafRoot [1] 0 [] = .ok exprs ∧
      ¬ReplaysWalk refLeafNode refLeafRoot [1] 0 [] exprs := by
  refine ⟨refLeafNode_keeps.1, refLeaf_heldTree, ?_⟩
  have hprovider : (findNodeLocal refLeafNode refLeafRoot [1] 0).map (fun p => p.1.isSome) =
      .ok true := by decide +kernel
  have hreader : (do
      let exprs ← walkRadixKey refLeafNode refLeafRoot [1] 0 []
      let p ← findNodeLocal (refLeafNode.storing exprs) refLeafRoot [1] 0
      return p.1.isSome : Py Bool) = .ok false := by decide +kernel
  obtain ⟨exprs, hwalk, hreader⟩ := except_bind_eq_ok.mp hreader
  obtain ⟨p, hfind, hnone⟩ := except_bind_eq_ok.mp hreader
  refine ⟨exprs, hwalk, fun hreplays => ?_⟩
  obtain ⟨found, nodes, hfound, hfound'⟩ := hreplays.find
  rw [hfound] at hprovider
  rw [hfind] at hfound'
  obtain rfl := Except.ok.inj hfound'
  have hsome : found.isSome = true := Except.ok.inj hprovider
  have hnot : found.isSome = false := Except.ok.inj hnone
  rw [hsome] at hnot
  cases hnot

/-- A value shape that sends the value sends the cell. -/
theorem ref_target_is_sent_with_shape :
    ∃ exprs, walkRadixKey refLeafNode refLeafRoot [1] 0 [1] = .ok exprs ∧
      ReplaysWalk refLeafNode refLeafRoot [1] 0 [1] exprs := by
  obtain ⟨exprs, hwalk⟩ : ∃ exprs, walkRadixKey refLeafNode refLeafRoot [1] 0 [1] = .ok exprs := by
    have hreturns : (walkRadixKey refLeafNode refLeafRoot [1] 0 [1]).map (fun _ => true) =
        .ok true := by decide +kernel
    rcases hwalk : walkRadixKey refLeafNode refLeafRoot [1] 0 [1] with err | exprs
    · rw [hwalk] at hreturns
      cases hreturns
    · exact ⟨exprs, rfl⟩
  refine ⟨exprs, hwalk, (walk_replays_iff refLeafNode_keeps.1 (by decide) (.inr refLeaf_heldTree)
    hwalk).mpr (.inr ⟨by decide, fun y pos r v hway hread hv => .inr (.inr ?_)⟩)⟩
  obtain ⟨r₀, hread₀, hkeyLen, hkey, -, -, hvalue⟩ := refLeaf_read
  have hstep : wayStep [1] r₀ 0 = .ok .holds := by
    rw [wayStep, hkeyLen, hkey]
    rfl
  have hends : EndsAt refLeafNode [1] refLeafRoot 0 r₀ := ⟨_, _, .self, hread₀, hstep⟩
  rcases (onWay_iff hread₀).mp hway with ⟨rfl, rfl⟩ | ⟨p, q, hgo, -⟩
  · rw [hread₀] at hread
    obtain rfl := Except.ok.inj hread
    have hid : (v.pointer sampleDigest).id = (int_ 5).hash sampleDigest := by
      rw [hv] at hvalue
      exact Option.some.inj hvalue
    have hskip : skipsHash refLeafNode ((int_ 5).hash sampleDigest) = false := by decide +kernel
    obtain ⟨e, he⟩ : ∃ e, refLeafNode.stored ((int_ 5).hash sampleDigest) = some e :=
      Option.isSome_iff_exists.mp (by decide +kernel)
    refine ⟨r₀, v, .send, hends, hv, rfl, ?_⟩
    change ShapeReaches refLeafNode .send (v.pointer sampleDigest).id (v.pointer sampleDigest).id
    rw [hid]
    exact .here (by decide) hskip he
  · rw [hstep] at hgo
    cases hgo

end Samples

end Astreum
