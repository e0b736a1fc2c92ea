import Astreum.Radix

namespace Astreum

variable {H : Type} (blake3 : RadixCell H → H)

namespace Trie

/-- The hash of the node at the top of a trie. -/
def digest : Trie Bytes → Option H
  | empty => none
  | node bits value zero one =>
    some (RadixNode.hash blake3 ⟨bits, value, zero.digest, one.digest⟩)

/-- The node at the top of a trie. -/
def top : Trie Bytes → RadixNode H
  | empty => ⟨[], none, none, none⟩
  | node bits value zero one => ⟨bits, value, zero.digest blake3, one.digest blake3⟩

def topHash (t : Trie Bytes) : H := (t.top blake3).hash blake3

theorem digest_eq {t : Trie Bytes} (h : t ≠ empty) : t.digest blake3 = some (t.topHash blake3) := by
  cases t with
  | empty => exact absurd rfl h
  | node bits value zero one => rfl

theorem value_top (t : Trie Bytes) : (t.top blake3).value = t.topValue := by
  cases t <;> rfl

/-- No node that the put of a value rewrites has the cell of a node of the trie that results. -/
def Unshared (t : Trie Bytes) (key : List Bool) (v : Bytes) : Prop :=
  ∀ p ∈ t.path key, (p.1.insert p.2 v).topHash blake3 ≠ p.1.topHash blake3 →
    ∀ s ∈ (t.insert key v).subtries, s.topHash blake3 ≠ p.1.topHash blake3

/-- The put of a value is clean: the key does not end inside a node, no node is dropped that the
trie still has, and no node without a value has the cell of one whose value is nil. -/
structure Clean (t : Trie Bytes) (key : List Bool) (v : Bytes) : Prop where
  fits : ¬t.Ends key
  dropped : t.Unshared blake3 key v
  named : ∀ s ∈ (t.insert key v).subtries, ∀ s' ∈ (t.insert key v).subtries,
    s.topHash blake3 = s'.topHash blake3 → s.topValue = s'.topValue

end Trie

instance decidableEnds : (t : Trie Bytes) → (key : List Bool) → Decidable (t.Ends key)
  | .empty, _ => .isFalse id
  | .node bits _ zero one, key =>
    match h : strip? bits key with
    | none => decidable_of_iff (key <+: bits) (by rw [Trie.Ends, h])
    | some [] => .isFalse (by rw [Trie.Ends, h]; exact id)
    | some (false :: tail) =>
      have := decidableEnds zero tail
      decidable_of_iff (zero.Ends tail) (by rw [Trie.Ends, h])
    | some (true :: tail) =>
      have := decidableEnds one tail
      decidable_of_iff (one.Ends tail) (by rw [Trie.Ends, h])

instance [DecidableEq H] (t : Trie Bytes) (key : List Bool) (v : Bytes) :
    Decidable (t.Unshared blake3 key v) :=
  inferInstanceAs (Decidable (∀ p ∈ t.path key,
    (p.1.insert p.2 v).topHash blake3 ≠ p.1.topHash blake3 →
      ∀ s ∈ (t.insert key v).subtries, s.topHash blake3 ≠ p.1.topHash blake3))

instance [DecidableEq H] (t : Trie Bytes) (key : List Bool) (v : Bytes) :
    Decidable (t.Clean blake3 key v) :=
  decidable_of_iff (¬t.Ends key ∧ t.Unshared blake3 key v ∧
      ∀ s ∈ (t.insert key v).subtries, ∀ s' ∈ (t.insert key v).subtries,
        s.topHash blake3 = s'.topHash blake3 → s.topValue = s'.topValue)
    ⟨fun h => ⟨h.1, h.2.1, h.2.2⟩, fun h => ⟨h.fits, h.dropped, h.named⟩⟩

open Trie

section Frames

/-- A node without the trie on one of its sides. -/
structure TrieFrame where
  bits : List Bool
  value : Option Bytes
  bit : Bool
  beside : Trie Bytes

def TrieFrame.fill (f : TrieFrame) (t : Trie Bytes) : Trie Bytes :=
  branch f.bits f.value f.bit t f.beside

/-- The trie around a place, from the node next to it on. -/
def plug : List TrieFrame → Trie Bytes → Trie Bytes
  | [], t => t
  | f :: fs, t => plug fs (f.fill t)

def stackOf : List TrieFrame → Trie Bytes → List (RadixFrame H)
  | [], _ => []
  | f :: fs, t =>
    ⟨(f.fill t).top blake3, (f.fill t).topHash blake3, f.bit⟩ :: stackOf fs (f.fill t)

theorem node_ne_empty (bits : List Bool) {value : Option Bytes} {zero one : Trie Bytes} :
    node bits value zero one ≠ empty := fun h => by cases h

theorem leaf_ne_empty (bits : List Bool) (v : Bytes) : leaf bits v ≠ empty := node_ne_empty bits

theorem fill_ne_empty (f : TrieFrame) (t : Trie Bytes) : f.fill t ≠ empty := by
  rw [TrieFrame.fill, branch]
  split <;> exact fun h => by cases h

theorem mem_subtries_fill {f : TrieFrame} {t s : Trie Bytes} :
    s ∈ (f.fill t).subtries ↔ s = f.fill t ∨ s ∈ t.subtries ∨ s ∈ f.beside.subtries := by
  rcases f with ⟨bits, value, _ | _, beside⟩
  · simp [TrieFrame.fill, branch, subtries]
  · simp [TrieFrame.fill, branch, subtries, or_comm]

theorem mem_subtries_self {t : Trie Bytes} (h : t ≠ empty) : t ∈ t.subtries := by
  cases t with
  | empty => exact absurd rfl h
  | node bits value zero one => exact List.mem_cons_self

theorem mem_plug {fs : List TrieFrame} {t s : Trie Bytes} (h : s ∈ t.subtries) :
    s ∈ (plug fs t).subtries := by
  induction fs generalizing t with
  | nil => exact h
  | cons f fs ih => exact ih (mem_subtries_fill.mpr (.inr (.inl h)))

theorem mem_plug_beside {fs : List TrieFrame} {f : TrieFrame} {t s : Trie Bytes} (hf : f ∈ fs)
    (h : s ∈ f.beside.subtries) : s ∈ (plug fs t).subtries := by
  induction fs generalizing t with
  | nil => cases hf
  | cons g fs ih =>
    rcases List.mem_cons.mp hf with rfl | hf
    · exact mem_plug (t := TrieFrame.fill _ t) (mem_subtries_fill.mpr (.inr (.inr h)))
    · exact ih hf

theorem setChild_top (f : TrieFrame) (t : Trie Bytes) {t' : Trie Bytes} (h : t' ≠ empty) :
    ((f.fill t).top blake3).setChild f.bit (t'.topHash blake3) = (f.fill t').top blake3 := by
  have hd := digest_eq blake3 h
  rcases f with ⟨bits, value, _ | _, beside⟩ <;>
    simp [TrieFrame.fill, branch, top, RadixNode.setChild, hd]

end Frames

section Slots

variable [DecidableEq H] {blake3} {nodes : Dict H (RadixNode H)} {s t : Trie Bytes}

/-- The node at the top of a trie is in its slot. -/
def Held (blake3 : RadixCell H → H) (nodes : Dict H (RadixNode H)) (t : Trie Bytes) : Prop :=
  nodes.get? (t.topHash blake3) = some (t.top blake3)

/-- No node of a trie has the cell of another one that differs in having no value. -/
def Named (blake3 : RadixCell H → H) (t : Trie Bytes) : Prop :=
  ∀ s ∈ t.subtries, ∀ s' ∈ t.subtries,
    s.topHash blake3 = s'.topHash blake3 → s.topValue = s'.topValue

omit [DecidableEq H] in
/-- Nodes of one cell are one where they have one value. -/
theorem top_eq (hinj : Function.Injective blake3) (hhash : s.topHash blake3 = t.topHash blake3)
    (hvalue : s.topValue = t.topValue) : s.top blake3 = t.top blake3 := by
  have hcell := hinj hhash
  rw [RadixNode.cell, RadixNode.cell, RadixCell.mk.injEq] at hcell
  have hs := value_top blake3 s
  have ht := value_top blake3 t
  rcases hst : s.top blake3 with ⟨bits, value, zero, one⟩
  rcases htt : t.top blake3 with ⟨bits', value', zero', one'⟩
  rw [hst] at hcell hs
  rw [htt] at hcell ht
  obtain ⟨rfl, -, rfl, rfl⟩ := hcell
  rw [show value = value' from hs.trans (hvalue.trans ht.symm)]

theorem held_insert_self : Held blake3 (nodes.insert (t.topHash blake3) (t.top blake3)) t :=
  Dict.get?_insert_self _ _ _

theorem held_insert (hinj : Function.Injective blake3) (hs : Held blake3 nodes s)
    (hname : s.topHash blake3 = t.topHash blake3 → s.topValue = t.topValue) :
    Held blake3 (nodes.insert (t.topHash blake3) (t.top blake3)) s := by
  rw [Held, Dict.get?_insert]
  split
  · rename_i h
    rw [top_eq hinj h.symm (hname h.symm)]
  · exact hs

theorem held_move_self (old : H) : Held blake3 (moveNode blake3 nodes old (t.top blake3)) t :=
  Dict.get?_insert_self _ _ _

/-- An edit keeps the nodes that do not lose their slot to it. -/
theorem held_move (hinj : Function.Injective blake3) {old : H} (hs : Held blake3 nodes s)
    (hdrop : t.topHash blake3 ≠ old → s.topHash blake3 ≠ old)
    (hname : s.topHash blake3 = t.topHash blake3 → s.topValue = t.topValue) :
    Held blake3 (moveNode blake3 nodes old (t.top blake3)) s := by
  refine held_insert hinj ?_ hname
  split
  · rename_i h
    rw [Held, Dict.get?_erase_of_ne _ (hdrop h)]
    exact hs
  · exact hs

end Slots

section Writes

variable [DecidableEq H] {blake3} {nodes : Dict H (RadixNode H)} {whole t t' : Trie Bytes}
  {fs : List TrieFrame}

/-- A rewritten node has no cell of a trie any more. -/
def Drops (blake3 : RadixCell H → H) (whole old new : Trie Bytes) : Prop :=
  new.topHash blake3 ≠ old.topHash blake3 →
    ∀ s ∈ whole.subtries, s.topHash blake3 ≠ old.topHash blake3

/-- The nodes around a place are rewritten without harm. -/
def DropsAll (blake3 : RadixCell H → H) (whole : Trie Bytes) :
    List TrieFrame → Trie Bytes → Trie Bytes → Prop
  | [], _, _ => True
  | f :: fs, old, new =>
    Drops blake3 whole (f.fill old) (f.fill new) ∧ DropsAll blake3 whole fs (f.fill old) (f.fill new)

/-- The tree is this trie, with every node in its slot. -/
structure RadixTree.Represents (blake3 : RadixCell H → H) (tree : RadixTree H) (t : Trie Bytes) :
    Prop where
  root : tree.rootHash = t.digest blake3
  held : ∀ s ∈ t.subtries, Held blake3 tree.nodes s

theorem bubble_represents (hinj : Function.Injective blake3) (hne : t' ≠ empty)
    (hwhole : plug fs t' = whole) (hin : ∀ s ∈ t'.subtries, Held blake3 nodes s)
    (hout : ∀ f ∈ fs, ∀ s ∈ f.beside.subtries, Held blake3 nodes s)
    (hdrops : DropsAll blake3 whole fs t t') (hnamed : Named blake3 whole) :
    (bubble blake3 nodes (stackOf blake3 fs t) (t'.topHash blake3)).Represents blake3 whole := by
  induction fs generalizing t t' nodes with
  | nil =>
    subst hwhole
    exact ⟨(digest_eq blake3 hne).symm, hin⟩
  | cons f fs ih =>
    rw [stackOf, bubble, setChild_top blake3 f t hne]
    have hplug : plug fs (f.fill t') = whole := hwhole
    have hnew : f.fill t' ∈ whole.subtries :=
      hplug ▸ mem_plug (mem_subtries_self (fill_ne_empty f t'))
    have hkept : ∀ s ∈ whole.subtries, Held blake3 nodes s → Held blake3
        (moveNode blake3 nodes ((f.fill t).topHash blake3) ((f.fill t').top blake3)) s :=
      fun s hs hheld => held_move hinj hheld (fun h => hdrops.1 h s hs) (hnamed s hs _ hnew)
    refine ih (fill_ne_empty f t') hplug ?_ ?_ hdrops.2
    · intro s hs
      have hmem : s ∈ whole.subtries := hplug ▸ mem_plug hs
      rcases mem_subtries_fill.mp hs with rfl | hs | hs
      · exact held_move_self _
      · exact hkept s hmem (hin s hs)
      · exact hkept s hmem (hout f List.mem_cons_self s hs)
    · intro g hg s hs
      have hmem : s ∈ whole.subtries :=
        hwhole ▸ mem_plug_beside (List.mem_cons_of_mem f hg) hs
      exact hkept s hmem (hout g (List.mem_cons_of_mem f hg) s hs)

theorem appendLeaf_represents (hinj : Function.Injective blake3) (f : TrieFrame) (rest : List Bool)
    (v : Bytes) (hwhole : plug (f :: fs) (leaf rest v) = whole)
    (hout : ∀ g ∈ f :: fs, ∀ s ∈ g.beside.subtries, Held blake3 nodes s)
    (hdrops : DropsAll blake3 whole (f :: fs) empty (leaf rest v)) (hnamed : Named blake3 whole) :
    (appendLeaf blake3 nodes ((f.fill empty).top blake3) f.bit rest v
      (stackOf blake3 fs (f.fill empty))).Represents blake3 whole := by
  have hleaf : leaf rest v ∈ whole.subtries := by
    rw [← hwhole]
    exact mem_plug (mem_subtries_self (t := leaf rest v) nofun)
  have hne : leaf rest v ≠ empty := nofun
  change (bubble blake3 (nodes.insert ((leaf rest v).topHash blake3) ((leaf rest v).top blake3))
    (stackOf blake3 (f :: fs) empty) ((leaf rest v).topHash blake3)).Represents blake3 whole
  refine bubble_represents hinj hne hwhole ?_ ?_ hdrops hnamed
  · intro s hs
    obtain rfl : s = leaf rest v := by simpa [leaf, subtries] using hs
    exact held_insert_self
  · intro g hg s hs
    have hmem : s ∈ whole.subtries := hwhole ▸ mem_plug_beside hg hs
    exact held_insert hinj (hout g hg s hs) (hnamed s hmem _ hleaf)

theorem splitAndInsert_represents (hinj : Function.Injective blake3) {bits rest : List Bool}
    {value : Option Bytes} {zero one : Trie Bytes} {v : Bytes} (ht : t = node bits value zero one)
    (hs : strip? bits rest = none) (hends : ¬t.Ends rest)
    (hwhole : plug fs (t.insert rest v) = whole) (hin : ∀ s ∈ t.subtries, Held blake3 nodes s)
    (hout : ∀ f ∈ fs, ∀ s ∈ f.beside.subtries, Held blake3 nodes s)
    (hdrop : Drops blake3 whole t (t.insert rest v))
    (hdrops : DropsAll blake3 whole fs t (t.insert rest v)) (hnamed : Named blake3 whole) :
    ∃ tree, splitAndInsert blake3 nodes (t.top blake3) (stackOf blake3 fs t) rest v = .ok tree ∧
      tree.Represents blake3 whole := by
  subst ht
  obtain ⟨shared, b, left, right, rfl, rfl, hfork, hsplit⟩ := split_eq (v := v) hs hends
  let old := node left value zero one
  let new := leaf right v
  have hinsert : (node (shared ++ b :: left) value zero one).insert (shared ++ (!b) :: right) v =
      (TrieFrame.mk shared none b new).fill old := by
    rw [Trie.insert, hs]
    exact hsplit
  rw [hinsert] at hwhole hdrop hdrops
  let above := (TrieFrame.mk shared none b new).fill old
  -- the bits of the node get shorter, so its old cell is gone
  have hlost : ∀ s ∈ whole.subtries, s.topHash blake3 ≠
      (node (shared ++ b :: left) value zero one).topHash blake3 := by
    refine hdrop fun h => ?_
    have hkey := congrArg (fun cell => cell.key.length) (hinj h)
    cases b <;> simp [TrieFrame.fill, branch, top, RadixNode.cell] at hkey
  have hmem : ∀ s ∈ above.subtries, s ∈ whole.subtries := fun s hs => hwhole ▸ mem_plug hs
  have hnew : new ∈ above.subtries :=
    mem_subtries_fill.mpr (.inr (.inr (mem_subtries_self (leaf_ne_empty right v))))
  have hold : old ∈ above.subtries :=
    mem_subtries_fill.mpr (.inr (.inl (mem_subtries_self (node_ne_empty left))))
  have hself : above ∈ above.subtries := mem_subtries_self (fill_ne_empty _ old)
  let nodes₁ := moveNode blake3 nodes
    ((node (shared ++ b :: left) value zero one).topHash blake3) (old.top blake3)
  let nodes₂ := nodes₁.insert (new.topHash blake3) (new.top blake3)
  let nodes₃ := nodes₂.insert (above.topHash blake3) (above.top blake3)
  have hlater : ∀ s ∈ whole.subtries, Held blake3 nodes₁ s → Held blake3 nodes₃ s :=
    fun s hs hheld => held_insert hinj (held_insert hinj hheld (hnamed s hs _ (hmem _ hnew)))
      (hnamed s hs _ (hmem _ hself))
  have hkept : ∀ s ∈ whole.subtries, Held blake3 nodes s → Held blake3 nodes₃ s :=
    fun s hs hheld => hlater s hs
      (held_move hinj hheld (fun _ => hlost s hs) (hnamed s hs _ (hmem _ hold)))
  refine ⟨bubble blake3 nodes₃ (stackOf blake3 fs (node (shared ++ b :: left) value zero one))
    (above.topHash blake3), ?_, ?_⟩
  · rw [splitAndInsert, show (top blake3 (node (shared ++ b :: left) value zero one)).key =
      shared ++ b :: left from rfl, hfork]
    cases b <;> rfl
  · refine bubble_represents hinj (fill_ne_empty _ old) hwhole ?_ ?_ hdrops hnamed
    · intro s hs
      have hs' := hmem s hs
      rcases mem_subtries_fill.mp hs with rfl | hs | hs
      · exact held_insert_self
      · rcases List.mem_cons.mp hs with rfl | hs
        · exact hlater _ hs' (held_move_self _)
        · exact hkept s hs' (hin s (List.mem_cons_of_mem _ hs))
      · obtain rfl : s = new := by simpa [new, leaf, subtries] using hs
        exact held_insert hinj held_insert_self (hnamed _ hs' _ (hmem _ hself))
    · intro f hf s hs
      exact hkept s (hwhole ▸ mem_plug_beside hf hs) (hout f hf s hs)

theorem held_of_mem_plug (h : ∀ s ∈ (plug fs t).subtries, Held blake3 nodes s) :
    (∀ s ∈ t.subtries, Held blake3 nodes s) ∧
      ∀ f ∈ fs, ∀ s ∈ f.beside.subtries, Held blake3 nodes s :=
  ⟨fun s hs => h s (mem_plug hs), fun _ hf s hs => h s (mem_plug_beside hf hs)⟩

/-- The walk goes on in the trie on one side, or appends a leaf where there is none. -/
theorem putFrom_child (hinj : Function.Injective blake3) {tree : RadixTree H} {v : Bytes} {n : Nat}
    {tail : List Bool} {f : TrieFrame} {c : Trie Bytes}
    (ih : c ≠ empty → tree.Represents blake3 (plug (f :: fs) c) →
      DropsAll blake3 whole (f :: fs) c (c.insert tail v) →
      ∃ tree', putFrom blake3 tree v n (c.top blake3) (stackOf blake3 (f :: fs) c) tail =
        .ok tree' ∧ tree'.Represents blake3 whole)
    (htree : tree.Represents blake3 (plug fs (f.fill c)))
    (hchild : ((f.fill c).top blake3).child f.bit = c.digest blake3)
    (hout : ∀ g ∈ fs, ∀ s ∈ g.beside.subtries, Held blake3 tree.nodes s)
    (hwhole : plug fs (f.fill (c.insert tail v)) = whole)
    (hdrop : Drops blake3 whole (f.fill c) (f.fill (c.insert tail v)))
    (hdrops : DropsAll blake3 whole fs (f.fill c) (f.fill (c.insert tail v)))
    (hnamed : Named blake3 whole) :
    ∃ tree', (match (((f.fill c).top blake3).child f.bit).bind tree.nodes.get? with
      | none => .ok (appendLeaf blake3 tree.nodes ((f.fill c).top blake3) f.bit tail v
          (stackOf blake3 fs (f.fill c)))
      | some child => putFrom blake3 tree v n child
          (⟨(f.fill c).top blake3, ((f.fill c).top blake3).hash blake3, f.bit⟩ ::
            stackOf blake3 fs (f.fill c)) tail : Py (RadixTree H)) = .ok tree' ∧
      tree'.Represents blake3 whole := by
  rw [hchild]
  by_cases hc : c = empty
  · subst hc
    refine ⟨_, rfl, appendLeaf_represents hinj f tail v hwhole ?_ ⟨hdrop, hdrops⟩ hnamed⟩
    intro g hg s hs
    rcases List.mem_cons.mp hg with rfl | hg
    · exact htree.held s (mem_plug (mem_subtries_fill.mpr (.inr (.inr hs))))
    · exact hout g hg s hs
  · have hheld : Held blake3 tree.nodes c :=
      htree.held c (mem_plug (mem_subtries_fill.mpr (.inr (.inl (mem_subtries_self hc)))))
    rw [digest_eq blake3 hc, Option.bind_some, show tree.nodes.get? (c.topHash blake3) = _ from hheld]
    exact ih hc htree ⟨hdrop, hdrops⟩

/-- The walk from a node on puts the value into the trie under it. -/
theorem putFrom_represents (hinj : Function.Injective blake3) {tree : RadixTree H} {v : Bytes}
    {n : Nat} {rest : List Bool} (hne : t ≠ empty) (hfuel : rest.length < n)
    (hwhole : plug fs (t.insert rest v) = whole) (hends : ¬t.Ends rest)
    (htree : tree.Represents blake3 (plug fs t))
    (hpath : ∀ p ∈ t.path rest, Drops blake3 whole p.1 (p.1.insert p.2 v))
    (hdrops : DropsAll blake3 whole fs t (t.insert rest v)) (hnamed : Named blake3 whole) :
    ∃ tree', putFrom blake3 tree v n (t.top blake3) (stackOf blake3 fs t) rest = .ok tree' ∧
      tree'.Represents blake3 whole := by
  induction t generalizing fs rest n with
  | empty => exact absurd rfl hne
  | node bits value zero one ihz iho =>
    obtain ⟨hin, hout⟩ := held_of_mem_plug htree.held
    have hdrop : Drops blake3 whole (node bits value zero one)
        ((node bits value zero one).insert rest v) := hpath (_, rest) List.mem_cons_self
    rcases n with _ | n
    · cases hfuel
    rw [putFrom, show (top blake3 (node bits value zero one)).key = bits from rfl]
    rcases hs : strip? bits rest with _ | ⟨_ | ⟨b, tail⟩⟩
    · exact splitAndInsert_represents hinj rfl hs hends hwhole hin hout hdrop hdrops hnamed
    · simp only
      obtain rfl := (strip?_eq_some.mp hs).trans (List.append_nil bits)
      have hinsert : (node rest value zero one).insert rest v = node rest (some v) zero one := by
        rw [Trie.insert, hs]
      rw [hinsert] at hwhole hdrop hdrops
      by_cases hv : value = some v
      · subst hv
        exact ⟨tree, if_pos rfl, hwhole ▸ htree⟩
      · refine ⟨_, if_neg hv, ?_⟩
        have hself : node rest (some v) zero one ∈ whole.subtries :=
          hwhole ▸ mem_plug List.mem_cons_self
        have hkept : ∀ s ∈ whole.subtries, Held blake3 tree.nodes s → Held blake3
            (moveNode blake3 tree.nodes ((node rest value zero one).topHash blake3)
              ((node rest (some v) zero one).top blake3)) s :=
          fun s hs hheld => held_move hinj hheld (fun h => hdrop h s hs) (hnamed s hs _ hself)
        have hne' : node rest (some v) zero one ≠ empty := node_ne_empty rest
        refine bubble_represents hinj hne' hwhole ?_ ?_ hdrops hnamed
        · intro s hs'
          have hmem : s ∈ whole.subtries := hwhole ▸ mem_plug hs'
          rcases List.mem_cons.mp hs' with rfl | hs'
          · exact held_move_self _
          · exact hkept s hmem (hin s (List.mem_cons_of_mem _ hs'))
        · intro f hf s hs'
          exact hkept s (hwhole ▸ mem_plug_beside hf hs') (hout f hf s hs')
    · simp only
      rw [Ends, hs] at hends
      rw [Trie.path, hs] at hpath
      rw [Trie.insert, hs] at hwhole hdrop hdrops
      have hlen : tail.length < n := by
        have hrest := congrArg List.length (strip?_eq_some.mp hs)
        rw [List.length_append, List.length_cons] at hrest
        omega
      cases b with
      | false =>
        refine putFrom_child hinj (f := ⟨bits, value, false, one⟩) (c := zero) ?_ htree rfl hout
          hwhole hdrop hdrops hnamed
        exact fun hz htree' hdrops' => ihz hz hlen hwhole hends htree'
          (fun p hp => hpath p (List.mem_cons_of_mem _ hp)) hdrops'
      | true =>
        refine putFrom_child hinj (f := ⟨bits, value, true, zero⟩) (c := one) ?_ htree rfl hout
          hwhole hdrop hdrops hnamed
        exact fun ho htree' hdrops' => iho ho hlen hwhole hends htree'
          (fun p hp => hpath p (List.mem_cons_of_mem _ hp)) hdrops'

theorem put_represents (hinj : Function.Injective blake3) {tree : RadixTree H} {key v : Bytes}
    (htree : tree.Represents blake3 t) (hclean : t.Clean blake3 (keyBits key) v) :
    ∃ tree', tree.put blake3 key v = .ok tree' ∧
      tree'.Represents blake3 (t.insert (keyBits key) v) := by
  by_cases ht : t = empty
  · subst ht
    rw [RadixTree.put, htree.root, digest]
    refine ⟨_, rfl, rfl, fun s hs => ?_⟩
    obtain rfl : s = leaf (keyBits key) v := by simpa [Trie.insert, leaf, subtries] using hs
    exact held_insert_self (t := leaf (keyBits key) v)
  · have hheld : tree.nodes.get? (t.topHash blake3) = some (t.top blake3) :=
      htree.held t (mem_subtries_self ht)
    rw [RadixTree.put, htree.root, digest_eq blake3 ht]
    simp only [hheld]
    have hwhole : plug [] (t.insert (keyBits key) v) = t.insert (keyBits key) v := rfl
    exact putFrom_represents hinj ht (Nat.lt_succ_self _) hwhole hclean.fits htree
      hclean.dropped trivial hclean.named

theorem findFrom_eq_lookup {tree : RadixTree H} {n : Nat} {rest : List Bool} (hne : t ≠ empty)
    (hfuel : rest.length < n) (hheld : ∀ s ∈ t.subtries, Held blake3 tree.nodes s) :
    (tree.findFrom n (t.topHash blake3) rest).bind RadixNode.value = t.lookup rest := by
  induction t generalizing n rest with
  | empty => exact absurd rfl hne
  | node bits value zero one ihz iho =>
    rcases n with _ | n
    · cases hfuel
    have hself : tree.nodes.get? ((node bits value zero one).topHash blake3) =
        some ((node bits value zero one).top blake3) := hheld _ List.mem_cons_self
    have hzero : ∀ s ∈ zero.subtries, Held blake3 tree.nodes s := fun s hs =>
      hheld s (List.mem_cons_of_mem _ (List.mem_append_left _ hs))
    have hone : ∀ s ∈ one.subtries, Held blake3 tree.nodes s := fun s hs =>
      hheld s (List.mem_cons_of_mem _ (List.mem_append_right _ hs))
    rw [RadixTree.findFrom, hself]
    simp only [show (top blake3 (node bits value zero one)).key = bits from rfl]
    rcases hs : strip? bits rest with _ | ⟨_ | ⟨b, tail⟩⟩
    · simp [lookup, hs]
    · simp [lookup, hs, top]
    · have hlen : tail.length < n := by
        have hrest := congrArg List.length (strip?_eq_some.mp hs)
        rw [List.length_append, List.length_cons] at hrest
        omega
      cases b with
      | false =>
        rw [lookup, hs]
        simp only [RadixNode.child, top, Bool.false_eq_true, if_false]
        by_cases hz : zero = empty
        · subst hz
          rfl
        · rw [digest_eq blake3 hz]
          exact ihz hz hlen hzero
      | true =>
        rw [lookup, hs]
        simp only [RadixNode.child, top, if_true]
        by_cases ho : one = empty
        · subst ho
          rfl
        · rw [digest_eq blake3 ho]
          exact iho ho hlen hone

theorem get_eq_lookup {tree : RadixTree H} (htree : tree.Represents blake3 t) (key : Bytes) :
    tree.get key = t.lookup (keyBits key) := by
  rw [RadixTree.get, htree.root]
  by_cases ht : t = empty
  · subst ht
    rfl
  · rw [digest_eq blake3 ht]
    exact findFrom_eq_lookup ht (Nat.lt_succ_self _) htree.held

end Writes

section Runs

variable [DecidableEq H] {blake3}

/-- The trie that these puts make of another. -/
def putsInto (t : Trie Bytes) (puts : List (Bytes × Bytes)) : Trie Bytes :=
  puts.foldl (fun t p => t.insert (keyBits p.1) p.2) t

/-- Every put is clean where it comes. -/
def CleanPuts (blake3 : RadixCell H → H) : Trie Bytes → List (Bytes × Bytes) → Prop
  | _, [] => True
  | t, p :: puts =>
    t.Clean blake3 (keyBits p.1) p.2 ∧ CleanPuts blake3 (t.insert (keyBits p.1) p.2) puts

instance decidableCleanPuts : (t : Trie Bytes) → (puts : List (Bytes × Bytes)) →
    Decidable (CleanPuts blake3 t puts)
  | _, [] => .isTrue trivial
  | t, p :: puts =>
    have := decidableCleanPuts (t.insert (keyBits p.1) p.2) puts
    inferInstanceAs (Decidable (_ ∧ _))

/-- The value of the last put of a key. -/
def lastPut (puts : List (Bytes × Bytes)) (key : Bytes) : Option Bytes :=
  puts.foldl (fun last p => if p.1 = key then some p.2 else last) none

theorem represents_new : (RadixTree.new : RadixTree H).Represents blake3 empty :=
  ⟨rfl, fun s hs => by cases hs⟩

theorem putAll_represents (hinj : Function.Injective blake3) {tree : RadixTree H} {t : Trie Bytes}
    {puts : List (Bytes × Bytes)} (htree : tree.Represents blake3 t)
    (hclean : CleanPuts blake3 t puts) :
    ∃ tree', puts.foldlM (fun tree p => tree.put blake3 p.1 p.2) tree = .ok tree' ∧
      tree'.Represents blake3 (putsInto t puts) := by
  induction puts generalizing tree t with
  | nil => exact ⟨tree, rfl, htree⟩
  | cons p puts ih =>
    obtain ⟨tree', hput, htree'⟩ := put_represents hinj htree hclean.1
    obtain ⟨tree'', hputs, htree''⟩ := ih htree' hclean.2
    exact ⟨tree'', by rw [List.foldlM_cons, hput]; exact hputs, htree''⟩

omit [DecidableEq H] in
theorem lookup_putsInto {t : Trie Bytes} {puts : List (Bytes × Bytes)}
    (hclean : CleanPuts blake3 t puts) (key : Bytes) :
    (putsInto t puts).lookup (keyBits key) =
      puts.foldl (fun last p => if p.1 = key then some p.2 else last) (t.lookup (keyBits key)) := by
  induction puts generalizing t with
  | nil => rfl
  | cons p puts ih =>
    have hrest := ih hclean.2
    rw [lookup_insert hclean.1.fits] at hrest
    rw [putsInto, List.foldl_cons, List.foldl_cons]
    refine hrest.trans (congrArg (fun last => puts.foldl _ last) ?_)
    by_cases hp : p.1 = key
    · rw [if_pos hp, if_pos (by rw [hp])]
    · rw [if_neg hp, if_neg fun h => hp (keyBits_inj.mp h).symm]

/-- Over puts that are all clean a radix tree is the map of the last values. -/
theorem radix_tree_is_map (hinj : Function.Injective blake3) {puts : List (Bytes × Bytes)}
    (hclean : CleanPuts blake3 empty puts) :
    ∃ tree, RadixTree.putAll blake3 puts = .ok tree ∧ ∀ key, tree.get key = lastPut puts key := by
  obtain ⟨tree, hputs, htree⟩ := putAll_represents hinj represents_new hclean
  refine ⟨tree, hputs, fun key => ?_⟩
  rw [get_eq_lookup htree, lookup_putsInto hclean]
  rfl

end Runs

section Samples

/-- Hashes that tell what was hashed. -/
inductive Digest where
  | absent
  | child (d : Digest)
  | cell (key : List Bool) (value : Bytes) (child0 child1 : Digest)
  deriving DecidableEq

namespace Digest

def ofChild (child : Option Digest) : Digest := child.elim absent Digest.child

/-- A hash function without collisions. -/
def of (c : RadixCell Digest) : Digest := cell c.key c.value (ofChild c.child0) (ofChild c.child1)

theorem ofChild_injective : Function.Injective ofChild := by
  intro x y h
  cases x <;> cases y <;> simp_all [ofChild]

theorem of_injective : Function.Injective of := by
  intro c c' h
  obtain ⟨hkey, hvalue, hzero, hone⟩ := Digest.cell.inj h
  cases c
  cases c'
  rw [RadixCell.mk.injEq]
  exact ⟨hkey, hvalue, ofChild_injective hzero, ofChild_injective hone⟩

end Digest

/-- A leaf under each bit, of which one is changed. -/
theorem three_puts_are_a_map :
    ∃ tree, RadixTree.putAll Digest.of [([0], [1]), ([128], [2]), ([0], [3])] = .ok tree ∧
      tree.get [0] = some [3] ∧ tree.get [128] = some [2] ∧ tree.get [] = none := by
  obtain ⟨tree, hputs, hget⟩ := radix_tree_is_map Digest.of_injective
    (by decide : CleanPuts Digest.of .empty [([0], [1]), ([128], [2]), ([0], [3])])
  exact ⟨tree, hputs, by rw [hget]; decide, by rw [hget]; decide, by rw [hget]; decide⟩

/-- Two leaves of one cell share a slot, which a put to one of them drops; and a key that ends
inside a node raises. -/
theorem equal_leaf_is_lost :
    Function.Injective Digest.of ∧
      (RadixTree.putAll Digest.of [([0], [1]), ([128], [1]), ([0], [2])]).map
        (fun tree => tree.get [128]) = .ok none ∧
      lastPut [([0], [1]), ([128], [1]), ([0], [2])] [128] = some [1] ∧
      (RadixTree.putAll Digest.of [([0, 0], [1]), ([0], [1])]).map (fun tree => tree.get [0]) =
        .error .indexError :=
  ⟨Digest.of_injective, by decide, by decide, by decide⟩

end Samples

end Astreum
