import Astreum.Store
import Astreum.Trie

namespace Astreum

/-- A node of a radix tree. A child is held by its hash, and a value by the hash of its expr. -/
structure RadixNode (H : Type) where
  key : List Bool
  value : Option Bytes
  child0 : Option H
  child1 : Option H
  deriving DecidableEq

/-- What `convert_radix_node_to_expr` writes of a node, with nil in the place of no value. -/
structure RadixCell (H : Type) where
  key : List Bool
  value : Bytes
  child0 : Option H
  child1 : Option H
  deriving DecidableEq

structure RadixTree (H : Type) where
  nodes : Dict H (RadixNode H)
  rootHash : Option H

/-- A node on the way to a key, with its hash and the side that the way takes. -/
structure RadixFrame (H : Type) where
  parent : RadixNode H
  oldHash : H
  dirBit : Bool

variable {H : Type}

namespace RadixNode

def cell (n : RadixNode H) : RadixCell H := ⟨n.key, n.value.getD zero32, n.child0, n.child1⟩

def leaf (key : List Bool) (value : Bytes) : RadixNode H := ⟨key, some value, none, none⟩

def child (n : RadixNode H) (bit : Bool) : Option H := if bit then n.child1 else n.child0

def setChild (n : RadixNode H) (bit : Bool) (h : H) : RadixNode H :=
  if bit then { n with child1 := some h } else { n with child0 := some h }

/-- `radix_node_hash`. -/
def hash (blake3 : RadixCell H → H) (n : RadixNode H) : H := blake3 n.cell

end RadixNode

variable [DecidableEq H] (blake3 : RadixCell H → H)

/-- A node that was edited leaves the slot of its old hash for the one of its new hash. -/
def moveNode (nodes : Dict H (RadixNode H)) (oldHash : H) (n : RadixNode H) :
    Dict H (RadixNode H) :=
  (if n.hash blake3 ≠ oldHash then nodes.erase oldHash else nodes).insert (n.hash blake3) n

/-- `_bubble`. -/
def bubble (nodes : Dict H (RadixNode H)) : List (RadixFrame H) → H → RadixTree H
  | [], newHash => ⟨nodes, some newHash⟩
  | frame :: stack, newHash =>
    let parent := frame.parent.setChild frame.dirBit newHash
    bubble (moveNode blake3 nodes frame.oldHash parent) stack (parent.hash blake3)

/-- `_append_leaf`. -/
def appendLeaf (nodes : Dict H (RadixNode H)) (parent : RadixNode H) (dirBit : Bool)
    (tail : List Bool) (value : Bytes) (stack : List (RadixFrame H)) : RadixTree H :=
  let leaf := RadixNode.leaf tail value
  let nodes := nodes.insert (leaf.hash blake3) leaf
  let newParent := parent.setChild dirBit (leaf.hash blake3)
  bubble blake3 (moveNode blake3 nodes (parent.hash blake3) newParent) stack
    (newParent.hash blake3)

/-- `_split_and_insert`. Both keys are read at the bit where they part, which raises where one of
them ends there. -/
def splitAndInsert (nodes : Dict H (RadixNode H)) (node : RadixNode H)
    (stack : List (RadixFrame H)) (rest : List Bool) (value : Bytes) : Py (RadixTree H) :=
  match fork node.key rest with
  | (common, oldDivBit :: oldSuffix, _ :: newTail) =>
    let rekeyed := { node with key := oldSuffix }
    let nodes := moveNode blake3 nodes (node.hash blake3) rekeyed
    let leaf := RadixNode.leaf newTail value
    let nodes := nodes.insert (leaf.hash blake3) leaf
    let internal : RadixNode H := ⟨common, none, none, none⟩
    let internal := (internal.setChild oldDivBit (rekeyed.hash blake3)).setChild (!oldDivBit)
      (leaf.hash blake3)
    .ok (bubble blake3 (nodes.insert (internal.hash blake3) internal) stack
      (internal.hash blake3))
  | _ => .error .indexError

/-- The walk of `put_in_radix_tree` from the node it has reached. -/
def putFrom (tree : RadixTree H) (value : Bytes) :
    Nat → RadixNode H → List (RadixFrame H) → List Bool → Py (RadixTree H)
  | 0, _, _, _ => .error .outOfFuel
  | n + 1, current, stack, rest =>
    match strip? current.key rest with
    | none => splitAndInsert blake3 tree.nodes current stack rest value
    | some [] =>
      if current.value = some value then .ok tree
      else
        let updated := { current with value := some value }
        .ok (bubble blake3 (moveNode blake3 tree.nodes (current.hash blake3) updated) stack
          (updated.hash blake3))
    | some (bit :: tail) =>
      -- a child that is named and not found is taken for none
      match (current.child bit).bind tree.nodes.get? with
      | none => .ok (appendLeaf blake3 tree.nodes current bit tail value stack)
      | some child => putFrom tree value n child (⟨current, current.hash blake3, bit⟩ :: stack) tail

namespace RadixTree

def new : RadixTree H := ⟨.empty, none⟩

/-- `put_in_radix_tree`, on a tree of which storage holds no node. -/
def put (tree : RadixTree H) (key value : Bytes) : Py (RadixTree H) :=
  match tree.rootHash with
  | none =>
    let leaf := RadixNode.leaf (keyBits key) value
    .ok ⟨tree.nodes.insert (leaf.hash blake3) leaf, some (leaf.hash blake3)⟩
  | some root => match tree.nodes.get? root with
    | none => .error .assertionError
    | some current => putFrom blake3 tree value ((keyBits key).length + 1) current [] (keyBits key)

def putAll (puts : List (Bytes × Bytes)) : Py (RadixTree H) :=
  puts.foldlM (fun tree p => tree.put blake3 p.1 p.2) new

/-- `_find_node`, from the node under a hash. -/
def findFrom (tree : RadixTree H) : Nat → H → List Bool → Option (RadixNode H)
  | 0, _, _ => none
  | n + 1, h, rest =>
    match tree.nodes.get? h with
    | none => none
    | some current =>
      match strip? current.key rest with
      | none => none
      | some [] => some current
      | some (bit :: tail) => (current.child bit).bind fun child => tree.findFrom n child tail

/-- `get_from_radix_tree`, up to the read of the expr that the hash names. -/
def get (tree : RadixTree H) (key : Bytes) : Option Bytes :=
  (tree.rootHash.bind fun root =>
    tree.findFrom ((keyBits key).length + 1) root (keyBits key)).bind RadixNode.value

end RadixTree

section Bits

theorem keyBits_cons (byte : UInt8) (key : Bytes) : keyBits (byte :: key) =
    (List.range 8).map (fun i => byte.toNat.testBit (7 - i)) ++ keyBits key := by
  simp [keyBits]

@[simp] theorem length_keyBits (key : Bytes) : (keyBits key).length = 8 * key.length := by
  induction key with
  | nil => rfl
  | cons byte key ih =>
    rw [keyBits_cons, List.length_append, ih, List.length_map, List.length_range, List.length_cons]
    omega

/-- A key is told by its bits. -/
theorem keyBits_inj {key key' : Bytes} : keyBits key = keyBits key' ↔ key = key' := by
  refine ⟨fun h => ?_, congrArg keyBits⟩
  induction key generalizing key' with
  | nil =>
    have hlen := congrArg List.length h
    rw [length_keyBits, length_keyBits] at hlen
    exact (List.length_eq_zero_iff.mp (by simpa using hlen.symm)).symm
  | cons byte key ih =>
    rcases key' with _ | ⟨byte', key'⟩
    · have hlen := congrArg List.length h
      simp at hlen
    rw [keyBits_cons, keyBits_cons] at h
    obtain ⟨hbyte, hkey⟩ := List.append_inj h (by simp)
    have heq : byte.toNat = byte'.toNat := by
      apply Nat.eq_of_testBit_eq
      intro i
      by_cases hi : i < 8
      · have hbit := List.map_inj_left.mp hbyte (7 - i) (List.mem_range.mpr (by omega))
        rwa [show 7 - (7 - i) = i by omega] at hbit
      · have hpow : 2 ^ 8 ≤ 2 ^ i := Nat.pow_le_pow_right (by decide) (by omega)
        rw [Nat.testBit_lt_two_pow (byte.toNat_lt.trans_le hpow),
          Nat.testBit_lt_two_pow (byte'.toNat_lt.trans_le hpow)]
    rw [UInt8.toNat_inj.mp heq, ih hkey]

end Bits

end Astreum
