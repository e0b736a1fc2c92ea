import Astreum.PlannedClaims
import Astreum.HashTreeBinding

namespace Astreum

/-- No two of the inputs have the same digest. -/
def CollisionFree (blake3 : Bytes → Bytes) (inputs : List Bytes) : Prop :=
  ∀ x ∈ inputs, ∀ y ∈ inputs, blake3 x = blake3 y → x = y

section Inputs

variable (blake3 : Bytes → Bytes)

def nodeInput (p : Bytes × Bytes) : Bytes := 1 :: p.1 ++ p.2

/-- What `create_merkle_tree` hashes. -/
def treeInputs (values : List Bytes) : List Bytes :=
  values.map (List.cons 0) ++ (HashTree.joins (merkleNode blake3) values.length
    (values.map (merkleLeaf blake3))).map nodeInput

/-- What `verify_merkle_tree_proof` hashes. -/
def proofInputs (count index : Nat) (value : Bytes) (proof : List Bytes) : List Bytes :=
  (0 :: value) :: (HashTree.climbed (merkleNode blake3) count index (count - 1)
    (merkleLeaf blake3 value) proof).map nodeInput

end Inputs

section Binding

variable {blake3 : Bytes → Bytes} {xs ys : List Bytes} {values others : List Bytes}

theorem CollisionFree.symm (h : CollisionFree blake3 (xs ++ ys)) :
    CollisionFree blake3 (ys ++ xs) :=
  fun x hx y hy => h x (List.mem_append.mpr (List.mem_append.mp hx).symm) y
    (List.mem_append.mpr (List.mem_append.mp hy).symm)

/-- Pairs of digests that are hashed without a collision are told apart by their hashes. -/
theorem separates_of_collisionFree {ps qs : List (Bytes × Bytes)}
    (hfree : CollisionFree blake3 (xs ++ ys)) (hps : ps.map nodeInput ⊆ xs)
    (hqs : qs.map nodeInput ⊆ ys) (hp : ∀ p ∈ ps, p.1.length = 32)
    (hq : ∀ q ∈ qs, q.1.length = 32) :
    HashTree.Separates (merkleNode blake3) ps qs := by
  intro p hp' q hq' h
  have hinput : nodeInput p = nodeInput q :=
    hfree _ (List.mem_append_left _ (hps (List.mem_map_of_mem hp'))) _
      (List.mem_append_right _ (hqs (List.mem_map_of_mem hq'))) h
  obtain ⟨hfirst, hsecond⟩ := List.append_inj (List.cons.inj hinput).2
    ((hp p hp').trans (hq q hq').symm)
  exact Prod.ext hfirst hsecond

theorem leaf_inj (hfree : CollisionFree blake3 (xs ++ ys)) {v w : Bytes} (hv : 0 :: v ∈ xs)
    (hw : 0 :: w ∈ ys) (h : merkleLeaf blake3 v = merkleLeaf blake3 w) : v = w :=
  (List.cons.inj (hfree _ (List.mem_append_left _ hv) _ (List.mem_append_right _ hw) h)).2

theorem createMerkleTree_eq (blake3 : Bytes → Bytes) (hvalues : ∀ v ∈ values, v.length = 32)
    (hne : values ≠ []) :
    createMerkleTree blake3 values = .ok
      ⟨(HashTree.rootOf (HashTree.levelsFrom (merkleNode blake3) values.length
          (values.map (merkleLeaf blake3)))).getD [], values.length,
        HashTree.levelsFrom (merkleNode blake3) values.length
          (values.map (merkleLeaf blake3))⟩ := by
  have hlengths : (values.any fun v => decide (v.length ≠ 32)) = false := by
    rw [List.any_eq_false]
    intro v hv
    simp [hvalues v hv]
  rw [createMerkleTree, hlengths, if_neg (by simp), if_neg hne]

variable {c : Ctx} {tree other : MerkleTree}

theorem length_merkleNode (hdigest : ∀ x, (blake3 x).length = 32) (a b : Bytes) :
    (merkleNode blake3 a b).length = 32 :=
  hdigest _

theorem length_leaves (hdigest : ∀ x, (blake3 x).length = 32) (values : List Bytes) :
    ∀ x ∈ values.map (merkleLeaf blake3), x.length = 32 := by
  intro x hx
  obtain ⟨v, -, rfl⟩ := List.mem_map.mp hx
  exact hdigest _

/-- What is joined in a tree of values begins with a digest. -/
theorem length_joined (hdigest : ∀ x, (blake3 x).length = 32) (n : Nat) (values : List Bytes)
    {p : Bytes × Bytes}
    (hp : p ∈ HashTree.joins (merkleNode blake3) n (values.map (merkleLeaf blake3))) :
    p.1.length = 32 := by
  have hall := HashTree.forall_joins (P := fun x : Bytes => x.length = 32)
    (length_merkleNode hdigest) n (length_leaves hdigest values)
  exact (hall p hp).1

theorem exists_root (blake3 : Bytes → Bytes) (hne : values ≠ []) : ∃ root,
    HashTree.rootOf (HashTree.levelsFrom (merkleNode blake3) values.length
      (values.map (merkleLeaf blake3))) = some root := by
  obtain ⟨v, hv⟩ : ∃ v, values[0]? = some v :=
    ⟨_, List.getElem?_eq_getElem (List.length_pos_iff.mpr hne)⟩
  have hleaf : (values.map (merkleLeaf blake3))[0]? = some (merkleLeaf blake3 v) := by
    rw [List.getElem?_map, hv]
    rfl
  obtain ⟨root, hroot, -⟩ := HashTree.climb_proofOf (f := merkleNode blake3) values.length
    values.length hleaf (by rw [List.length_map]; omega) (List.length_map _).le
  exact ⟨root, hroot⟩

/-- A value is accepted with a proof only if it stands at the index and the proof is the one that
the tree gives. -/
theorem accepted_is_proved (hdigest : ∀ x, (c.node.blake3 x).length = 32)
    (hvalues : ∀ v ∈ values, v.length = 32) (hne : values ≠ [])
    (htree : createMerkleTree c.node.blake3 values = .ok tree) {i : Int} {w : Bytes}
    {proof : List Bytes}
    (haccepted : verifyMerkleTreeProof c tree.root tree.count i w proof = true)
    (hfree : CollisionFree c.node.blake3 (treeInputs c.node.blake3 values ++
      proofInputs c.node.blake3 values.length i.toNat w proof)) :
    values[i.toNat]? = some w ∧ generateMerkleTreeProof tree i = .ok proof := by
  rw [createMerkleTree_eq _ hvalues hne] at htree
  obtain rfl := Except.ok.inj htree
  obtain ⟨root, hroot⟩ := exists_root c.node.blake3 hne
  simp only [verifyMerkleTreeProof, Bool.and_eq_true, decide_eq_true_eq, List.all_eq_true]
    at haccepted
  obtain ⟨⟨⟨hpos, hlt, hlength⟩, hproof⟩, hclimb⟩ := haccepted
  have hcount : (values.map (merkleLeaf c.node.blake3)).length = values.length := List.length_map _
  have hi : i.toNat < values.length := by omega
  rw [hroot, merkleRoot_eq_climb] at hclimb
  have hsep : HashTree.Separates (merkleNode c.node.blake3)
      (HashTree.joins (merkleNode c.node.blake3) values.length
        (values.map (merkleLeaf c.node.blake3)))
      (HashTree.climbed (merkleNode c.node.blake3) values.length i.toNat (values.length - 1)
        (merkleLeaf c.node.blake3 w) proof) := by
    refine separates_of_collisionFree hfree (List.subset_append_right _ _)
      (List.subset_cons_self _ _) (fun p hp => ?_) fun q hq => ?_
    · exact length_joined hdigest _ values hp
    · have hall := HashTree.forall_climbed (P := fun x : Bytes => x.length = 32)
        (length_merkleNode hdigest) values.length i.toNat (values.length - 1)
        (hdigest (0 :: w)) hproof
      exact (hall q hq).1
  obtain ⟨hleaf, hsame⟩ := HashTree.climb_sound (f := merkleNode c.node.blake3) values.length
    values.length (by rw [hcount]; exact hi) (by omega) hcount.le hroot
    (by rw [hcount]; exact hclimb) (by rw [hcount]; exact hsep)
  rw [List.getElem?_map] at hleaf
  obtain ⟨v, hv, hvw⟩ := Option.map_eq_some_iff.mp hleaf
  have hmem : v ∈ values := List.mem_of_getElem? hv
  obtain rfl := leaf_inj hfree (List.mem_append_left _ (List.mem_map_of_mem hmem))
    List.mem_cons_self hvw
  refine ⟨hv, ?_⟩
  rw [generateMerkleTreeProof, if_pos ⟨hpos, hlt⟩, hsame]

/-- A list of values is known by the root and the count of its tree. -/
theorem values_of_root (hdigest : ∀ x, (blake3 x).length = 32)
    (hvalues : ∀ v ∈ values, v.length = 32) (hne : values ≠ [])
    (htree : createMerkleTree blake3 values = .ok tree)
    (hother : createMerkleTree blake3 others = .ok other) (hroot : other.root = tree.root)
    (hcount : other.count = tree.count)
    (hfree : CollisionFree blake3 (treeInputs blake3 values ++ treeInputs blake3 others)) :
    others = values := by
  have hothers : ∀ v ∈ others, v.length = 32 := by
    intro v hv
    by_contra hlength
    have hany : others.any (fun v => decide (v.length ≠ 32)) = true :=
      List.any_eq_true.mpr ⟨v, hv, decide_eq_true hlength⟩
    rw [createMerkleTree, if_pos hany] at hother
    cases hother
  rw [createMerkleTree_eq _ hvalues hne] at htree
  obtain rfl := Except.ok.inj htree
  have hne' : others ≠ [] := by
    rintro rfl
    obtain rfl := Except.ok.inj hother
    exact hne (List.length_eq_zero_iff.mp hcount.symm)
  rw [createMerkleTree_eq _ hothers hne'] at hother
  obtain rfl := Except.ok.inj hother
  have hlength : others.length = values.length := hcount
  obtain ⟨root, hroot₁⟩ := exists_root blake3 hne
  obtain ⟨root', hroot₂⟩ := exists_root blake3 hne'
  simp only [hroot₁, hroot₂, Option.getD_some] at hroot
  have hsep : HashTree.Separates (merkleNode blake3)
      (HashTree.joins (merkleNode blake3) values.length (values.map (merkleLeaf blake3)))
      (HashTree.joins (merkleNode blake3) values.length (others.map (merkleLeaf blake3))) := by
    refine separates_of_collisionFree hfree (List.subset_append_right _ _)
      (by rw [← hlength]; exact List.subset_append_right _ _) (fun p hp => ?_) fun q hq => ?_
    · exact length_joined hdigest _ values hp
    · exact length_joined hdigest _ others hq
  rw [hlength] at hroot₂
  have hsame := HashTree.rootOf_inj (f := merkleNode blake3) values.length
    (by rw [List.length_map]; omega) (by rw [List.length_map, List.length_map, hlength])
    (by simpa using hne) hsep (by rw [hroot₁, hroot₂, hroot])
  refine List.ext_getElem? fun k => ?_
  have hk := congrArg (fun l => l[k]?) hsame
  simp only [List.getElem?_map] at hk
  rcases hv : values[k]? with - | v
  · rw [hv] at hk
    exact Option.map_eq_none_iff.mp hk.symm
  · rw [hv] at hk
    obtain ⟨w, hw, hwv⟩ := Option.map_eq_some_iff.mp hk.symm
    obtain rfl := leaf_inj hfree
      (List.mem_append_left _ (List.mem_map_of_mem (List.mem_of_getElem? hv)))
      (List.mem_append_left _ (List.mem_map_of_mem (List.mem_of_getElem? hw))) hwv.symm
    exact hw

/-- A tree proves its values at their places, accepts nothing else there as long as no two of the
hashed inputs collide, and its root and count determine the values. -/
theorem merkle_proofs_are_sound (hdigest : ∀ x, (c.node.blake3 x).length = 32)
    (hvalues : ∀ v ∈ values, v.length = 32) (hne : values ≠ []) :
    ∃ tree, createMerkleTree c.node.blake3 values = .ok tree ∧ tree.count = values.length ∧
      (∀ (i : Nat) v, values[i]? = some v → ∃ proof,
        generateMerkleTreeProof tree i = .ok proof ∧
        verifyMerkleTreeProof c tree.root tree.count i v proof = true) ∧
      (∀ (i : Int) w proof, verifyMerkleTreeProof c tree.root tree.count i w proof = true →
        CollisionFree c.node.blake3 (treeInputs c.node.blake3 values ++
          proofInputs c.node.blake3 values.length i.toNat w proof) →
        values[i.toNat]? = some w ∧ generateMerkleTreeProof tree i = .ok proof) ∧
      ∀ others other, createMerkleTree c.node.blake3 others = .ok other →
        other.root = tree.root → other.count = tree.count →
        CollisionFree c.node.blake3 (treeInputs c.node.blake3 values ++
          treeInputs c.node.blake3 others) → others = values := by
  have htree := createMerkleTree_eq c.node.blake3 hvalues hne
  refine ⟨_, htree, rfl, fun i v hv => ?_, fun i w proof haccepted hfree => ?_,
    fun others other hother hroot hcount hfree => ?_⟩
  · have hi : i < values.length := (List.getElem?_eq_some_iff.mp hv).1
    obtain ⟨-, -, hverify, -⟩ := verify_createMerkleTree hdigest htree hv
    refine ⟨_, ?_, hverify⟩
    rw [generateMerkleTreeProof, if_pos ⟨Int.natCast_nonneg i, Int.ofNat_lt.mpr hi⟩]
    rfl
  · exact accepted_is_proved hdigest hvalues hne htree haccepted hfree
  · exact values_of_root hdigest hvalues hne htree hother hroot hcount hfree

/-- Three values, so that the last one goes up a level without a pair. -/
def threeValues : List Bytes := [List.replicate 32 1, List.replicate 32 2, List.replicate 32 3]

theorem three_values_are_proved :
    ∃ tree, createMerkleTree sampleDigest threeValues = .ok tree ∧
      (∀ (i : Nat) v, threeValues[i]? = some v → ∃ proof,
        generateMerkleTreeProof tree i = .ok proof ∧
        verifyMerkleTreeProof samplePlanning tree.root tree.count i v proof = true) ∧
      ∀ proof, CollisionFree sampleDigest (treeInputs sampleDigest threeValues ++
          proofInputs sampleDigest 3 1 (List.replicate 32 9) proof) →
        verifyMerkleTreeProof samplePlanning tree.root tree.count 1 (List.replicate 32 9) proof
          = false := by
  obtain ⟨tree, htree, hcount, hproofs, hsound, -⟩ := @merkle_proofs_are_sound threeValues
    samplePlanning (fun x => by simp [samplePlanning, sampleNode, sampleDigest]) (by decide)
    (by decide)
  refine ⟨tree, htree, hproofs,
    fun proof hfree => Bool.eq_false_of_not_eq_true fun haccepted => ?_⟩
  obtain ⟨hother, -⟩ := hsound 1 _ proof haccepted hfree
  cases hother

end Binding

end Astreum
