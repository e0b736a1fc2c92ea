import Astreum.RadixMap

namespace Astreum

open Trie

variable {H : Type} {blake3 : RadixCell H → H}

section Cells

/-- A normal trie is told by the hash at its top. -/
theorem Trie.Normal.eq_of_digest (hinj : Function.Injective blake3) {t t' : Trie Bytes} {n n' : Nat}
    (ht : t.Normal n) (ht' : t'.Normal n') (h : t.digest blake3 = t'.digest blake3) : t = t' := by
  induction t generalizing t' n n' with
  | empty =>
    rcases t' with _ | ⟨bits', value', zero', one'⟩
    · rfl
    · cases h
  | node bits value zero one ihz iho =>
    rcases t' with _ | ⟨bits', value', zero', one'⟩
    · cases h
    have hcell := hinj (Option.some.inj h)
    rw [RadixNode.cell, RadixNode.cell, RadixCell.mk.injEq] at hcell
    obtain ⟨hbits, hvalue, hzeros, hones⟩ := hcell
    simp only at hbits hvalue hzeros hones
    subst hbits
    rcases ht with ⟨-, hv, rfl, rfl⟩ | ⟨rfl, hz, ho, m, -, hzero, hone⟩
    · rcases ht' with ⟨-, hv', rfl, rfl⟩ | ⟨rfl, hz', -, m', -, hzero', -⟩
      · obtain ⟨v, rfl⟩ := Option.isSome_iff_exists.mp hv
        obtain ⟨v', rfl⟩ := Option.isSome_iff_exists.mp hv'
        rw [show v = v' from hvalue]
      · rw [digest_eq blake3 hz'] at hzeros
        cases hzeros
    · rcases ht' with ⟨-, hv', rfl, rfl⟩ | ⟨rfl, hz', -, m', -, hzero', hone'⟩
      · rw [digest_eq blake3 hz] at hzeros
        cases hzeros
      · rw [ihz hzero hzero' hzeros, iho hone hone' hones]

theorem Trie.Normal.of_mem_subtries {t s : Trie Bytes} {n : Nat} (ht : t.Normal n)
    (hs : s ∈ t.subtries) : ∃ m, s.Normal m := by
  induction t generalizing n with
  | empty => cases hs
  | node bits value zero one ihz iho =>
    rcases List.mem_cons.mp hs with rfl | hs
    · exact ⟨n, ht⟩
    rcases ht with ⟨-, -, rfl, rfl⟩ | ⟨-, -, -, m, -, hzero, hone⟩
    · cases hs
    · rcases List.mem_append.mp hs with hs | hs
      · exact ihz hzero hs
      · exact iho hone hs

theorem ne_empty_of_mem_subtries {t s : Trie Bytes} (hs : s ∈ t.subtries) : s ≠ .empty := by
  induction t with
  | empty => cases hs
  | node bits value zero one ihz iho =>
    rcases List.mem_cons.mp hs with rfl | hs
    · nofun
    · exact (List.mem_append.mp hs).elim ihz iho

/-- Among keys of one length a put is clean where it drops no node that the trie still has. -/
theorem Trie.Normal.clean (hinj : Function.Injective blake3) {t : Trie Bytes} {key : List Bool}
    {v : Bytes} (ht : t.Normal key.length) (h : t.Unshared blake3 key v) :
    t.Clean blake3 key v := by
  obtain ⟨hfits, hnormal⟩ := ht.insert v
  refine ⟨hfits, h, fun s hs s' hs' hhash => ?_⟩
  obtain ⟨m, hm⟩ := hnormal.of_mem_subtries hs
  obtain ⟨m', hm'⟩ := hnormal.of_mem_subtries hs'
  have hdigest : s.digest blake3 = s'.digest blake3 := by
    rw [digest_eq blake3 (ne_empty_of_mem_subtries hs),
      digest_eq blake3 (ne_empty_of_mem_subtries hs'), hhash]
  rw [hm.eq_of_digest hinj hm' hdigest]

end Cells

section Runs

variable {puts puts' : List (Bytes × Bytes)}

/-- No put drops a node that the tree still has. -/
def UnsharedPuts (blake3 : RadixCell H → H) : Trie Bytes → List (Bytes × Bytes) → Prop
  | _, [] => True
  | t, p :: puts =>
    t.Unshared blake3 (keyBits p.1) p.2 ∧ UnsharedPuts blake3 (t.insert (keyBits p.1) p.2) puts

instance decidableUnsharedPuts [DecidableEq H] : (t : Trie Bytes) →
    (puts : List (Bytes × Bytes)) → Decidable (UnsharedPuts blake3 t puts)
  | _, [] => .isTrue trivial
  | t, p :: puts =>
    have := decidableUnsharedPuts (t.insert (keyBits p.1) p.2) puts
    inferInstanceAs (Decidable (_ ∧ _))

/-- Puts of keys of 32 bytes make a normal trie, and are clean. -/
theorem normal_putsInto (hinj : Function.Injective blake3) {t : Trie Bytes} (ht : t.Normal 256)
    (hkeys : ∀ p ∈ puts, p.1.length = 32) (h : UnsharedPuts blake3 t puts) :
    (putsInto t puts).Normal 256 ∧ CleanPuts blake3 t puts := by
  induction puts generalizing t with
  | nil => exact ⟨ht, trivial⟩
  | cons p puts ih =>
    have hlen : (keyBits p.1).length = 256 := by
      rw [length_keyBits, hkeys p List.mem_cons_self]
    have hnormal : t.Normal (keyBits p.1).length := by rwa [hlen]
    have hinsert : (t.insert (keyBits p.1) p.2).Normal 256 := hlen ▸ (hnormal.insert p.2).2
    obtain ⟨hrest, hclean⟩ := ih hinsert (fun q hq => hkeys q (List.mem_cons_of_mem _ hq)) h.2
    exact ⟨hrest, hnormal.clean hinj h.1, hclean⟩

theorem exists_key_of_lookup {t : Trie Bytes} (hclean : CleanPuts blake3 t puts) {k : List Bool}
    (h : ((putsInto t puts).lookup k).isSome) :
    (t.lookup k).isSome ∨ ∃ key, k = keyBits key := by
  induction puts generalizing t with
  | nil => exact .inl h
  | cons p puts ih =>
    rcases ih hclean.2 h with h | h
    · rw [lookup_insert hclean.1.fits] at h
      split at h
      · exact .inr ⟨p.1, ‹_›⟩
      · exact .inl h
    · exact .inr h

/-- Puts with the same last values make the same trie. -/
theorem putsInto_eq (hnormal : (putsInto .empty puts).Normal 256)
    (hnormal' : (putsInto .empty puts').Normal 256) (hclean : CleanPuts blake3 .empty puts)
    (hclean' : CleanPuts blake3 .empty puts') (h : ∀ key, lastPut puts key = lastPut puts' key) :
    putsInto .empty puts = putsInto .empty puts' := by
  refine hnormal.ext hnormal' fun k => ?_
  by_cases hk : ∃ key, k = keyBits key
  · obtain ⟨key, rfl⟩ := hk
    rw [lookup_putsInto hclean, lookup_putsInto hclean']
    exact h key
  · have hnone : ∀ {ps : List (Bytes × Bytes)}, CleanPuts blake3 .empty ps →
        (putsInto .empty ps).lookup k = none := by
      intro ps hps
      by_contra hcon
      rcases exists_key_of_lookup hps (Option.isSome_iff_ne_none.mpr hcon) with hempty | hkey
      · cases hempty
      · exact hk hkey
    rw [hnone hclean, hnone hclean']

/-- Over puts of 32-byte keys of which none drops a node that the tree still has, the root hash
tells the map, and nothing but the map. -/
theorem root_is_canonical [DecidableEq H] (hinj : Function.Injective blake3)
    (hkeys : ∀ p ∈ puts, p.1.length = 32) (hkeys' : ∀ p ∈ puts', p.1.length = 32)
    (hputs : UnsharedPuts blake3 .empty puts) (hputs' : UnsharedPuts blake3 .empty puts') :
    ∃ tree tree', RadixTree.putAll blake3 puts = .ok tree ∧
      RadixTree.putAll blake3 puts' = .ok tree' ∧
      (tree.rootHash = tree'.rootHash ↔ ∀ key, lastPut puts key = lastPut puts' key) := by
  obtain ⟨hnormal, hclean⟩ := normal_putsInto hinj (t := .empty) trivial hkeys hputs
  obtain ⟨hnormal', hclean'⟩ := normal_putsInto hinj (t := .empty) trivial hkeys' hputs'
  obtain ⟨tree, hrun, htree⟩ := putAll_represents hinj represents_new hclean
  obtain ⟨tree', hrun', htree'⟩ := putAll_represents hinj represents_new hclean'
  refine ⟨tree, tree', hrun, hrun', ?_⟩
  rw [htree.root, htree'.root]
  constructor
  · intro hroot key
    have heq := hnormal.eq_of_digest hinj hnormal' hroot
    have hlookup := lookup_putsInto hclean key
    rw [heq, lookup_putsInto hclean'] at hlookup
    exact hlookup.symm
  · intro hlast
    rw [putsInto_eq hnormal hnormal' hclean hclean' hlast]

end Runs

section Samples

/-- A key of 32 bytes. -/
def key32 (first : UInt8) : Bytes := first :: List.replicate 31 0

/-- Two leaves, put in either order and with a value overwritten. -/
theorem two_orders_one_root :
    ∃ tree tree', RadixTree.putAll Digest.of [(key32 0, [1]), (key32 128, [2]), (key32 0, [3])] =
        .ok tree ∧
      RadixTree.putAll Digest.of [(key32 128, [2]), (key32 0, [3])] = .ok tree' ∧
      tree.rootHash = tree'.rootHash := by
  have hkeys : ∀ p ∈ [(key32 0, [(1 : UInt8)]), (key32 128, [2]), (key32 0, [3])],
      p.1.length = 32 := by decide
  have hkeys' : ∀ p ∈ [(key32 128, [(2 : UInt8)]), (key32 0, [3])], p.1.length = 32 := by decide
  obtain ⟨tree, tree', hrun, hrun', hroot⟩ := root_is_canonical Digest.of_injective hkeys hkeys'
    (by decide +kernel) (by decide +kernel)
  refine ⟨tree, tree', hrun, hrun', hroot.mpr fun key => ?_⟩
  by_cases h0 : key32 0 = key <;> by_cases h1 : key32 128 = key <;> simp [lastPut, h0, h1]

/-- The puts that end with one map and differ in what was overwritten. -/
def overwritten : List (Bytes × Bytes) :=
  [(key32 0, [1]), (key32 64, [2]), (key32 128, [1]), (key32 192, [2]), (key32 0, [3]),
    (key32 128, [3])]

def direct : List (Bytes × Bytes) :=
  [(key32 0, [3]), (key32 64, [2]), (key32 128, [3]), (key32 192, [2])]

theorem lastPut_overwritten (key : Bytes) : lastPut overwritten key = lastPut direct key := by
  by_cases h : key ∈ [key32 0, key32 64, key32 128, key32 192]
  · have hall : ∀ k ∈ [key32 0, key32 64, key32 128, key32 192],
        lastPut overwritten k = lastPut direct k := by decide
    exact hall key h
  · simp only [List.mem_cons, List.not_mem_nil, or_false, not_or] at h
    obtain ⟨h0, h1, h2, h3⟩ := h
    simp [lastPut, overwritten, direct, Ne.symm h0, Ne.symm h1, Ne.symm h2, Ne.symm h3]

/-- Two halves of one content share their nodes, so a put to the one drops the other: the root hash
then differs from that of the same map put at once. -/
theorem shared_half_changes_root :
    Function.Injective Digest.of ∧ (∀ p ∈ overwritten, p.1.length = 32) ∧
      (∀ p ∈ direct, p.1.length = 32) ∧ (∀ key, lastPut overwritten key = lastPut direct key) ∧
      (RadixTree.putAll Digest.of overwritten).map RadixTree.rootHash ≠
        (RadixTree.putAll Digest.of direct).map RadixTree.rootHash :=
  ⟨Digest.of_injective, by decide, by decide, lastPut_overwritten, by decide +kernel⟩

end Samples

end Astreum
