import Astreum.RadixRoot
import Astreum.Visit
import Mathlib.Algebra.Order.BigOperators.Group.List
import Mathlib.Data.List.Induction

namespace Astreum

open Trie

section Bits

/-- `_bits_to_bytes`: the bits filled up with zeros, as a number. -/
def bitsToBytes (bits : List Bool) : Bytes :=
  let padded := bits ++ List.replicate ((8 - bits.length % 8) % 8) false
  (Python.toBytesLittle (padded.length / 8)
    (padded.foldl (fun n b => 2 * n + b.toNat) 0)).reverse

theorem foldl_bits (bits : List Bool) (n : Nat) :
    bits.foldl (fun n b => 2 * n + b.toNat) n =
      n * 2 ^ bits.length + bits.foldl (fun n b => 2 * n + b.toNat) 0 := by
  induction bits generalizing n with
  | nil => simp
  | cons b bits ih =>
    rw [List.foldl_cons, ih, List.foldl_cons, ih (2 * 0 + b.toNat), List.length_cons]
    ring

theorem foldl_byteBits (byte : UInt8) (n : Nat) :
    (keyBits [byte]).foldl (fun n b => 2 * n + b.toNat) n = n * 256 + byte.toNat := by
  have hbits : ∀ m < 256, ((List.range 8).map fun i => m.testBit (7 - i)).foldl
      (fun n b => 2 * n + b.toNat) 0 = m := by decide +kernel
  have hbyte : (keyBits [byte]).foldl (fun n b => 2 * n + b.toNat) 0 = byte.toNat := by
    rw [keyBits, List.flatMap_singleton]
    exact hbits byte.toNat byte.toNat_lt
  rw [foldl_bits, hbyte, length_keyBits]
  rfl

theorem keyBits_append (key key' : Bytes) :
    keyBits (key ++ key') = keyBits key ++ keyBits key' := by
  simp [keyBits]

/-- The bits of a key give the key back. -/
theorem bitsToBytes_keyBits (key : Bytes) : bitsToBytes (keyBits key) = key := by
  have hpad : (8 - (keyBits key).length % 8) % 8 = 0 := by
    rw [length_keyBits]
    omega
  rw [bitsToBytes, hpad, List.replicate_zero, List.append_nil, length_keyBits,
    Nat.mul_div_cancel_left _ (by decide)]
  induction key using List.reverseRecOn with
  | nil => rfl
  | append_singleton key byte ih =>
    have hpad' : (8 - (keyBits key).length % 8) % 8 = 0 := by
      rw [length_keyBits]
      omega
    have hlast : (((keyBits key).foldl (fun n b => 2 * n + b.toNat) 0) * 256 + byte.toNat) % 256 =
        byte.toNat := by
      have hlt := byte.toNat_lt
      omega
    have hquot : (((keyBits key).foldl (fun n b => 2 * n + b.toNat) 0) * 256 + byte.toNat) / 256 =
        (keyBits key).foldl (fun n b => 2 * n + b.toNat) 0 := by
      have hlt := byte.toNat_lt
      omega
    rw [keyBits_append, List.foldl_append, foldl_byteBits, List.length_append,
      List.length_singleton, Python.toBytesLittle, List.reverse_cons, hlast, hquot, ih hpad']
    simp

end Bits

section Walk

variable {H : Type} [DecidableEq H]

/-- The loop of `get_all_from_radix_tree_with_blocks`, on a tree of which storage holds no node. A
node is visited once, with the bits of the way that comes to it first. -/
def RadixTree.allFrom (tree : RadixTree H) : Nat → List (H × List Bool) → List H →
    Dict Bytes Bytes → Py (Dict Bytes Bytes)
  | 0, _, _, _ => .error .outOfFuel
  | _ + 1, [], _, results => .ok results
  | n + 1, (h, prefixBits) :: stack, visited, results =>
    if h ∈ visited then tree.allFrom n stack visited results
    else match tree.nodes.get? h with
      | none => .error .valueError
      | some current =>
        let combined := prefixBits ++ current.key
        let results := match current.value with
          | some v => results.insert (bitsToBytes combined) v
          | none => results
        let below (bit : Bool) : List (H × List Bool) :=
          ((current.child bit).map fun child => (child, combined ++ [bit])).toList
        tree.allFrom n (below true ++ below false ++ stack) (h :: visited) results

/-- `get_all_from_radix_tree`, up to the reads of the exprs that the hashes name. -/
def RadixTree.getAll (tree : RadixTree H) (fuel : Nat) : Py (Dict Bytes Bytes) :=
  match tree.rootHash with
  | none => .ok .empty
  | some root => tree.allFrom fuel [(root, [])] [] .empty

end Walk

namespace Trie

/-- The trie whose node a key ends at. -/
def endAt {α : Type} : Trie α → List Bool → Option (Trie α)
  | empty, _ => none
  | node bits value zero one, key =>
    match strip? bits key with
    | none => none
    | some [] => some (node bits value zero one)
    | some (false :: tail) => zero.endAt tail
    | some (true :: tail) => one.endAt tail

/-- No two keys end at nodes with one content that has a value. -/
def EndsApart (t : Trie Bytes) : Prop :=
  ∀ key key' s, t.endAt (keyBits key) = some s → t.endAt (keyBits key') = some s →
    s.topValue.isSome → key = key'

def topBits {α : Type} : Trie α → List Bool
  | empty => []
  | node bits _ _ _ => bits

end Trie

section Places

/-- A trie with the bits of the way to it. -/
abbrev Place := List Bool × Trie Bytes

/-- The bits of the key that ends at a place. -/
def Place.bits (p : Place) : List Bool := p.1 ++ p.2.topBits

/-- The places below a place, in the order in which they are visited. -/
def Place.below : Place → List Place
  | (_, .empty) => []
  | (prefixBits, .node bits _ zero one) =>
    [(prefixBits ++ bits ++ [true], one), (prefixBits ++ bits ++ [false], zero)].filter
      fun p => decide (p.2 ≠ .empty)

variable {t s u : Trie Bytes} {p q : Place} {k : List Bool}

theorem lookup_eq_endAt (t : Trie Bytes) (k : List Bool) :
    t.lookup k = (t.endAt k).bind topValue := by
  induction t generalizing k with
  | empty => rfl
  | node bits value zero one ihz iho =>
    rw [lookup, endAt]
    rcases strip? bits k with _ | ⟨_ | ⟨b, tail⟩⟩
    · rfl
    · rfl
    · cases b
      · exact ihz tail
      · exact iho tail

theorem endAt_self (h : t ≠ empty) : t.endAt t.topBits = some t := by
  cases t with
  | empty => exact absurd rfl h
  | node bits value zero one => simp [endAt, topBits]

theorem mem_below (h : q ∈ p.below) : ∃ b, q.2 ≠ empty ∧ q.2 ∈ p.2.subtries ∧
    q.1 = p.bits ++ [b] ∧ ∀ r, p.2.endAt (p.2.topBits ++ b :: r) = q.2.endAt r := by
  obtain ⟨prefixBits, trie⟩ := p
  cases trie with
  | empty => cases h
  | node bits value zero one =>
    obtain ⟨hside, hne⟩ := List.mem_filter.mp h
    have hne := of_decide_eq_true hne
    simp only [List.mem_cons, List.not_mem_nil, or_false] at hside
    rcases hside with rfl | rfl
    · refine ⟨true, hne, ?_, rfl, fun r => by simp [endAt, topBits]⟩
      exact List.mem_cons_of_mem _ (List.mem_append_right _ (mem_subtries_self hne))
    · refine ⟨false, hne, ?_, rfl, fun r => by simp [endAt, topBits]⟩
      exact List.mem_cons_of_mem _ (List.mem_append_left _ (mem_subtries_self hne))

theorem subtries_trans (hs : s ∈ t.subtries) (hu : u ∈ s.subtries) : u ∈ t.subtries := by
  induction t with
  | empty => cases hs
  | node bits value zero one ihz iho =>
    rcases List.mem_cons.mp hs with rfl | hs
    · exact hu
    · rcases List.mem_append.mp hs with hs | hs
      · exact List.mem_cons_of_mem _ (List.mem_append_left _ (ihz hs))
      · exact List.mem_cons_of_mem _ (List.mem_append_right _ (iho hs))

/-- The places that a walk over a trie comes to. -/
abbrev At (hash : Place → β) (t : Trie Bytes) : Place → Prop :=
  Visit.Reaches Place.below hash (fun _ => false) [([], t)]

variable {β : Type} {hash : Place → β}

/-- At a place stands a trie of the whole, and below it ends what ends behind its bits. -/
theorem At.endAt (hne : t ≠ empty) (h : At hash t p) :
    p.2 ≠ empty ∧ p.2 ∈ t.subtries ∧ ∀ r, t.endAt (p.1 ++ r) = p.2.endAt r := by
  induction h with
  | root hroot =>
    obtain rfl := List.mem_singleton.mp hroot
    exact ⟨hne, mem_subtries_self hne, fun r => rfl⟩
  | @child p q h hchild hs ih =>
    obtain ⟨-, hmem, hends⟩ := ih
    obtain ⟨b, hq, hsub, hbits, hbelow⟩ := mem_below hchild
    refine ⟨hq, subtries_trans hmem hsub, fun r => ?_⟩
    rw [hbits, Place.bits, List.append_assoc, List.append_assoc, hends, List.singleton_append,
      hbelow]

theorem At.endAt_bits (hne : t ≠ empty) (h : At hash t p) : t.endAt p.bits = some p.2 := by
  obtain ⟨hp, -, hends⟩ := h.endAt hne
  rw [Place.bits, hends, endAt_self hp]

/-- Where a key ends there is a place. -/
theorem exists_at (h : t.endAt k = some s) :
    ∃ p, At hash t (p, s) ∧ k = Place.bits (p, s) := by
  have hstep : ∀ (u : Trie Bytes) (q : List Bool), At hash t (q, u) → ∀ r, u.endAt r = some s →
      ∃ p, At hash t (p, s) ∧ q ++ r = Place.bits (p, s) := by
    intro u
    induction u with
    | empty =>
      intro q hq r hr
      cases hr
    | node bits value zero one ihz iho =>
      intro q hq r hr
      rw [Trie.endAt] at hr
      rcases hstrip : strip? bits r with _ | ⟨_ | ⟨b, tail⟩⟩ <;> rw [hstrip] at hr
      · cases hr
      · obtain rfl := Option.some.inj hr
        refine ⟨q, hq, ?_⟩
        rw [(strip?_eq_some.mp hstrip).trans (List.append_nil bits)]
        rfl
      · obtain rfl := strip?_eq_some.mp hstrip
        cases b with
        | false =>
          have hzero : zero ≠ empty := by
            rintro rfl
            cases hr
          have hplace : At hash t (q ++ bits ++ [false], zero) :=
            .child hq (List.mem_filter.mpr ⟨by simp, decide_eq_true hzero⟩) rfl
          obtain ⟨p, hp, hbits⟩ := ihz _ hplace tail hr
          exact ⟨p, hp, by rw [← hbits]; simp⟩
        | true =>
          have hone : one ≠ empty := by
            rintro rfl
            cases hr
          have hplace : At hash t (q ++ bits ++ [true], one) :=
            .child hq (List.mem_filter.mpr ⟨by simp, decide_eq_true hone⟩) rfl
          obtain ⟨p, hp, hbits⟩ := iho _ hplace tail hr
          exact ⟨p, hp, by rw [← hbits]; simp⟩
  exact hstep t [] (.root (List.mem_singleton_self _) rfl) k h

/-- The nodes below a place weigh less than those from it on. -/
theorem below_weight (p : Place) : (p.below.map fun q => 2 * q.2.subtries.length + 1).sum <
    2 * p.2.subtries.length + 1 := by
  obtain ⟨prefixBits, trie⟩ := p
  cases trie with
  | empty => simp [Place.below]
  | node bits value zero one =>
    have hsub := ((List.filter_sublist (p := fun p : Place => decide (p.2 ≠ .empty))
      (l := [(prefixBits ++ bits ++ [true], one), (prefixBits ++ bits ++ [false], zero)])).map
        fun q => 2 * q.2.subtries.length + 1).sum_le_sum fun _ _ => Nat.zero_le _
    simp only [List.map_cons, List.map_nil, List.sum_cons, List.sum_nil] at hsub
    rw [Place.below, subtries, List.length_cons, List.length_append]
    omega

end Places

section Simulation

variable {H : Type} [DecidableEq H] {blake3 : RadixCell H → H} {tree : RadixTree H}
  {t : Trie Bytes} {stack visited : List Place}

/-- The hash of the node at a place. -/
def Place.hash (blake3 : RadixCell H → H) (p : Place) : H := p.2.topHash blake3

/-- What the places of a walk give. -/
def resultsOf (visited : List Place) : Dict Bytes Bytes :=
  visited.foldl (fun results p => match p.2.topValue with
    | some v => results.insert (bitsToBytes p.bits) v
    | none => results) .empty

/-- The loop goes over the places of the trie that the tree is. -/
theorem allFrom_eq (htree : tree.Represents blake3 t) (hne : t ≠ empty) {n : Nat} {seen : List H}
    {found : List H}
    (hvisiting : Visit.Visiting Place.below (Place.hash blake3) (fun _ => false) [([], t)] stack
      visited found)
    (hseen : ∀ h, h ∈ seen ↔ h ∈ visited.map (Place.hash blake3)) :
    tree.allFrom n (stack.map fun p => (p.hash blake3, p.1)) seen (resultsOf visited) =
      match Visit.visit Place.below (Place.hash blake3) (fun _ => false) n stack visited found with
      | none => .error .outOfFuel
      | some (visited, _) => .ok (resultsOf visited) := by
  induction n generalizing stack visited seen with
  | zero => rfl
  | succ n ih =>
    cases stack with
    | nil => rfl
    | cons p stack =>
      rw [List.map_cons, RadixTree.allFrom, Visit.visit]
      by_cases hold : p.hash blake3 ∈ visited.map (Place.hash blake3)
      · rw [if_pos ((hseen _).mpr hold), if_pos hold]
        exact ih (hvisiting.again hold) hseen
      have hreached : At (Place.hash blake3) t p :=
        (hvisiting.pending p List.mem_cons_self).reaches rfl
      obtain ⟨hp, hmem, -⟩ := hreached.endAt hne
      have hheld : tree.nodes.get? (p.hash blake3) = some (p.2.top blake3) := htree.held _ hmem
      rw [if_neg fun hcon => hold ((hseen _).mp hcon), if_neg hold, if_neg Bool.false_ne_true]
      simp only [hheld]
      have hresults : (match (p.2.top blake3).value with
          | some v => (resultsOf visited).insert (bitsToBytes (p.1 ++ (p.2.top blake3).key)) v
          | none => resultsOf visited) = resultsOf (visited ++ [p]) := by
        rw [resultsOf, resultsOf, List.foldl_append]
        obtain ⟨prefixBits, trie⟩ := p
        cases trie with
        | empty => exact absurd rfl hp
        | node bits value zero one => cases value <;> rfl
      have hbelow : ((((p.2.top blake3).child true).map fun child =>
            (child, p.1 ++ (p.2.top blake3).key ++ [true])).toList ++
          (((p.2.top blake3).child false).map fun child =>
            (child, p.1 ++ (p.2.top blake3).key ++ [false])).toList) =
            p.below.map fun q => (q.hash blake3, q.1) := by
        obtain ⟨prefixBits, trie⟩ := p
        cases trie with
        | empty => exact absurd rfl hp
        | node bits value zero one =>
          have hside : ∀ (b : Bool) (side : Trie Bytes),
              ((side.digest blake3).map fun child => (child, prefixBits ++ bits ++ [b])).toList =
                ([(prefixBits ++ bits ++ [b], side)].filter fun p : Place =>
                  decide (p.2 ≠ .empty)).map fun q => (q.hash blake3, q.1) := by
            intro b side
            by_cases hside : side = empty
            · subst hside
              rfl
            · simp [digest_eq blake3 hside, hside, Place.hash]
          have hsplit : ∀ x y : Place, [x, y] = [x] ++ [y] := fun _ _ => rfl
          rw [Place.below, hsplit, List.filter_append, List.map_append, ← hside, ← hside]
          rfl
      rw [hresults, hbelow, ← List.map_append]
      refine ih (hvisiting.take hold rfl) fun h => ?_
      rw [List.mem_cons, hseen, List.map_append, List.mem_append, List.map_singleton,
        List.mem_singleton]
      exact or_comm

/-- The results are the values at the places visited, where these have one value for each key. -/
theorem get?_resultsOf (hvalues : ∀ p ∈ visited, ∀ v, p.2.topValue = some v →
      (∃ key, p.bits = keyBits key) ∧ t.lookup p.bits = some v) (key v : Bytes) :
    (resultsOf visited).get? key = some v ↔
      ∃ p ∈ visited, p.bits = keyBits key ∧ p.2.topValue = some v := by
  induction visited using List.reverseRecOn with
  | nil => simp [resultsOf]
  | append_singleton visited p ih =>
    have hbefore := ih fun q hq => hvalues q (List.mem_append_left _ hq)
    have hlast := hvalues p (List.mem_append_right _ (List.mem_singleton_self _))
    rw [resultsOf, List.foldl_append]
    change (match p.2.topValue with
      | some v => (resultsOf visited).insert (bitsToBytes p.bits) v
      | none => resultsOf visited).get? key = some v ↔ _
    rcases hvalue : p.2.topValue with _ | w
    · simp only [hbefore, List.mem_append, List.mem_singleton]
      constructor
      · rintro ⟨q, hq, hrest⟩
        exact ⟨q, .inl hq, hrest⟩
      · rintro ⟨q, hq | rfl, hbits, hv⟩
        · exact ⟨q, hq, hbits, hv⟩
        · cases hvalue.symm.trans hv
    · obtain ⟨⟨key', hkey'⟩, hlookup⟩ := hlast w hvalue
      simp only [Dict.get?_insert, hkey', bitsToBytes_keyBits]
      by_cases hsame : key' = key
      · subst hsame
        rw [if_pos rfl]
        constructor
        · intro hw
          obtain rfl := Option.some.inj hw
          exact ⟨p, List.mem_append_right _ (List.mem_singleton_self _), hkey', hvalue⟩
        · rintro ⟨q, hq, hbits, hv⟩
          have hother := (hvalues q hq v hv).2
          rw [hbits, ← hkey', hlookup] at hother
          exact hother
      · rw [if_neg hsame, hbefore]
        constructor
        · rintro ⟨q, hq, hrest⟩
          exact ⟨q, List.mem_append_left _ hq, hrest⟩
        · rintro ⟨q, hq, hbits, hv⟩
          rcases List.mem_append.mp hq with hq | hq
          · exact ⟨q, hq, hbits, hv⟩
          · obtain rfl := List.mem_singleton.mp hq
            exact absurd (keyBits_inj.mp (hkey'.symm.trans hbits)) hsame

end Simulation

section Runs

variable {H : Type} [DecidableEq H] {blake3 : RadixCell H → H} {t s u : Trie Bytes}

omit [DecidableEq H] in
/-- Nodes with one hash stand over one trie. -/
theorem eq_of_topHash (hinj : Function.Injective blake3) (hnamed : Named blake3 t)
    (hs : s ∈ t.subtries) (hu : u ∈ t.subtries) (h : s.topHash blake3 = u.topHash blake3) :
    s = u := by
  induction s generalizing u with
  | empty => exact absurd rfl (ne_empty_of_mem_subtries hs)
  | node bits value zero one ihz iho =>
    cases u with
    | empty => exact absurd rfl (ne_empty_of_mem_subtries hu)
    | node bits' value' zero' one' =>
      have htop := top_eq hinj h (hnamed _ hs _ hu h)
      simp only [top, RadixNode.mk.injEq] at htop
      obtain ⟨rfl, rfl, hzeros, hones⟩ := htop
      have hside : ∀ {side side' : Trie Bytes}, side.digest blake3 = side'.digest blake3 →
          (side ≠ empty → side ∈ t.subtries) → (side' ≠ empty → side' ∈ t.subtries) →
          (∀ {u : Trie Bytes}, side ∈ t.subtries → u ∈ t.subtries →
            side.topHash blake3 = u.topHash blake3 → side = u) → side = side' := by
        intro side side' hdigest hmem hmem' ih
        by_cases hside : side = empty
        · subst hside
          cases side' with
          | empty => rfl
          | node bits value zero one => cases hdigest
        by_cases hside' : side' = empty
        · subst hside'
          rw [digest_eq blake3 hside] at hdigest
          cases hdigest
        rw [digest_eq blake3 hside, digest_eq blake3 hside'] at hdigest
        exact ih (hmem hside) (hmem' hside') (Option.some.inj hdigest)
      have hzero : ∀ {side : Trie Bytes}, side ≠ empty → side ∈ side.subtries :=
        mem_subtries_self
      rw [hside hzeros
          (fun h => subtries_trans hs (List.mem_cons_of_mem _ (List.mem_append_left _ (hzero h))))
          (fun h => subtries_trans hu (List.mem_cons_of_mem _ (List.mem_append_left _ (hzero h))))
          ihz,
        hside hones
          (fun h => subtries_trans hs (List.mem_cons_of_mem _ (List.mem_append_right _ (hzero h))))
          (fun h => subtries_trans hu (List.mem_cons_of_mem _ (List.mem_append_right _ (hzero h))))
          iho]

omit [DecidableEq H] in
theorem named_putsInto {puts : List (Bytes × Bytes)} (hnamed : Named blake3 t)
    (hclean : CleanPuts blake3 t puts) : Named blake3 (putsInto t puts) := by
  induction puts generalizing t with
  | nil => exact hnamed
  | cons p puts ih => exact ih hclean.1.named hclean.2

omit [DecidableEq H] in
/-- Where no content repeats at the ends of two keys, a walk that ends has come to the end of every
key. -/
theorem mem_visited_of_apart (hinj : Function.Injective blake3) (hnamed : Named blake3 t)
    (hne : t ≠ empty) (hkeys : ∀ k, (t.lookup k).isSome → ∃ key, k = keyBits key)
    (hapart : t.EndsApart) {visited : List Place} {found : List H}
    (h : Visit.Visiting Place.below (Place.hash blake3) (fun _ => false) [([], t)] [] visited found)
    {q : Place} (hq : At (Place.hash blake3) t q) (r : List Bool)
    (hend : q.2.endAt r = some s) (hvalue : s.topValue.isSome) : q ∈ visited := by
  have hlookup : ∀ {k}, t.endAt k = some s → ∃ key, k = keyBits key := fun hk => by
    refine hkeys _ ?_
    rw [lookup_eq_endAt, hk]
    exact hvalue
  -- a place that is met and has the end of a key below it is the only one with its hash
  have hunique : ∀ {q : Place}, At (Place.hash blake3) t q → ∀ r, q.2.endAt r = some s →
      (q ∈ [([], t)] ∨ ∃ z ∈ visited, q ∈ z.below) → q ∈ visited := by
    intro q hq r hend hmet
    rcases h.closed q hmet with hseen | ⟨hskip, -⟩ | hstack
    · obtain ⟨q', hq', hhash⟩ := List.mem_map.mp hseen
      obtain ⟨-, hmem, hends⟩ := hq.endAt hne
      have hat : At (Place.hash blake3) t q' := h.reached q' hq'
      obtain ⟨-, hmem', hends'⟩ := hat.endAt hne
      have hsame : q'.2 = q.2 := eq_of_topHash hinj hnamed hmem' hmem hhash
      have hhere : t.endAt (q.1 ++ r) = some s := (hends r).trans hend
      have hthere : t.endAt (q'.1 ++ r) = some s := by rw [hends', hsame, hend]
      obtain ⟨key, hkey⟩ := hlookup hhere
      obtain ⟨key', hkey'⟩ := hlookup hthere
      have hpair := hapart key key' s (hkey ▸ hhere) (hkey' ▸ hthere) hvalue
      have hprefix : q'.1 = q.1 := by
        have hbits : q'.1 ++ r = q.1 ++ r := by rw [hkey, hkey', hpair]
        exact List.append_cancel_right hbits
      rwa [show q = q' from Prod.ext hprefix.symm hsame.symm]
    · cases hskip
    · cases hstack
  induction hq generalizing r with
  | root hroot hs => exact hunique (.root hroot hs) r hend (.inl hroot)
  | @child z q hz hchild hs ih =>
    obtain ⟨b, -, -, -, hbelow⟩ := mem_below hchild
    have hvisited := ih (z.2.topBits ++ b :: r) ((hbelow r).trans hend)
    exact hunique (.child hz hchild hs) r hend (.inr ⟨z, hvisited, hchild⟩)

/-- After puts that are clean the enumeration of a radix tree is what its reads give, each key
once, exactly where no two keys end at nodes with one content. -/
theorem enumeration_is_map_iff (hinj : Function.Injective blake3) {puts : List (Bytes × Bytes)}
    (hclean : CleanPuts blake3 empty puts) :
    ∃ tree all, RadixTree.putAll blake3 puts = .ok tree ∧
      (∃ enough, ∀ fuel, enough ≤ fuel → tree.getAll fuel = .ok all) ∧
      ((∀ key, all.get? key = tree.get key) ↔ (putsInto empty puts).EndsApart) := by
  obtain ⟨tree, hputs, htree⟩ := putAll_represents hinj represents_new hclean
  have hnamed : Named blake3 (putsInto empty puts) :=
    named_putsInto (fun s hs => by cases hs) hclean
  have hkeys : ∀ k, ((putsInto empty puts).lookup k).isSome → ∃ key, k = keyBits key := by
    intro k hk
    exact (exists_key_of_lookup hclean hk).resolve_left (by simp [lookup])
  generalize putsInto empty puts = t at htree hnamed hkeys ⊢
  by_cases hne : t = empty
  · subst hne
    have hroot : tree.rootHash = none := htree.root
    refine ⟨tree, .empty, hputs, ⟨0, fun fuel _ => by rw [RadixTree.getAll, hroot]⟩, ?_⟩
    refine ⟨fun _ key key' s hs => (by cases hs), fun _ key => ?_⟩
    rw [RadixTree.get, hroot]
    rfl
  let weight : Place → Nat := fun p => 2 * p.2.subtries.length + 1
  obtain ⟨⟨visited, found⟩, hrun⟩ : ∃ r, Visit.visit Place.below (Place.hash blake3)
      (fun _ => false) (weight ([], t) + 1) [([], t)] [] [] = some r :=
    Visit.exists_visit weight below_weight (by simp)
  have hvisiting := (Visit.Visiting.start [([], t)]).run hrun
  have hroot : tree.rootHash = some (t.topHash blake3) :=
    htree.root.trans (digest_eq blake3 hne)
  have hall : ∀ fuel, weight ([], t) + 1 ≤ fuel → tree.getAll fuel = .ok (resultsOf visited) := by
    intro fuel hfuel
    have hseen : ∀ h, h ∈ ([] : List H) ↔ h ∈ ([] : List Place).map (Place.hash blake3) := by
      simp
    have hloop := allFrom_eq htree hne (n := fuel) (.start [([], t)]) hseen
    rw [Visit.visit_of_le hfuel hrun] at hloop
    rw [RadixTree.getAll, hroot]
    exact hloop
  have hat : ∀ p ∈ visited, At (Place.hash blake3) t p := hvisiting.reached
  have hvalues : ∀ p ∈ visited, ∀ v, p.2.topValue = some v →
      (∃ key, p.bits = keyBits key) ∧ t.lookup p.bits = some v := by
    intro p hp v hv
    have hlookup : t.lookup p.bits = some v := by
      rw [lookup_eq_endAt, (hat p hp).endAt_bits hne]
      exact hv
    exact ⟨hkeys _ (by rw [hlookup]; rfl), hlookup⟩
  refine ⟨tree, resultsOf visited, hputs, ⟨_, hall⟩, ?_⟩
  constructor
  · intro hmap key key' s hs hs' hvalue
    obtain ⟨v, hv⟩ := Option.isSome_iff_exists.mp hvalue
    have hvisited : ∀ {key}, t.endAt (keyBits key) = some s →
        ∃ p ∈ visited, p.bits = keyBits key ∧ p.2 = s := by
      intro key hend
      have hget : tree.get key = some v := by
        rw [get_eq_lookup htree, lookup_eq_endAt, hend]
        exact hv
      obtain ⟨p, hp, hbits, -⟩ := (get?_resultsOf hvalues key v).mp ((hmap key).trans hget)
      have hplace := (hat p hp).endAt_bits hne
      rw [hbits, hend] at hplace
      exact ⟨p, hp, hbits, (Option.some.inj hplace).symm⟩
    obtain ⟨p, hp, hbits, hps⟩ := hvisited hs
    obtain ⟨p', hp', hbits', hps'⟩ := hvisited hs'
    have hone : p = p' := List.inj_on_of_nodup_map hvisiting.once hp hp' (by
      rw [Place.hash, Place.hash, hps, hps'])
    subst hone
    exact keyBits_inj.mp (hbits.symm.trans hbits')
  · intro hapart key
    refine Option.ext fun v => ?_
    rw [get?_resultsOf hvalues, get_eq_lookup htree]
    constructor
    · rintro ⟨p, hp, hbits, hv⟩
      rw [← hbits]
      exact (hvalues p hp v hv).2
    · intro hv
      rw [lookup_eq_endAt] at hv
      obtain ⟨s, hs, hsv⟩ := Option.bind_eq_some_iff.mp hv
      obtain ⟨prefixBits, hplace, hbits⟩ :
          ∃ p, At (Place.hash blake3) t (p, s) ∧ keyBits key = Place.bits (p, s) := exists_at hs
      have hself := endAt_self (hplace.endAt hne).1
      exact ⟨_, mem_visited_of_apart hinj hnamed hne hkeys hapart hvisiting hplace _ hself
        (by rw [hsv]; rfl), hbits.symm, hsv⟩

end Runs

section Samples

theorem endsApart_of_values {t : Trie Bytes} (h : ∀ key key' v, t.lookup (keyBits key) = some v →
    t.lookup (keyBits key') = some v → key = key') : t.EndsApart := by
  intro key key' s hs hs' hvalue
  obtain ⟨v, hv⟩ := Option.isSome_iff_exists.mp hvalue
  refine h key key' v ?_ ?_
  · rw [lookup_eq_endAt, hs]
    exact hv
  · rw [lookup_eq_endAt, hs']
    exact hv

/-- Two keys with different values are enumerated. -/
theorem two_keys_are_enumerated :
    ∃ tree all, RadixTree.putAll Digest.of [([0], [1]), ([128], [2])] = .ok tree ∧
      (∃ enough, ∀ fuel, enough ≤ fuel → tree.getAll fuel = .ok all) ∧
      ∀ key, all.get? key = tree.get key := by
  let puts : List (Bytes × Bytes) := [([0], [1]), ([128], [2])]
  have hclean : CleanPuts Digest.of .empty puts := by decide
  obtain ⟨tree, all, hputs, hall, hmap⟩ := enumeration_is_map_iff Digest.of_injective hclean
  refine ⟨tree, all, hputs, hall, hmap.mpr (endsApart_of_values fun key key' v hv hv' => ?_)⟩
  rw [lookup_putsInto hclean] at hv hv'
  simp only [puts, List.foldl_cons, List.foldl_nil, lookup] at hv hv'
  split at hv <;> split at hv' <;> simp_all
  · exact absurd (hv'.2.trans hv.symm) (by decide)
  · exact absurd (hv.2.trans hv'.symm) (by decide)

/-- Two keys whose nodes have one content, of which the enumeration has one. -/
theorem equal_leaf_is_left_out :
    Function.Injective Digest.of ∧
      (RadixTree.putAll Digest.of [([0], [1]), ([128], [1])]).map
        (fun tree => (tree.get [0], tree.get [128])) = .ok (some [1], some [1]) ∧
      (do
        let tree ← RadixTree.putAll Digest.of [([0], [1]), ([128], [1])]
        let all ← tree.getAll 10
        return all.pairs) = .ok [([128], [1])] :=
  ⟨Digest.of_injective, by decide, by decide⟩

end Samples

end Astreum
