import Astreum.Dict
import Astreum.Selection
import Astreum.XorDistance
import Mathlib.Data.List.Sort

namespace Astreum

/-- The routing table of a node: keys in buckets by the bits that they share with its own key, and
the peers that are known of them. -/
structure Route (P : Type) where
  storagePublicKey : Bytes
  bucketSize : Nat
  buckets : Nat → List Bytes
  peers : Dict Bytes P

namespace Route

variable {P : Type}

def init (storagePublicKey : Bytes) (bucketSize : Nat) : Route P :=
  ⟨storagePublicKey, bucketSize, fun _ => [], Dict.empty⟩

/-- The bucket of a key. -/
def bucketIdx (r : Route P) (key : Bytes) : Nat := matchingLeadingBits r.storagePublicKey key

/-- The keys in the order of the buckets. -/
def keys (r : Route P) : List Bytes :=
  (List.range (r.storagePublicKey.length * 8)).flatMap r.buckets

/-- `add_peer`. -/
def addPeer (key : Bytes) (peer : Option P) (r : Route P) : Py (Route P) :=
  if key.length ≠ r.storagePublicKey.length then .error .valueError
  else if key = r.storagePublicKey then .ok r
  else
    let i := r.bucketIdx key
    .ok { r with
      buckets := if (r.buckets i).length < r.bucketSize ∧ key ∉ r.buckets i
        then Function.update r.buckets i (r.buckets i ++ [key]) else r.buckets
      peers := match peer with
        | some p => r.peers.insert key p
        | none => r.peers }

/-- `remove_peer`. -/
def removePeer (key : Bytes) (r : Route P) : Py (Route P) :=
  if key.length ≠ r.storagePublicKey.length then .error .valueError
  else if key = r.storagePublicKey then .ok r
  else
    let i := r.bucketIdx key
    if r.buckets i = [] then .ok r
    else .ok { r with
      buckets := Function.update r.buckets i ((r.buckets i).erase key)
      peers := r.peers.erase key }

/-- One key of the loop of `closest_peer_for_hash`. -/
def closer (target : Bytes) (closest : Option (Nat × Bytes)) (key : Bytes) : Option (Nat × Bytes) :=
  match xorDistance target key with
  | .error _ => closest
  | .ok distance => match closest with
    | none => some (distance, key)
    | some c => if distance < c.1 then some (distance, key) else some c

/-- `closest_peer_for_hash`. -/
def closestPeerForHash (target : Bytes) (r : Route P) : Py (Option P) :=
  if target.length ≠ r.storagePublicKey.length then .error .valueError
  else .ok <| match r.keys.foldl (closer target) none with
    | none => none
    | some closest => r.peers.get? closest.2

/-- `closest_peers`. -/
def closestPeers (target : Bytes) (count : Nat) (r : Route P) : Py (List P) := do
  let rows ← withDistances target r.keys
  let sorted := (rows.insertionSort fun p q => p.1 ≤ q.1).map Prod.snd
  return (sorted.filterMap r.peers.get?).take count

/-- A call on a route. -/
inductive Call (P : Type) where
  | add (key : Bytes) (peer : Option P)
  | remove (key : Bytes)

/-- A call that raises leaves the route as it is. -/
def perform (r : Route P) (call : Call P) : Route P :=
  match (match call with
    | .add key peer => r.addPeer key peer
    | .remove key => r.removePeer key) with
  | .ok r' => r'
  | .error _ => r

/-- The route after some calls, the latest first. -/
def run (storagePublicKey : Bytes) (bucketSize : Nat) : List (Call P) → Route P
  | [] => init storagePublicKey bucketSize
  | call :: before => (run storagePublicKey bucketSize before).perform call

/-- A key was added with a peer, and not removed since. -/
def AddedWithPeer (key : Bytes) : List (Call P) → Prop
  | [] => False
  | .add k peer :: before => (k = key ∧ peer.isSome) ∨ AddedWithPeer key before
  | .remove k :: before => k ≠ key ∧ AddedWithPeer key before

/-- A key was removed, and not added since. -/
def Removed (key : Bytes) : List (Call P) → Prop
  | [] => False
  | .add k _ :: before => k ≠ key ∧ Removed key before
  | .remove k :: before => k = key ∨ Removed key before

/-- What the search for one peer and the search for many find from a target. -/
structure FindsNearest (r : Route P) (target : Bytes) (found : Option P) : Prop where
  one : r.closestPeerForHash target = .ok found
  first : ∀ count, ∃ peers, r.closestPeers target (count + 1) = .ok peers ∧ peers.head? = found
  nearest : ∀ p, found = some p → ∃ k ∈ r.keys, r.peers.get? k = some p ∧
    ∀ k' ∈ r.keys, (r.peers.get? k').isSome → distanceTo target k ≤ distanceTo target k'
  none : found = none → ∀ k ∈ r.keys, r.peers.get? k = none

/-- What a route should be after some calls, the latest first. -/
structure Sound (own : Bytes) (size : Nat) (calls : List (Call P)) : Prop where
  fits : ∀ i, ((run own size calls).buckets i).length ≤ size
  distinct : ∀ i, ((run own size calls).buckets i).Nodup
  shares : ∀ i, ∀ key ∈ (run own size calls).buckets i,
    key.length = own.length ∧ SharesBits own key i
  peers : ∀ key, ((run own size calls).peers.get? key).isSome ↔
    key ∈ (run own size calls).keys ∧ AddedWithPeer key calls
  removed : ∀ key, Removed key calls →
    key ∉ (run own size calls).keys ∧ (run own size calls).peers.get? key = none
  finds : ∀ target, target.length = own.length → ∃ found,
    (run own size calls).FindsNearest target found

/-- The call neither gives a peer to a key that has no place, nor mixes keys with and without
a peer. -/
def Keeps (r : Route P) : Call P → Prop
  | .add key (some _) => key.length ≠ r.storagePublicKey.length ∨ key = r.storagePublicKey ∨
      (key ∈ r.buckets (r.bucketIdx key) ∨
        (r.buckets (r.bucketIdx key)).length < r.bucketSize) ∧
      ∀ k ∈ r.keys, k ≠ key → (r.peers.get? k).isSome
  | .add key none => key.length ≠ r.storagePublicKey.length ∨ key = r.storagePublicKey ∨
      key ∈ r.buckets (r.bucketIdx key) ∨ r.bucketSize ≤ (r.buckets (r.bucketIdx key)).length ∨
      ∀ k, r.peers.get? k = none
  | .remove _ => True

/-- Every call is made where it keeps the table sound. -/
def AllKeep (own : Bytes) (size : Nat) : List (Call P) → Prop
  | [] => True
  | call :: before => (run own size before).Keeps call ∧ AllKeep own size before

/-- What holds of the buckets whatever the calls. -/
structure Shaped (own : Bytes) (size : Nat) (r : Route P) : Prop where
  own_eq : r.storagePublicKey = own
  size_eq : r.bucketSize = size
  fits : ∀ i, (r.buckets i).length ≤ size
  distinct : ∀ i, (r.buckets i).Nodup
  member : ∀ i, ∀ key ∈ r.buckets i, key.length = own.length ∧ key ≠ own ∧
    matchingLeadingBits own key = i

variable {own key : Bytes} {size : Nat} {r : Route P} {peer : Option P} {call : Call P}
  {calls : List (Call P)}

theorem Shaped.mem_keys (h : Shaped own size r) {k : Bytes} :
    k ∈ r.keys ↔ k ∈ r.buckets (r.bucketIdx k) := by
  rw [keys, List.mem_flatMap]
  constructor
  · rintro ⟨i, -, hk⟩
    rwa [bucketIdx, h.own_eq, (h.member i k hk).2.2]
  · intro hk
    obtain ⟨hlength, hne, -⟩ := h.member _ k hk
    refine ⟨_, List.mem_range.mpr ?_, hk⟩
    rw [bucketIdx, h.own_eq]
    exact (matchingLeadingBits_spec hlength.symm (Ne.symm hne)).1

theorem perform_add (hlength : key.length = r.storagePublicKey.length)
    (hne : key ≠ r.storagePublicKey) :
    r.perform (.add key peer) = { r with
      buckets := if (r.buckets (r.bucketIdx key)).length < r.bucketSize ∧
          key ∉ r.buckets (r.bucketIdx key)
        then Function.update r.buckets (r.bucketIdx key) (r.buckets (r.bucketIdx key) ++ [key])
        else r.buckets
      peers := match peer with
        | some p => r.peers.insert key p
        | none => r.peers } := by
  simp only [perform, addPeer, if_neg (not_not.mpr hlength), if_neg hne]

theorem perform_remove (hlength : key.length = r.storagePublicKey.length)
    (hne : key ≠ r.storagePublicKey) (hbucket : r.buckets (r.bucketIdx key) ≠ []) :
    r.perform (.remove key) = { r with
      buckets := Function.update r.buckets (r.bucketIdx key)
        ((r.buckets (r.bucketIdx key)).erase key)
      peers := r.peers.erase key } := by
  simp only [perform, removePeer, if_neg (not_not.mpr hlength), if_neg hne, if_neg hbucket]

/-- A call with a key that is not of the length of the own key, or is the own key, does nothing. -/
theorem perform_add_of_inert
    (h : key.length ≠ r.storagePublicKey.length ∨ key = r.storagePublicKey) :
    r.perform (.add key peer) = r := by
  rcases h with hlength | hown
  · simp only [perform, addPeer, if_pos hlength]
  · simp only [perform, addPeer, hown, ne_eq, not_true_eq_false, if_false, if_true]

theorem perform_remove_of_inert
    (h : key.length ≠ r.storagePublicKey.length ∨ key = r.storagePublicKey ∨
      r.buckets (r.bucketIdx key) = []) :
    r.perform (.remove key) = r := by
  rcases h with hlength | hown | hempty
  · simp only [perform, removePeer, if_pos hlength]
  · simp only [perform, removePeer, hown, ne_eq, not_true_eq_false, if_false, if_true]
  · by_cases hlength : key.length ≠ r.storagePublicKey.length
    · simp only [perform, removePeer, if_pos hlength]
    · by_cases hown : key = r.storagePublicKey
      · simp only [perform, removePeer, if_neg hlength, if_pos hown]
      · simp only [perform, removePeer, if_neg hlength, if_neg hown, if_pos hempty]

theorem mem_bucket_add (hlength : key.length = r.storagePublicKey.length)
    (hne : key ≠ r.storagePublicKey) {k : Bytes} {i : Nat} :
    k ∈ (r.perform (.add key peer)).buckets i ↔ k ∈ r.buckets i ∨
      k = key ∧ i = r.bucketIdx key ∧ (r.buckets (r.bucketIdx key)).length < r.bucketSize := by
  rw [perform_add hlength hne]
  dsimp only
  split
  · rename_i hroom
    by_cases hi : i = r.bucketIdx key
    · subst hi
      simp [hroom.1]
    · simp [hi]
  · rename_i hroom
    refine ⟨.inl, ?_⟩
    rintro (hk | ⟨rfl, rfl, hlt⟩)
    · exact hk
    · exact not_not.mp fun hnot => hroom ⟨hlt, hnot⟩

theorem Shaped.mem_bucket_remove (h : Shaped own size r)
    (hlength : key.length = r.storagePublicKey.length) (hne : key ≠ r.storagePublicKey)
    {k : Bytes} {i : Nat} :
    k ∈ (r.perform (.remove key)).buckets i ↔ k ∈ r.buckets i ∧ k ≠ key := by
  have hother : ∀ {i}, i ≠ r.bucketIdx key → key ∉ r.buckets i := by
    intro i hi hk
    refine hi ?_
    rw [bucketIdx, h.own_eq, (h.member i key hk).2.2]
  by_cases hempty : r.buckets (r.bucketIdx key) = []
  · rw [perform_remove_of_inert (.inr (.inr hempty))]
    refine ⟨fun hk => ⟨hk, ?_⟩, And.left⟩
    rintro rfl
    by_cases hi : i = r.bucketIdx k
    · rw [hi, hempty] at hk
      cases hk
    · exact hother hi hk
  · rw [perform_remove hlength hne hempty]
    dsimp only
    by_cases hi : i = r.bucketIdx key
    · subst hi
      rw [Function.update_self, (h.distinct _).mem_erase_iff, and_comm]
    · rw [Function.update_of_ne hi]
      refine ⟨fun hk => ⟨hk, ?_⟩, And.left⟩
      rintro rfl
      exact hother hi hk

theorem fits_append {bucket : List Bytes} (hlt : bucket.length < size) :
    (bucket ++ [key]).length ≤ size := by
  rw [List.length_append, List.length_singleton]
  exact hlt

theorem Shaped.perform (h : Shaped own size r) (call : Call P) :
    Shaped own size (r.perform call) := by
  rcases call with ⟨key, peer⟩ | key
  · by_cases hinert : key.length ≠ r.storagePublicKey.length ∨ key = r.storagePublicKey
    · rwa [perform_add_of_inert hinert]
    obtain ⟨hlength, hne⟩ := not_or.mp hinert
    have hlength := not_not.mp hlength
    have hadd : r.perform (.add key peer) = _ := perform_add hlength hne
    refine ⟨by rw [hadd, h.own_eq], by rw [hadd, h.size_eq], fun i => ?_, fun i => ?_,
      fun i k hk => ?_⟩
    · rw [hadd]
      dsimp only
      split
      · rename_i hroom
        by_cases hi : i = r.bucketIdx key
        · rw [hi, Function.update_self]
          exact fits_append (h.size_eq ▸ hroom.1)
        · rw [Function.update_of_ne hi]
          exact h.fits i
      · exact h.fits i
    · rw [hadd]
      dsimp only
      split
      · rename_i hroom
        by_cases hi : i = r.bucketIdx key
        · rw [hi, Function.update_self]
          refine List.nodup_append.mpr ⟨h.distinct _, List.nodup_singleton key, ?_⟩
          rintro a ha b hb rfl
          exact hroom.2 (List.mem_singleton.mp hb ▸ ha)
        · rw [Function.update_of_ne hi]
          exact h.distinct i
      · exact h.distinct i
    · rcases (mem_bucket_add hlength hne).mp hk with hk | ⟨rfl, rfl, -⟩
      · exact h.member i k hk
      · rw [h.own_eq] at hlength hne
        exact ⟨hlength, hne, by rw [bucketIdx, h.own_eq]⟩
  · by_cases hinert : key.length ≠ r.storagePublicKey.length ∨ key = r.storagePublicKey ∨
        r.buckets (r.bucketIdx key) = []
    · rwa [perform_remove_of_inert hinert]
    obtain ⟨hlength, hrest⟩ := not_or.mp hinert
    obtain ⟨hne, hbucket⟩ := not_or.mp hrest
    have hlength := not_not.mp hlength
    have hremove := perform_remove hlength hne hbucket
    have hsub : ∀ i, ((r.perform (.remove key)).buckets i).Sublist (r.buckets i) := by
      intro i
      rw [hremove]
      dsimp only
      by_cases hi : i = r.bucketIdx key
      · rw [hi, Function.update_self]
        exact List.erase_sublist
      · rw [Function.update_of_ne hi]
    refine ⟨by rw [hremove, h.own_eq], by rw [hremove, h.size_eq], fun i => ?_, fun i => ?_,
      fun i k hk => ?_⟩
    · exact (hsub i).length_le.trans (h.fits i)
    · exact (h.distinct i).sublist (hsub i)
    · exact h.member i k ((hsub i).subset hk)

theorem shaped_run (own : Bytes) (size : Nat) (calls : List (Call P)) :
    Shaped own size (run own size calls) := by
  induction calls with
  | nil =>
    exact ⟨rfl, rfl, fun _ => Nat.zero_le _, fun _ => List.nodup_nil, fun _ _ hk => by cases hk⟩
  | cons call calls ih => exact ih.perform call

section Search

variable {target : Bytes} {keys : List Bytes}

theorem foldl_closer (hlength : ∀ k ∈ keys, target.length = k.length) (start : Nat × Bytes) :
    ∃ c, keys.foldl (closer target) (some start) = some c ∧
      (c = start ∨ c.2 ∈ keys ∧ c.1 = distanceTo target c.2) ∧ c.1 ≤ start.1 ∧
      ∀ k ∈ keys, c.1 ≤ distanceTo target k := by
  induction keys generalizing start with
  | nil => exact ⟨start, rfl, .inl rfl, le_rfl, fun _ h => absurd h List.not_mem_nil⟩
  | cons k keys ih =>
    have hstep : closer target (some start) k =
        some (if distanceTo target k < start.1 then (distanceTo target k, k) else start) := by
      rw [closer, xorDistance_of_length (hlength k List.mem_cons_self)]
      dsimp only
      split <;> rfl
    obtain ⟨c, hfold, hfrom, hle, hall⟩ :=
      ih (fun k' hk' => hlength k' (List.mem_cons_of_mem k hk'))
        (if distanceTo target k < start.1 then (distanceTo target k, k) else start)
    have hstart : c.1 ≤ start.1 ∧ c.1 ≤ distanceTo target k := by
      split at hle
      · exact ⟨hle.trans (le_of_lt ‹_›), hle⟩
      · exact ⟨hle, hle.trans (not_lt.mp ‹_›)⟩
    refine ⟨c, by rw [List.foldl_cons, hstep, hfold], ?_, hstart.1, fun k' hk' => ?_⟩
    · rcases hfrom with rfl | ⟨hmem, heq⟩
      · split
        · exact .inr ⟨List.mem_cons_self, rfl⟩
        · exact .inl rfl
      · exact .inr ⟨List.mem_cons_of_mem k hmem, heq⟩
    · rcases List.mem_cons.mp hk' with rfl | hk'
      · exact hstart.2
      · exact hall k' hk'

/-- The loop over all keys ends at one that is nearest. -/
theorem closest_of_ne_nil (hlength : ∀ k ∈ keys, target.length = k.length) (hne : keys ≠ []) :
    ∃ k ∈ keys, keys.foldl (closer target) none = some (distanceTo target k, k) ∧
      ∀ k' ∈ keys, distanceTo target k ≤ distanceTo target k' := by
  obtain ⟨k, keys, rfl⟩ := List.exists_cons_of_ne_nil hne
  have hfirst : closer target none k = some (distanceTo target k, k) := by
    rw [closer, xorDistance_of_length (hlength k List.mem_cons_self)]
  obtain ⟨c, hfold, hfrom, hle, hall⟩ := foldl_closer
    (fun k' hk' => hlength k' (List.mem_cons_of_mem k hk')) (distanceTo target k, k)
  rw [List.foldl_cons, hfirst, hfold]
  rcases hfrom with rfl | ⟨hmem, heq⟩
  · refine ⟨k, List.mem_cons_self, rfl, fun k' hk' => ?_⟩
    rcases List.mem_cons.mp hk' with rfl | hk'
    · exact le_rfl
    · exact hall k' hk'
  · refine ⟨c.2, List.mem_cons_of_mem k hmem, by rw [← heq], fun k' hk' => ?_⟩
    rw [← heq]
    rcases List.mem_cons.mp hk' with rfl | hk'
    · exact hle
    · exact hall k' hk'

/-- The keys in the order of their distances. -/
def sortedKeys (target : Bytes) (keys : List Bytes) : List Bytes :=
  keys.insertionSort fun a b => distanceTo target a ≤ distanceTo target b

theorem sortedKeys_pairwise (target : Bytes) (keys : List Bytes) :
    (sortedKeys target keys).Pairwise fun a b => distanceTo target a ≤ distanceTo target b := by
  have : IsTrans Bytes fun a b => distanceTo target a ≤ distanceTo target b :=
    ⟨fun _ _ _ => le_trans⟩
  have : Std.Total fun a b : Bytes => distanceTo target a ≤ distanceTo target b :=
    ⟨fun _ _ => le_total _ _⟩
  exact List.pairwise_insertionSort _ _

theorem mem_sortedKeys {k : Bytes} : k ∈ sortedKeys target keys ↔ k ∈ keys :=
  List.mem_insertionSort _

theorem closestPeers_eq (r : Route P) (hlength : ∀ k ∈ r.keys, target.length = k.length)
    (count : Nat) : r.closestPeers target count =
      .ok (((sortedKeys target r.keys).filterMap r.peers.get?).take count) := by
  have hsorted : ((r.keys.map fun k => (distanceTo target k, k)).insertionSort
      fun p q => p.1 ≤ q.1).map Prod.snd = sortedKeys target r.keys := by
    rw [sortedKeys, ← List.map_insertionSort
      (fun a b => distanceTo target a ≤ distanceTo target b) (fun p q : Nat × Bytes => p.1 ≤ q.1)
      (fun k => (distanceTo target k, k)) _ fun _ _ _ _ => Iff.rfl, List.map_map]
    exact List.map_id' _
  rw [closestPeers, withDistances_eq hlength]
  simp only [bind, Except.bind, pure, Except.pure, hsorted]

theorem closestPeerForHash_eq (r : Route P) {k : Bytes}
    (htarget : target.length = r.storagePublicKey.length) {d : Nat}
    (hclosest : r.keys.foldl (closer target) none = some (d, k)) :
    r.closestPeerForHash target = .ok (r.peers.get? k) := by
  rw [closestPeerForHash, if_neg (not_not.mpr htarget), hclosest]

/-- Where all keys have a peer, or none has, both searches find the peer of the nearest key. -/
theorem Shaped.finds (h : Shaped own size r)
    (huniform : (∀ k ∈ r.keys, (r.peers.get? k).isSome) ∨ ∀ k, r.peers.get? k = none)
    (htarget : target.length = own.length) : ∃ found, r.FindsNearest target found := by
  have hlength : ∀ k ∈ r.keys, target.length = k.length := fun k hk =>
    htarget.trans (h.member _ k (h.mem_keys.mp hk)).1.symm
  have htarget' : target.length = r.storagePublicKey.length := by rw [h.own_eq, htarget]
  by_cases hkeys : r.keys = []
  · refine ⟨none, ⟨?_, fun count => ⟨[], ?_, rfl⟩, fun p hp => (by cases hp), fun _ k hk => ?_⟩⟩
    · rw [closestPeerForHash, if_neg (not_not.mpr htarget'), hkeys]
      rfl
    · rw [closestPeers_eq r hlength, hkeys]
      rfl
    · rw [hkeys] at hk
      cases hk
  obtain ⟨k, hk, hclosest, hnearest⟩ := closest_of_ne_nil hlength hkeys
  have hone := closestPeerForHash_eq r htarget' hclosest
  rcases huniform with hall | hnone
  · obtain ⟨p, hp⟩ := Option.isSome_iff_exists.mp (hall k hk)
    refine ⟨some p, ⟨hp ▸ hone, fun count => ?_, ?_, fun hcon => by cases hcon⟩⟩
    · obtain ⟨k₀, rest, hsorted⟩ := List.exists_cons_of_ne_nil
        (List.ne_nil_of_mem (mem_sortedKeys.mpr hk : k ∈ sortedKeys target r.keys))
      have hmem : k₀ ∈ r.keys := mem_sortedKeys.mp (hsorted ▸ List.mem_cons_self)
      have hle : distanceTo target k₀ ≤ distanceTo target k := by
        have hin : k ∈ sortedKeys target r.keys := mem_sortedKeys.mpr hk
        have hpairs := sortedKeys_pairwise target r.keys
        rw [hsorted] at hin hpairs
        rcases List.mem_cons.mp hin with rfl | hin
        · exact le_rfl
        · exact (List.pairwise_cons.mp hpairs).1 k hin
      have hsame : k₀ = k := distanceTo_inj (hlength k₀ hmem) (hlength k hk)
        (le_antisymm hle (hnearest k₀ hmem))
      refine ⟨_, closestPeers_eq r hlength (count + 1), ?_⟩
      rw [hsorted, hsame, List.filterMap_cons_some hp, List.take_succ_cons, List.head?_cons]
    · intro p' hp'
      obtain rfl := Option.some.inj hp'
      exact ⟨k, hk, hp, fun k' hk' _ => hnearest k' hk'⟩
  · refine ⟨none, ⟨hnone k ▸ hone, fun count => ⟨[], ?_, rfl⟩, fun p hp => (by cases hp),
      fun _ k' _ => hnone k'⟩⟩
    rw [closestPeers_eq r hlength, List.filterMap_eq_nil_iff.mpr fun k' _ => hnone k']
    rfl

end Search

/-- What the allowed calls keep, besides the shape of the buckets. -/
structure Kept (r : Route P) (calls : List (Call P)) : Prop where
  peers : ∀ key, (r.peers.get? key).isSome ↔ key ∈ r.keys ∧ AddedWithPeer key calls
  removed : ∀ key, Removed key calls → key ∉ r.keys
  added : ∀ key, AddedWithPeer key calls → key.length = r.storagePublicKey.length →
    key ≠ r.storagePublicKey → key ∈ r.keys
  uniform : (∀ k ∈ r.keys, (r.peers.get? k).isSome) ∨ ∀ k, r.peers.get? k = none

theorem Shaped.mem_keys_add (h : Shaped own size r)
    (hlength : key.length = r.storagePublicKey.length) (hne : key ≠ r.storagePublicKey) {k : Bytes} :
    k ∈ (r.perform (.add key peer)).keys ↔ k ∈ r.keys ∨
      k = key ∧ (r.buckets (r.bucketIdx key)).length < r.bucketSize := by
  have hidx : (r.perform (.add key peer)).bucketIdx k = r.bucketIdx k := by
    rw [bucketIdx, bucketIdx, (h.perform _).own_eq, h.own_eq]
  rw [(h.perform _).mem_keys, h.mem_keys, hidx, mem_bucket_add hlength hne]
  constructor
  · rintro (hk | ⟨rfl, -, hlt⟩)
    · exact .inl hk
    · exact .inr ⟨rfl, hlt⟩
  · rintro (hk | ⟨rfl, hlt⟩)
    · exact .inl hk
    · exact .inr ⟨rfl, rfl, hlt⟩

theorem Shaped.mem_keys_remove (h : Shaped own size r)
    (hlength : key.length = r.storagePublicKey.length) (hne : key ≠ r.storagePublicKey)
    {k : Bytes} : k ∈ (r.perform (.remove key)).keys ↔ k ∈ r.keys ∧ k ≠ key := by
  have hidx : (r.perform (.remove key)).bucketIdx k = r.bucketIdx k := by
    rw [bucketIdx, bucketIdx, (h.perform _).own_eq, h.own_eq]
  rw [(h.perform _).mem_keys, h.mem_keys, hidx, h.mem_bucket_remove hlength hne]

theorem get?_add (hlength : key.length = r.storagePublicKey.length)
    (hne : key ≠ r.storagePublicKey) (k : Bytes) :
    (r.perform (.add key peer)).peers.get? k =
      if key = k ∧ peer.isSome then peer else r.peers.get? k := by
  rw [perform_add hlength hne]
  cases peer with
  | none => simp
  | some p => simp [Dict.get?_insert]

theorem get?_remove (hlength : key.length = r.storagePublicKey.length)
    (hne : key ≠ r.storagePublicKey) (hpeers : key ∉ r.keys → r.peers.get? key = none)
    (hmem : key ∈ r.keys → r.buckets (r.bucketIdx key) ≠ []) (k : Bytes) :
    (r.perform (.remove key)).peers.get? k = if k = key then none else r.peers.get? k := by
  by_cases hbucket : r.buckets (r.bucketIdx key) = []
  · rw [perform_remove_of_inert (.inr (.inr hbucket))]
    split
    · rename_i hk
      rw [hk, hpeers fun hin => hmem hin hbucket]
    · rfl
  · rw [perform_remove hlength hne hbucket, Dict.get?_erase]

theorem Shaped.not_mem_of_inert (h : Shaped own size r)
    (hinert : key.length ≠ r.storagePublicKey.length ∨ key = r.storagePublicKey) :
    key ∉ r.keys := by
  intro hk
  obtain ⟨hlength, hne, -⟩ := h.member _ key (h.mem_keys.mp hk)
  rw [h.own_eq] at hinert
  exact hinert.elim (fun hcon => hcon hlength) hne

theorem kept_init (own : Bytes) (size : Nat) : Kept (init own size : Route P) [] where
  peers := fun _ => ⟨fun h => (by cases h), fun h => absurd h.2 id⟩
  removed := fun _ h => absurd h id
  added := fun _ h => absurd h id
  uniform := .inr fun _ => rfl

theorem Kept.add_inert (h : Kept r calls) (hshaped : Shaped own size r)
    (hinert : key.length ≠ r.storagePublicKey.length ∨ key = r.storagePublicKey) :
    Kept (r.perform (.add key peer)) (.add key peer :: calls) := by
  have hnot := hshaped.not_mem_of_inert hinert
  rw [perform_add_of_inert hinert]
  refine ⟨fun k => ?_, fun k hk => h.removed k hk.2, fun k hk hlength hne => ?_, h.uniform⟩
  · rw [h.peers, AddedWithPeer]
    refine and_congr_right fun hk => ⟨.inr, ?_⟩
    rintro (⟨rfl, -⟩ | hadded)
    · exact absurd hk hnot
    · exact hadded
  · rcases hk with ⟨rfl, -⟩ | hk
    · exact absurd hinert (not_or.mpr ⟨not_not.mpr hlength, hne⟩)
    · exact h.added k hk hlength hne

theorem Kept.add_some (h : Kept r calls) (hshaped : Shaped own size r) {p : P}
    (hlength : key.length = r.storagePublicKey.length) (hne : key ≠ r.storagePublicKey)
    (hplace : key ∈ r.buckets (r.bucketIdx key) ∨
      (r.buckets (r.bucketIdx key)).length < r.bucketSize)
    (hall : ∀ k ∈ r.keys, k ≠ key → (r.peers.get? k).isSome) :
    Kept (r.perform (.add key (some p))) (.add key (some p) :: calls) := by
  have hown := (hshaped.perform (.add key (some p))).own_eq.trans hshaped.own_eq.symm
  have hkey : key ∈ (r.perform (.add key (some p))).keys :=
    (hshaped.mem_keys_add hlength hne).mpr
      (hplace.imp hshaped.mem_keys.mpr fun hlt => ⟨rfl, hlt⟩)
  have hother : ∀ {k}, k ≠ key → (k ∈ (r.perform (.add key (some p))).keys ↔ k ∈ r.keys) :=
    fun hk => (hshaped.mem_keys_add hlength hne).trans (or_iff_left fun hcon => hk hcon.1)
  refine ⟨fun k => ?_, fun k hk => ?_, fun k hk hlen hk' => ?_, .inl fun k hk => ?_⟩
  · rw [get?_add hlength hne, AddedWithPeer]
    by_cases hk : key = k
    · subst hk
      simp [hkey]
    · rw [if_neg fun hcon => hk hcon.1, h.peers, hother (Ne.symm hk)]
      simp [hk]
  · rw [hother (Ne.symm hk.1)]
    exact h.removed k hk.2
  · rcases hk with ⟨rfl, -⟩ | hk
    · exact hkey
    · rw [hown] at hlen hk'
      exact (hshaped.mem_keys_add hlength hne).mpr (.inl (h.added k hk hlen hk'))
  · rw [get?_add hlength hne]
    by_cases hsame : key = k
    · simp [hsame]
    · rw [if_neg fun hcon => hsame hcon.1]
      exact hall k ((hother (Ne.symm hsame)).mp hk) (Ne.symm hsame)

theorem Kept.add_none (h : Kept r calls) (hshaped : Shaped own size r)
    (hlength : key.length = r.storagePublicKey.length) (hne : key ≠ r.storagePublicKey)
    (hplace : key ∈ r.buckets (r.bucketIdx key) ∨
      r.bucketSize ≤ (r.buckets (r.bucketIdx key)).length ∨ ∀ k, r.peers.get? k = none) :
    Kept (r.perform (.add key none)) (.add key none :: calls) := by
  have hown := (hshaped.perform (.add key none)).own_eq.trans hshaped.own_eq.symm
  have hsub : ∀ {k}, k ∈ r.keys → k ∈ (r.perform (.add key none)).keys :=
    fun hk => (hshaped.mem_keys_add hlength hne).mpr (.inl hk)
  have hsame : ∀ k, (r.perform (.add key none)).peers.get? k = r.peers.get? k := fun k => by
    rw [get?_add hlength hne, if_neg fun hcon => absurd hcon.2 Bool.false_ne_true]
  have hadded : ∀ k, AddedWithPeer k (.add key none :: calls) ↔ AddedWithPeer k calls := fun k =>
    or_iff_right fun hcon => absurd hcon.2 Bool.false_ne_true
  have hnew : ∀ {k}, k ∈ (r.perform (.add key none)).keys → k ∈ r.keys ∨
      k = key ∧ ∀ k, r.peers.get? k = none := by
    intro k hk
    rcases (hshaped.mem_keys_add hlength hne).mp hk with hk | ⟨rfl, hlt⟩
    · exact .inl hk
    · rcases hplace with hin | hfull | hnone
      · exact .inl (hshaped.mem_keys.mpr hin)
      · exact absurd hlt (not_lt.mpr hfull)
      · exact .inr ⟨rfl, hnone⟩
  refine ⟨fun k => ?_, fun k hk hin => ?_, fun k hk hlen hk' => ?_, ?_⟩
  · rw [hsame, hadded, h.peers]
    refine ⟨fun hk => ⟨hsub hk.1, hk.2⟩, fun hk => ⟨?_, hk.2⟩⟩
    rcases hnew hk.1 with hin | ⟨rfl, -⟩
    · exact hin
    · exact h.added k hk.2 hlength hne
  · rcases (hshaped.mem_keys_add hlength hne).mp hin with hin | ⟨rfl, -⟩
    · exact h.removed k hk.2 hin
    · exact hk.1 rfl
  · rw [hown] at hlen hk'
    exact hsub (h.added k ((hadded k).mp hk) hlen hk')
  · rcases h.uniform with hall | hnone
    · by_cases hnone : ∀ k, r.peers.get? k = none
      · exact .inr fun k => (hsame k).trans (hnone k)
      · refine .inl fun k hk => ?_
        rw [hsame]
        exact hall k ((hnew hk).resolve_right fun hcon => hnone hcon.2)
    · exact .inr fun k => (hsame k).trans (hnone k)

theorem Kept.remove (h : Kept r calls) (hshaped : Shaped own size r) (key : Bytes) :
    Kept (r.perform (.remove key)) (.remove key :: calls) := by
  have hown := (hshaped.perform (.remove key)).own_eq.trans hshaped.own_eq.symm
  have hnone : key ∉ r.keys → r.peers.get? key = none := fun hnot =>
    Option.not_isSome_iff_eq_none.mp fun hcon => hnot ((h.peers key).mp hcon).1
  have hkeys : ∀ k, k ∈ (r.perform (.remove key)).keys ↔ k ∈ r.keys ∧ k ≠ key := by
    intro k
    by_cases hinert : key.length ≠ r.storagePublicKey.length ∨ key = r.storagePublicKey
    · rw [perform_remove_of_inert (hinert.imp_right .inl)]
      refine ⟨fun hk => ⟨hk, ?_⟩, And.left⟩
      rintro rfl
      exact hshaped.not_mem_of_inert hinert hk
    · obtain ⟨hlength, hne⟩ := not_or.mp hinert
      exact hshaped.mem_keys_remove (not_not.mp hlength) hne
  have hget : ∀ k, (r.perform (.remove key)).peers.get? k =
      if k = key then none else r.peers.get? k := by
    intro k
    by_cases hinert : key.length ≠ r.storagePublicKey.length ∨ key = r.storagePublicKey
    · rw [perform_remove_of_inert (hinert.imp_right .inl)]
      split
      · rename_i hk
        rw [hk, hnone (hshaped.not_mem_of_inert hinert)]
      · rfl
    · obtain ⟨hlength, hne⟩ := not_or.mp hinert
      exact get?_remove (not_not.mp hlength) hne hnone
        (fun hin => List.ne_nil_of_mem (hshaped.mem_keys.mp hin)) k
  refine ⟨fun k => ?_, fun k hk => ?_, fun k hk hlen hk' => ?_, ?_⟩
  · rw [hget, hkeys, AddedWithPeer]
    by_cases hk : k = key
    · simp [hk]
    · rw [if_neg hk, h.peers]
      simp [hk, Ne.symm hk]
  · rw [hkeys, not_and_not_right]
    intro hin
    rcases hk with rfl | hk
    · rfl
    · exact absurd hin (h.removed k hk)
  · rw [hown] at hlen hk'
    exact (hkeys k).mpr ⟨h.added k hk.2 hlen hk', Ne.symm hk.1⟩
  · refine h.uniform.imp (fun hall k hk => ?_) fun hnone k => ?_
    · rw [hget, if_neg ((hkeys k).mp hk).2]
      exact hall k ((hkeys k).mp hk).1
    · rw [hget, hnone, ite_self]

/-- An allowed call keeps the table. -/
theorem Kept.perform (h : Kept r calls) (hshaped : Shaped own size r) (hkeeps : r.Keeps call) :
    Kept (r.perform call) (call :: calls) := by
  rcases call with ⟨key, peer⟩ | key
  · by_cases hinert : key.length ≠ r.storagePublicKey.length ∨ key = r.storagePublicKey
    · exact h.add_inert hshaped hinert
    obtain ⟨hlength, hne⟩ := not_or.mp hinert
    cases peer with
    | some p =>
      obtain ⟨hplace, hall⟩ := (hkeeps.resolve_left hlength).resolve_left hne
      exact h.add_some hshaped (not_not.mp hlength) hne hplace hall
    | none =>
      exact h.add_none hshaped (not_not.mp hlength) hne
        ((hkeeps.resolve_left hlength).resolve_left hne)
  · exact h.remove hshaped key

theorem kept_run (hkeep : AllKeep own size calls) : Kept (run own size calls) calls := by
  induction calls with
  | nil => exact kept_init own size
  | cons call calls ih => exact (ih hkeep.2).perform (shaped_run own size calls) hkeep.1

theorem Kept.sound (h : Kept (run own size calls) calls) : Sound own size calls := by
  have hshaped := shaped_run own size calls
  refine ⟨hshaped.fits, hshaped.distinct, fun i key hk => ?_, h.peers, fun key hk => ?_,
    fun target htarget => hshaped.finds h.uniform htarget⟩
  · obtain ⟨hlength, hne, hidx⟩ := hshaped.member i key hk
    exact ⟨hlength, hidx ▸ (matchingLeadingBits_spec hlength.symm (Ne.symm hne)).2⟩
  · have hnot := h.removed key hk
    exact ⟨hnot, Option.not_isSome_iff_eq_none.mp fun hcon => hnot ((h.peers key).mp hcon).1⟩

/-- Where one key has a peer and another has none, the search from the one without is misled. -/
theorem Shaped.not_finds (h : Shaped own size r) {k : Bytes} (k' : Bytes) (hk : k ∈ r.keys)
    (hnone : r.peers.get? k = none) (hk' : k' ∈ r.keys) (hsome : (r.peers.get? k').isSome) :
    ¬∃ found, r.FindsNearest k found := by
  rintro ⟨found, hfinds⟩
  have hlength : ∀ x ∈ r.keys, x.length = own.length := fun x hx =>
    (h.member _ x (h.mem_keys.mp hx)).1
  obtain ⟨c, hc, hclosest, hnearest⟩ := closest_of_ne_nil
    (fun x hx => (hlength k hk).trans (hlength x hx).symm) (List.ne_nil_of_mem hk)
  have hzero := hnearest k hk
  rw [distanceTo_self, Nat.le_zero] at hzero
  have hsame : c = k := distanceTo_inj ((hlength k hk).trans (hlength c hc).symm) rfl
    (hzero.trans (distanceTo_self k).symm)
  rw [hsame] at hclosest
  have hone := closestPeerForHash_eq r (by rw [h.own_eq]; exact hlength k hk) hclosest
  rw [hnone, hfinds.one] at hone
  have hempty := hfinds.none (Except.ok.inj hone) k' hk'
  rw [hempty] at hsome
  cases hsome

/-- A call that is not allowed leaves a table that is not sound. -/
theorem Sound.keeps (h : Sound own size calls) (h' : Sound own size (call :: calls)) :
    (run own size calls).Keeps call := by
  have hshaped := shaped_run own size calls
  have hshaped' := shaped_run own size (call :: calls)
  have hlen : ∀ {k}, k ∈ (run own size (call :: calls)).keys → k.length = own.length := fun hk =>
    (hshaped'.member _ _ (hshaped'.mem_keys.mp hk)).1
  rcases call with ⟨key, peer⟩ | key
  · by_cases hinert : key.length ≠ (run own size calls).storagePublicKey.length ∨
        key = (run own size calls).storagePublicKey
    · cases peer with
      | some p => exact hinert.imp_right .inl
      | none => exact hinert.imp_right .inl
    obtain ⟨hlength, hne⟩ := not_or.mp hinert
    have hlength := not_not.mp hlength
    cases peer with
    | some p =>
      refine .inr (.inr ⟨?_, fun k hk hkey => ?_⟩)
      · have hsome := (h'.peers key).mp (by
          rw [run, get?_add hlength hne, if_pos ⟨rfl, rfl⟩]
          rfl)
        rcases (hshaped.mem_keys_add hlength hne).mp hsome.1 with hin | ⟨-, hlt⟩
        · exact .inl (hshaped.mem_keys.mp hin)
        · exact .inr hlt
      · by_contra hcon
        have hin : k ∈ (run own size (.add key (some p) :: calls)).keys :=
          (hshaped.mem_keys_add hlength hne).mpr (.inl hk)
        refine hshaped'.not_finds key hin ?_ ?_ ?_ (h'.finds k (hlen hin))
        · rw [run, get?_add hlength hne, if_neg fun hcon => hkey hcon.1.symm]
          exact Option.not_isSome_iff_eq_none.mp hcon
        · exact ((h'.peers key).mp (by
            rw [run, get?_add hlength hne, if_pos ⟨rfl, rfl⟩]
            rfl)).1
        · rw [run, get?_add hlength hne, if_pos ⟨rfl, rfl⟩]
          rfl
    | none =>
      refine .inr (.inr ?_)
      by_contra hcon
      obtain ⟨hnot, hcon⟩ := not_or.mp hcon
      obtain ⟨hroom, hpeers⟩ := not_or.mp hcon
      push Not at hpeers
      obtain ⟨k, hk⟩ := hpeers
      have hsome := Option.ne_none_iff_isSome.mp hk
      have hin : key ∈ (run own size (.add key none :: calls)).keys :=
        (hshaped.mem_keys_add hlength hne).mpr (.inr ⟨rfl, not_le.mp hroom⟩)
      have hsame : ∀ k, (run own size (.add key none :: calls)).peers.get? k =
          (run own size calls).peers.get? k := fun k => by
        rw [run, get?_add hlength hne, if_neg fun hcon => absurd hcon.2 Bool.false_ne_true]
      refine hshaped'.not_finds k hin ?_ ?_ ?_ (h'.finds key (hlen hin))
      · rw [hsame]
        refine Option.not_isSome_iff_eq_none.mp fun hcon => hnot ?_
        exact hshaped.mem_keys.mp ((h.peers key).mp hcon).1
      · exact (hshaped.mem_keys_add hlength hne).mpr (.inl ((h.peers k).mp hsome).1)
      · rwa [hsame]
  · trivial

theorem AllKeep.of_suffix {before : List (Call P)} (h : AllKeep own size calls)
    (hsuffix : before <:+ calls) : AllKeep own size before := by
  induction calls with
  | nil =>
    rw [List.suffix_nil.mp hsuffix]
    trivial
  | cons call calls ih =>
    rcases List.suffix_cons_iff.mp hsuffix with rfl | hsuffix
    · exact h
    · exact ih h.2 hsuffix

/-- A table is sound in every state of a run just when no call gives a peer to a key without
a place or mixes keys with and without a peer. -/
theorem route_sound_iff (own : Bytes) (size : Nat) (calls : List (Call P)) :
    (∀ before, before <:+ calls → Sound own size before) ↔ AllKeep own size calls := by
  constructor
  · intro h
    induction calls with
    | nil => trivial
    | cons call calls ih =>
      refine ⟨Sound.keeps (h calls (List.suffix_cons call calls)) (h _ (List.suffix_refl _)), ?_⟩
      exact ih fun before hb => h before (hb.trans (List.suffix_cons call calls))
  · intro h before hb
    exact (kept_run (h.of_suffix hb)).sound

/-- A key that is added without a peer hides the peer of the other key. -/
theorem key_without_peer_hides_others :
    ¬∀ calls : List (Call Unit), Sound zero32 16 calls := by
  intro hall
  have hsound := hall [.add (List.replicate 32 2) (some ()), .add (List.replicate 32 1) none]
  obtain ⟨found, hfinds⟩ := hsound.finds (List.replicate 32 1) rfl
  have hone : (run zero32 16 [.add (List.replicate 32 2) (some ()),
      .add (List.replicate 32 1) none]).closestPeerForHash (List.replicate 32 1) =
        .ok (none : Option Unit) := by decide +kernel
  have hmem : (List.replicate 32 2 : Bytes) ∈ (run zero32 16 [.add (List.replicate 32 2) (some ()),
      .add (List.replicate 32 1) none]).keys := by decide +kernel
  have hpeer : (run zero32 16 [.add (List.replicate 32 2) (some ()),
      .add (List.replicate 32 1) none]).peers.get? (List.replicate 32 2) = some () := by
    decide +kernel
  have hnone := hfinds.none (Except.ok.inj (hfinds.one.symm.trans hone)) _ hmem
  cases hpeer.symm.trans hnone

end Route

end Astreum
