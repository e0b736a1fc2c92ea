import Astreum.Dict
import Astreum.Python
import Mathlib.Data.Finset.Basic
import Mathlib.Tactic.Ring

namespace Astreum

/-- A branch head of the chain, with the markers its verification leaves behind. -/
structure Fork where
  head : Bytes
  root : Bytes := zero32
  headerVerifiedUpTo : Option Bytes := none
  transactionsVerifiedUpTo : Option Bytes := none
  maliciousBlockHash : Option Bytes := none
  peers : Finset Bytes := ∅
  deriving DecidableEq

/-- `node.forks`. -/
abbrev Forks := Dict Bytes Fork

/-- `_is_fully_verified`. -/
def isFullyVerified (fork : Fork) : Bool :=
  fork.headerVerifiedUpTo == some fork.root && fork.transactionsVerifiedUpTo == some fork.root

/-- `update_fork`. -/
def updateFork (headId : Bytes) (updates : Fork → Fork) : Stateful Forks Unit := do
  let forks ← Eff.read
  match forks.get? headId with
  | none => .raise .keyError
  | some fork => .write (forks.insert headId (updates fork))

/-- A marker in the bytes of a fork: a flag and 32 bytes. -/
def encodeMarker (marker : Option Bytes) : Bytes :=
  match marker with
  | none => 0 :: zero32
  | some hash => 1 :: hash

def decodeMarker (payload : Bytes) : Option Bytes :=
  match payload with
  | [] => none
  | flag :: hash => if flag = 0 then none else some hash

namespace Fork

def toBytes (fork : Fork) : Bytes :=
  fork.head ++ fork.root ++ encodeMarker fork.headerVerifiedUpTo ++
    encodeMarker fork.transactionsVerifiedUpTo ++ encodeMarker fork.maliciousBlockHash

/-- `fork_size`. -/
def size : Nat := 32 + 32 + 33 + 33 + 33

def fromBytes (payload : Bytes) : Py Fork :=
  if payload.length = size then
    .ok
      { head := payload.take 32
        root := (payload.drop 32).take 32
        headerVerifiedUpTo := decodeMarker ((payload.drop 64).take 33)
        transactionsVerifiedUpTo := decodeMarker ((payload.drop 97).take 33)
        maliciousBlockHash := decodeMarker ((payload.drop 130).take 33) }
  else
    .error .valueError

/-- The hashes of a fork are all of 32 bytes. -/
structure Sized (fork : Fork) : Prop where
  head : fork.head.length = 32
  root : fork.root.length = 32
  headerVerifiedUpTo : ∀ hash ∈ fork.headerVerifiedUpTo, hash.length = 32
  transactionsVerifiedUpTo : ∀ hash ∈ fork.transactionsVerifiedUpTo, hash.length = 32
  maliciousBlockHash : ∀ hash ∈ fork.maliciousBlockHash, hash.length = 32

end Fork

theorem length_encodeMarker {marker : Option Bytes} (h : ∀ hash ∈ marker, hash.length = 32) :
    (encodeMarker marker).length = 33 := by
  cases marker with
  | none => rfl
  | some hash => simp [encodeMarker, h hash rfl]

theorem decodeMarker_encodeMarker (marker : Option Bytes) :
    decodeMarker (encodeMarker marker) = marker := by
  cases marker with
  | none => rfl
  | some hash => simp [encodeMarker, decodeMarker]

theorem Fork.length_toBytes {fork : Fork} (h : fork.Sized) : fork.toBytes.length = size := by
  simp only [toBytes, List.length_append, h.head, h.root, size,
    length_encodeMarker h.headerVerifiedUpTo, length_encodeMarker h.transactionsVerifiedUpTo,
    length_encodeMarker h.maliciousBlockHash]

/-- Everything of a fork but its peers comes back from its bytes. -/
theorem Fork.fromBytes_toBytes {fork : Fork} (h : fork.Sized) :
    fromBytes fork.toBytes = .ok { fork with peers := ∅ } := by
  have hheader := length_encodeMarker h.headerVerifiedUpTo
  have htransactions := length_encodeMarker h.transactionsVerifiedUpTo
  have hmalicious := length_encodeMarker h.maliciousBlockHash
  have hhead : fork.toBytes.take 32 = fork.head := by
    rw [toBytes]
    simp only [List.append_assoc]
    exact List.take_left' h.head
  have hroot : (fork.toBytes.drop 32).take 32 = fork.root := by
    rw [toBytes]
    simp only [List.append_assoc]
    rw [List.drop_left' h.head, List.take_left' h.root]
  have hmarkers : fork.toBytes.drop 64 = encodeMarker fork.headerVerifiedUpTo ++
      (encodeMarker fork.transactionsVerifiedUpTo ++ encodeMarker fork.maliciousBlockHash) := by
    rw [toBytes]
    simp only [List.append_assoc]
    rw [← List.append_assoc fork.head, List.drop_left' (by simp [h.head, h.root])]
  have hsecond : fork.toBytes.drop 97 =
      encodeMarker fork.transactionsVerifiedUpTo ++ encodeMarker fork.maliciousBlockHash := by
    rw [show 97 = 64 + 33 from rfl, ← List.drop_drop, hmarkers, List.drop_left' hheader]
  have hthird : fork.toBytes.drop 130 = encodeMarker fork.maliciousBlockHash := by
    rw [show 130 = 97 + 33 from rfl, ← List.drop_drop, hsecond, List.drop_left' htransactions]
  rw [fromBytes, if_pos (length_toBytes h), hhead, hroot, hmarkers, List.take_left' hheader,
    hsecond, List.take_left' htransactions, hthird, List.take_of_length_le hmalicious.le]
  simp only [decodeMarker_encodeMarker]

/-- The loop of `import_forks` over the remaining payload. -/
def importEach : Nat → Bytes → Stateful Forks Unit
  | 0, _ => return ()
  | count + 1, payload => do
    let fork ← Eff.ofExcept (Fork.fromBytes (payload.take Fork.size))
    .update fun forks => forks.insert fork.head fork
    importEach count (payload.drop Fork.size)

def importForks (payload : Bytes) : Stateful Forks Unit :=
  if payload.length % Fork.size = 0 then importEach (payload.length / Fork.size) payload
  else .raise .valueError

def exportForks (forks : Forks) : Bytes := forks.pairs.flatMap fun p => p.2.toBytes

theorem length_flatMap_toBytes {pairs : List (Bytes × Fork)} (h : ∀ p ∈ pairs, p.2.Sized) :
    (pairs.flatMap fun p => p.2.toBytes).length = pairs.length * Fork.size := by
  induction pairs with
  | nil => simp
  | cons p ps ih =>
    obtain ⟨hp, hps⟩ := List.forall_mem_cons.mp h
    rw [List.flatMap_cons, List.length_append, Fork.length_toBytes hp, ih hps, List.length_cons]
    ring

theorem importEach_toBytes {pairs : List (Bytes × Fork)} (h : ∀ p ∈ pairs, p.2.Sized)
    (into : Forks) :
    importEach pairs.length (pairs.flatMap fun p => p.2.toBytes) into =
      (.ok (), pairs.foldl (fun table p => table.insert p.2.head { p.2 with peers := ∅ }) into) := by
  induction pairs generalizing into with
  | nil => rfl
  | cons p ps ih =>
    obtain ⟨hp, hps⟩ := List.forall_mem_cons.mp h
    have hlength := Fork.length_toBytes hp
    rw [List.length_cons, importEach, List.flatMap_cons, List.take_left' hlength,
      Fork.fromBytes_toBytes hp, Eff.ofExcept_ok_bind, Eff.update_bind, List.drop_left' hlength,
      ih hps, List.foldl_cons]

/-- Exported forks are imported again into the table, in their order and without peers. -/
theorem importForks_exportForks {forks : Forks} (hsized : ∀ p ∈ forks.pairs, p.2.Sized)
    (into : Forks) :
    importForks (exportForks forks) into =
      (.ok (), forks.pairs.foldl
        (fun table p => table.insert p.2.head { p.2 with peers := ∅ }) into) := by
  have hsize : 0 < Fork.size := by decide
  rw [importForks, exportForks, length_flatMap_toBytes hsized, Nat.mul_mod_left, if_pos rfl,
    Nat.mul_div_cancel _ hsize]
  exact importEach_toBytes hsized into

/-- What `verify_fork` uses of the node and of a block: the fetch by hash and the two checks, each
of a block with the block before it attached. -/
structure Verifier (β : Type) where
  getBlockFromStorage : Bytes → Py β
  previousBlockHash : β → Bytes
  validatorPublicKeyBytes : β → Bytes
  verifyBlockHead : β → Option β → Py Bool
  verifyBlockTransactions : β → Option β → Py Bool
  validationPublicKeyBytes : Option Bytes

namespace Verifier

variable {β : Type} (v : Verifier β)

/-- The block of a hash and the block before it, none for a genesis. -/
def loadBlock (currentHash : Bytes) : Py (β × Option β) := do
  let block ← v.getBlockFromStorage currentHash
  if v.previousBlockHash block = zero32 then
    return (block, none)
  else
    let previousBlock ← v.getBlockFromStorage (v.previousBlockHash block)
    return (block, some previousBlock)

/-- A block of this node's own validation key is taken without its transactions being run. -/
def isOwn (block : β) : Bool :=
  match v.validationPublicKeyBytes with
  | none => false
  | some validatorBytes =>
    validatorBytes != [] && v.validatorPublicKeyBytes block == validatorBytes

def passesTransactions (block : β) (previousBlock : Option β) : Py Bool :=
  if v.isOwn block then .ok true else v.verifyBlockTransactions block previousBlock

/-- The first loop of `verify_fork`: the root the headers are verified down to, none when one of
them failed. -/
def verifyHeaders (headId root : Bytes) : Nat → Bytes → Stateful Forks (Option Bytes)
  | 0, _ => .raise .outOfFuel
  | fuel + 1, currentHash => do
    let loaded ← Eff.ofExcept (v.loadBlock currentHash)
    let verified ← Eff.ofExcept (v.verifyBlockHead loaded.1 loaded.2)
    let forks ← Eff.read
    if verified = false then do
      updateFork headId fun fork => { fork with maliciousBlockHash := some currentHash }
      return none
    else if currentHash ∈ forks.keys ∧ currentHash ≠ headId then do
      updateFork headId fun fork =>
        { fork with headerVerifiedUpTo := some currentHash, root := currentHash }
      return some currentHash
    else if currentHash = root then do
      updateFork headId fun fork => { fork with headerVerifiedUpTo := some root }
      return some root
    else if v.previousBlockHash loaded.1 = zero32 then do
      updateFork headId fun fork =>
        { fork with headerVerifiedUpTo := some zero32, root := zero32 }
      return some zero32
    else
      verifyHeaders headId root fuel (v.previousBlockHash loaded.1)

/-- The second loop of `verify_fork`. -/
def verifyTransactions (headId root : Bytes) : Nat → Bytes → Stateful Forks Bool
  | 0, _ => .raise .outOfFuel
  | fuel + 1, currentHash => do
    let loaded ← Eff.ofExcept (v.loadBlock currentHash)
    let verified ← Eff.ofExcept (v.passesTransactions loaded.1 loaded.2)
    if verified = false then do
      updateFork headId fun fork => { fork with maliciousBlockHash := some currentHash }
      return false
    else do
      updateFork headId fun fork => { fork with transactionsVerifiedUpTo := some currentHash }
      if currentHash = root ∨ v.previousBlockHash loaded.1 = zero32 then
        return true
      else
        verifyTransactions headId root fuel (v.previousBlockHash loaded.1)

def verifyFork (fuel : Nat) (headId : Bytes) : Stateful Forks Bool := do
  let forks ← Eff.read
  match forks.get? headId with
  | none => .raise .keyError
  | some fork => do
    match ← v.verifyHeaders headId fork.root fuel headId with
    | none => return false
    | some root => v.verifyTransactions headId root fuel headId

/-- `p` stands in the block of `h` as the hash of the block before it. -/
def Parent (h p : Bytes) : Prop :=
  ∃ loaded, v.loadBlock h = .ok loaded ∧ v.previousBlockHash loaded.1 = p

/-- The way down from a block, parent by parent, to the first block that `stops` or else to a
genesis block, with the blocks on it and the last of them. -/
inductive Walk (stops : Bytes → Prop) : Bytes → List Bytes → Bytes → Prop
  | met {h : Bytes} (hstop : stops h) : Walk stops h [h] h
  | genesis {h : Bytes} (hgo : ¬stops h) (hparent : v.Parent h zero32) : Walk stops h [h] h
  | step {h p last : Bytes} {visited : List Bytes} (hgo : ¬stops h) (hparent : v.Parent h p)
      (hp : p ≠ zero32) (rest : Walk stops p visited last) : Walk stops h (h :: visited) last

def HeadPasses (h : Bytes) : Prop :=
  ∃ loaded, v.loadBlock h = .ok loaded ∧ v.verifyBlockHead loaded.1 loaded.2 = .ok true

def TransactionsPass (h : Bytes) : Prop :=
  ∃ loaded, v.loadBlock h = .ok loaded ∧
    (v.isOwn loaded.1 = true ∨ v.verifyBlockTransactions loaded.1 loaded.2 = .ok true)

/-- One of the two checks of the block said no. -/
def Fails (h : Bytes) : Prop :=
  ∃ loaded, v.loadBlock h = .ok loaded ∧
    (v.verifyBlockHead loaded.1 loaded.2 = .ok false ∨
      v.verifyBlockTransactions loaded.1 loaded.2 = .ok false)

/-- Where the header loop ends: at the fork's root or at the head of another fork. -/
def StopsAt (forks : Forks) (headId root h : Bytes) : Prop :=
  h = root ∨ (h ∈ forks.keys ∧ h ≠ headId)

instance (forks : Forks) (headId root h : Bytes) : Decidable (StopsAt forks headId root h) :=
  inferInstanceAs (Decidable (h = root ∨ (h ∈ forks.keys ∧ h ≠ headId)))

variable {v}

theorem Parent.unique {h p p' : Bytes} (hp : v.Parent h p) (hp' : v.Parent h p') : p = p' := by
  obtain ⟨loaded, hload, rfl⟩ := hp
  obtain ⟨loaded', hload', rfl⟩ := hp'
  rw [hload] at hload'
  cases hload'
  rfl

namespace Walk

variable {stops : Bytes → Prop} {h last last' : Bytes} {visited visited' : List Bytes}

theorem unique (hw : v.Walk stops h visited last) (hw' : v.Walk stops h visited' last') :
    visited = visited' ∧ last = last' := by
  induction hw generalizing visited' last' with
  | met hstop =>
    cases hw' with
    | met => exact ⟨rfl, rfl⟩
    | genesis hgo => exact absurd hstop hgo
    | step hgo => exact absurd hstop hgo
  | genesis hgo hparent =>
    cases hw' with
    | met hstop => exact absurd hstop hgo
    | genesis => exact ⟨rfl, rfl⟩
    | step _ hparent' hp => exact absurd (hparent'.unique hparent) hp
  | step hgo hparent hp _ ih =>
    cases hw' with
    | met hstop => exact absurd hstop hgo
    | genesis _ hparent' => exact absurd (hparent.unique hparent') hp
    | step _ hparent' _ rest =>
      obtain rfl := hparent.unique hparent'
      obtain ⟨rfl, rfl⟩ := ih rest
      exact ⟨rfl, rfl⟩

/-- A walk that was stopped is the walk to the block that stopped it. -/
theorem to_last (hw : v.Walk stops h visited last) (hlast : stops last) :
    v.Walk (fun a => a = last) h visited last := by
  induction hw with
  | met => exact .met rfl
  | genesis hgo => exact absurd hlast hgo
  | step hgo hparent hp _ ih =>
    refine .step ?_ hparent hp (ih hlast)
    rintro rfl
    exact hgo hlast

/-- A walk that was not stopped went on to a genesis block, past no block of the zero hash. -/
theorem to_genesis (hw : v.Walk stops h visited last) (hlast : ¬stops last) (hh : h ≠ zero32) :
    v.Walk (fun a => a = zero32) h visited last ∧ last ≠ zero32 := by
  induction hw with
  | met hstop => exact absurd hstop hlast
  | genesis _ hparent => exact ⟨.genesis hh hparent, hh⟩
  | step _ hparent hp _ ih =>
    obtain ⟨hwalk, hne⟩ := ih hlast hp
    exact ⟨.step hh hparent hp hwalk, hne⟩

theorem head_mem (hw : v.Walk stops h visited last) : h ∈ visited := by
  cases hw with
  | met => exact List.mem_singleton_self h
  | genesis => exact List.mem_singleton_self h
  | step => exact List.mem_cons_self

end Walk

theorem passesTransactions_eq_true {block : β} {previousBlock : Option β} :
    v.passesTransactions block previousBlock = .ok true ↔
      v.isOwn block = true ∨ v.verifyBlockTransactions block previousBlock = .ok true := by
  rw [passesTransactions]
  by_cases h : v.isOwn block = true
  · simp [h]
  · simp [h]

theorem passesTransactions_eq_false {block : β} {previousBlock : Option β}
    (h : v.passesTransactions block previousBlock = .ok false) :
    v.verifyBlockTransactions block previousBlock = .ok false := by
  rw [passesTransactions] at h
  split at h
  · cases h
  · exact h

end Verifier

theorem updateFork_of_get? {forks : Forks} {headId : Bytes} {fork : Fork}
    (hfork : forks.get? headId = some fork) (updates : Fork → Fork) :
    updateFork headId updates forks = (.ok (), forks.insert headId (updates fork)) := by
  rw [updateFork, Eff.read_bind]
  simp only [hfork, Eff.write_apply]

namespace Verifier

variable {β : Type} {v : Verifier β} {headId root h : Bytes} {fuel : Nat} {forks forks' : Forks}
  {fork : Fork}

/-- What the header loop leaves behind: a block marked malicious, or headers verified down to the
block that stopped the walk, to the zero hash when none did. -/
theorem verifyHeaders_ok {r : Option Bytes} (hfork : forks.get? headId = some fork)
    (hroot : fork.root = root)
    (hrun : v.verifyHeaders headId root fuel h forks = (.ok r, forks')) :
    (r = none ∧ ∃ bad, v.Fails bad ∧
      forks'.get? headId = some { fork with maliciousBlockHash := some bad }) ∨
    ∃ visited last root', r = some root' ∧
      v.Walk (StopsAt forks headId root) h visited last ∧ (∀ a ∈ visited, v.HeadPasses a) ∧
      (StopsAt forks headId root last ∧ root' = last ∨
        ¬StopsAt forks headId root last ∧ root' = zero32) ∧
      forks'.get? headId = some { fork with headerVerifiedUpTo := some root', root := root' } := by
  induction fuel generalizing h with
  | zero => cases hrun
  | succ fuel ih =>
    obtain ⟨loaded, hload, hrun⟩ := Eff.ofExcept_bind_eq_ok.mp hrun
    obtain ⟨verified, hverify, hrun⟩ := Eff.ofExcept_bind_eq_ok.mp hrun
    rw [Eff.read_bind] at hrun
    cases verified with
    | false =>
      rw [if_pos rfl, Eff.bind_of_ok (updateFork_of_get? hfork _)] at hrun
      obtain ⟨hr, rfl⟩ := Prod.mk.inj hrun
      cases hr
      refine .inl ⟨rfl, h, ⟨loaded, hload, .inl hverify⟩, ?_⟩
      exact Dict.get?_insert_self ..
    | true =>
      have hpass : v.HeadPasses h := ⟨loaded, hload, hverify⟩
      have hone : ∀ a ∈ [h], v.HeadPasses a := by simpa using hpass
      rw [if_neg (by simp)] at hrun
      by_cases hother : h ∈ forks.keys ∧ h ≠ headId
      · rw [if_pos hother, Eff.bind_of_ok (updateFork_of_get? hfork _)] at hrun
        obtain ⟨hr, rfl⟩ := Prod.mk.inj hrun
        cases hr
        have hstop : StopsAt forks headId root h := .inr hother
        exact .inr ⟨[h], h, h, rfl, .met hstop, hone, .inl ⟨hstop, rfl⟩,
          Dict.get?_insert_self ..⟩
      rw [if_neg hother] at hrun
      by_cases heq : h = root
      · rw [if_pos heq, Eff.bind_of_ok (updateFork_of_get? hfork _)] at hrun
        obtain ⟨hr, rfl⟩ := Prod.mk.inj hrun
        cases hr
        subst heq
        have hstop : StopsAt forks headId h h := .inl rfl
        refine .inr ⟨[h], h, h, rfl, .met hstop, hone, .inl ⟨hstop, rfl⟩, ?_⟩
        rw [Dict.get?_insert_self, ← hroot]
      rw [if_neg heq] at hrun
      have hgo : ¬StopsAt forks headId root h := fun hstop => hstop.elim heq hother
      by_cases hprev : v.previousBlockHash loaded.1 = zero32
      · rw [if_pos hprev, Eff.bind_of_ok (updateFork_of_get? hfork _)] at hrun
        obtain ⟨hr, rfl⟩ := Prod.mk.inj hrun
        cases hr
        exact .inr ⟨[h], h, zero32, rfl, .genesis hgo ⟨loaded, hload, hprev⟩, hone,
          .inr ⟨hgo, rfl⟩, Dict.get?_insert_self ..⟩
      rw [if_neg hprev] at hrun
      rcases ih hrun with hbad | ⟨visited, last, root', hr, hwalk, hall, hend, ht⟩
      · exact .inl hbad
      · refine .inr ⟨h :: visited, last, root', hr, .step hgo ⟨loaded, hload, rfl⟩ hprev hwalk,
          ?_, hend, ht⟩
        exact List.forall_mem_cons.mpr ⟨hpass, hall⟩

/-- What the transaction loop leaves behind: a block marked malicious, or the last block of the
walk to the root as the marker. -/
theorem verifyTransactions_ok {verified : Bool} (hfork : forks.get? headId = some fork)
    (hrun : v.verifyTransactions headId root fuel h forks = (.ok verified, forks')) :
    (verified = false ∧ ∃ bad marker, v.Fails bad ∧ forks'.get? headId =
      some { fork with transactionsVerifiedUpTo := marker, maliciousBlockHash := some bad }) ∨
    (verified = true ∧ ∃ visited last, v.Walk (fun a => a = root) h visited last ∧
      (∀ a ∈ visited, v.TransactionsPass a) ∧
      forks'.get? headId = some { fork with transactionsVerifiedUpTo := some last }) := by
  induction fuel generalizing h forks fork with
  | zero => cases hrun
  | succ fuel ih =>
    obtain ⟨loaded, hload, hrun⟩ := Eff.ofExcept_bind_eq_ok.mp hrun
    obtain ⟨passed, hpasses, hrun⟩ := Eff.ofExcept_bind_eq_ok.mp hrun
    cases passed with
    | false =>
      rw [if_pos rfl, Eff.bind_of_ok (updateFork_of_get? hfork _)] at hrun
      obtain ⟨hr, rfl⟩ := Prod.mk.inj hrun
      cases hr
      have hfails := passesTransactions_eq_false hpasses
      exact .inl ⟨rfl, h, _, ⟨loaded, hload, .inr hfails⟩, Dict.get?_insert_self ..⟩
    | true =>
      have hpass : v.TransactionsPass h := ⟨loaded, hload, passesTransactions_eq_true.mp hpasses⟩
      have hone : ∀ a ∈ [h], v.TransactionsPass a := by simpa using hpass
      rw [if_neg (by simp), Eff.bind_of_ok (updateFork_of_get? hfork _)] at hrun
      have hfork₁ := Dict.get?_insert_self forks headId
        { fork with transactionsVerifiedUpTo := some h }
      by_cases hend : h = root ∨ v.previousBlockHash loaded.1 = zero32
      · rw [if_pos hend] at hrun
        obtain ⟨hr, rfl⟩ := Prod.mk.inj hrun
        cases hr
        refine .inr ⟨rfl, [h], h, ?_, hone, hfork₁⟩
        by_cases heq : h = root
        · exact .met heq
        · exact .genesis heq ⟨loaded, hload, hend.resolve_left heq⟩
      · rw [if_neg hend] at hrun
        obtain ⟨heq, hprev⟩ := not_or.mp hend
        rcases ih hfork₁ hrun with ⟨hv, bad, marker, hbad, ht⟩ | ⟨hv, visited, last, hwalk, hall, ht⟩
        · exact .inl ⟨hv, bad, marker, hbad, ht⟩
        · refine .inr ⟨hv, h :: visited, last, .step heq ⟨loaded, hload, rfl⟩ hprev hwalk, ?_, ht⟩
          exact List.forall_mem_cons.mpr ⟨hpass, hall⟩

/-- A walk of passing headers is verified to its end, given fuel for its blocks. -/
theorem verifyHeaders_returns {visited : List Bytes} {last : Bytes}
    (hfork : forks.get? headId = some fork)
    (hwalk : v.Walk (StopsAt forks headId root) h visited last)
    (hall : ∀ a ∈ visited, v.HeadPasses a) (hfuel : visited.length ≤ fuel) :
    ∃ root' t, v.verifyHeaders headId root fuel h forks = (.ok (some root'), t) := by
  induction hwalk generalizing fuel with
  | @met h hstop =>
    obtain ⟨fuel, rfl⟩ := Nat.exists_eq_succ_of_ne_zero (Nat.ne_of_gt hfuel)
    obtain ⟨loaded, hload, hverify⟩ := hall h (List.mem_singleton_self h)
    rw [verifyHeaders, hload, Eff.ofExcept_ok_bind, hverify, Eff.ofExcept_ok_bind, Eff.read_bind,
      if_neg (by simp)]
    by_cases hother : h ∈ forks.keys ∧ h ≠ headId
    · rw [if_pos hother, Eff.bind_of_ok (updateFork_of_get? hfork _)]
      exact ⟨_, _, rfl⟩
    · have heq : h = root := hstop.resolve_right hother
      rw [if_neg hother, if_pos heq, Eff.bind_of_ok (updateFork_of_get? hfork _)]
      exact ⟨_, _, rfl⟩
  | @genesis h hgo hparent =>
    obtain ⟨fuel, rfl⟩ := Nat.exists_eq_succ_of_ne_zero (Nat.ne_of_gt hfuel)
    obtain ⟨loaded, hload, hverify⟩ := hall h (List.mem_singleton_self h)
    obtain ⟨heq, hother⟩ := not_or.mp hgo
    have hprev : v.previousBlockHash loaded.1 = zero32 :=
      Parent.unique ⟨loaded, hload, rfl⟩ hparent
    rw [verifyHeaders, hload, Eff.ofExcept_ok_bind, hverify, Eff.ofExcept_ok_bind, Eff.read_bind,
      if_neg (by simp), if_neg hother, if_neg heq, if_pos hprev,
      Eff.bind_of_ok (updateFork_of_get? hfork _)]
    exact ⟨_, _, rfl⟩
  | @step h p last visited hgo hparent hp _ ih =>
    obtain ⟨fuel, rfl⟩ := Nat.exists_eq_succ_of_ne_zero (Nat.ne_of_gt (Nat.zero_lt_of_lt hfuel))
    obtain ⟨⟨loaded, hload, hverify⟩, hall⟩ := List.forall_mem_cons.mp hall
    obtain ⟨heq, hother⟩ := not_or.mp hgo
    have hprev : v.previousBlockHash loaded.1 = p := Parent.unique ⟨loaded, hload, rfl⟩ hparent
    rw [verifyHeaders, hload, Eff.ofExcept_ok_bind, hverify, Eff.ofExcept_ok_bind, Eff.read_bind,
      if_neg (by simp), if_neg hother, if_neg heq, hprev, if_neg hp]
    exact ih hall (Nat.le_of_succ_le_succ hfuel)

theorem verifyTransactions_returns {visited : List Bytes} {last : Bytes}
    (hfork : forks.get? headId = some fork) (hwalk : v.Walk (fun a => a = root) h visited last)
    (hall : ∀ a ∈ visited, v.TransactionsPass a) (hfuel : visited.length ≤ fuel) :
    ∃ t, v.verifyTransactions headId root fuel h forks = (.ok true, t) := by
  induction hwalk generalizing fuel forks fork with
  | @met h hstop =>
    obtain ⟨fuel, rfl⟩ := Nat.exists_eq_succ_of_ne_zero (Nat.ne_of_gt hfuel)
    obtain ⟨loaded, hload, hpass⟩ := hall h (List.mem_singleton_self h)
    rw [verifyTransactions, hload, Eff.ofExcept_ok_bind, passesTransactions_eq_true.mpr hpass,
      Eff.ofExcept_ok_bind, if_neg (by simp), Eff.bind_of_ok (updateFork_of_get? hfork _),
      if_pos (.inl hstop)]
    exact ⟨_, rfl⟩
  | @genesis h hgo hparent =>
    obtain ⟨fuel, rfl⟩ := Nat.exists_eq_succ_of_ne_zero (Nat.ne_of_gt hfuel)
    obtain ⟨loaded, hload, hpass⟩ := hall h (List.mem_singleton_self h)
    have hprev : v.previousBlockHash loaded.1 = zero32 :=
      Parent.unique ⟨loaded, hload, rfl⟩ hparent
    rw [verifyTransactions, hload, Eff.ofExcept_ok_bind, passesTransactions_eq_true.mpr hpass,
      Eff.ofExcept_ok_bind, if_neg (by simp), Eff.bind_of_ok (updateFork_of_get? hfork _),
      if_pos (.inr hprev)]
    exact ⟨_, rfl⟩
  | @step h p last visited hgo hparent hp _ ih =>
    obtain ⟨fuel, rfl⟩ := Nat.exists_eq_succ_of_ne_zero (Nat.ne_of_gt (Nat.zero_lt_of_lt hfuel))
    obtain ⟨⟨loaded, hload, hpass⟩, hall⟩ := List.forall_mem_cons.mp hall
    have hprev : v.previousBlockHash loaded.1 = p := Parent.unique ⟨loaded, hload, rfl⟩ hparent
    have hend : ¬(h = root ∨ v.previousBlockHash loaded.1 = zero32) :=
      not_or.mpr ⟨hgo, hprev ▸ hp⟩
    rw [verifyTransactions, hload, Eff.ofExcept_ok_bind, passesTransactions_eq_true.mpr hpass,
      Eff.ofExcept_ok_bind, if_neg (by simp), Eff.bind_of_ok (updateFork_of_get? hfork _),
      if_neg hend, hprev]
    exact ih (Dict.get?_insert_self ..) hall (Nat.le_of_succ_le_succ hfuel)

theorem verifyFork_of_get? (hfork : forks.get? headId = some fork) :
    v.verifyFork fuel headId forks =
      (v.verifyHeaders headId fork.root fuel headId >>= fun root? =>
        match root? with
        | none => return false
        | some root => v.verifyTransactions headId root fuel headId) forks := by
  rw [verifyFork, Eff.read_bind]
  simp only [hfork]

variable (v) in
/-- What the returned flag says of the fork: its blocks down to its root passed both checks and it
is fully verified, or its malicious mark names a block that failed one. -/
def VerdictHolds (headId : Bytes) (verified : Bool) (forks : Forks) : Prop :=
  ∃ fork, forks.get? headId = some fork ∧
    (verified = true → isFullyVerified fork = true ∧
      ∃ visited last, v.Walk (fun a => a = fork.root) headId visited last ∧
        ∀ a ∈ visited, v.HeadPasses a ∧ v.TransactionsPass a) ∧
    (verified = false → ∃ bad, fork.maliciousBlockHash = some bad ∧ v.Fails bad)

/-- A returning run has its verdict, but for a walk that nothing stopped before genesis. -/
theorem verifyFork_ok {verified : Bool} (hfork : forks.get? headId = some fork)
    (hrun : v.verifyFork fuel headId forks = (.ok verified, forks')) :
    v.VerdictHolds headId verified forks' ∨
    (headId ≠ zero32 ∧ ∃ visited last, v.Walk (StopsAt forks headId fork.root) headId visited last ∧
      ¬StopsAt forks headId fork.root last ∧
      ∀ a ∈ visited, v.HeadPasses a ∧ v.TransactionsPass a) := by
  rw [verifyFork_of_get? hfork] at hrun
  obtain ⟨root?, t, hheaders, hrun⟩ := Eff.bind_eq_ok.mp hrun
  rcases verifyHeaders_ok hfork rfl hheaders with
    ⟨rfl, bad, hbad, ht⟩ | ⟨visited, last, root, rfl, hwalk, hheads, hend, ht⟩
  · obtain ⟨hv, rfl⟩ := Prod.mk.inj hrun
    cases hv
    exact .inl ⟨_, ht, nofun, fun _ => ⟨bad, rfl, hbad⟩⟩
  rcases verifyTransactions_ok ht hrun with
    ⟨rfl, bad, marker, hbad, ht'⟩ | ⟨rfl, visited', last', hwalk', htxs, ht'⟩
  · exact .inl ⟨_, ht', nofun, fun _ => ⟨bad, rfl, hbad⟩⟩
  rcases hend with ⟨hstop, rfl⟩ | ⟨hgo, rfl⟩
  · obtain ⟨rfl, rfl⟩ := (hwalk.to_last hstop).unique hwalk'
    have hboth : ∀ a ∈ visited, v.HeadPasses a ∧ v.TransactionsPass a :=
      fun a ha => ⟨hheads a ha, htxs a ha⟩
    refine .inl ⟨_, ht', fun _ => ⟨?_, visited, root, hwalk', hboth⟩, nofun⟩
    simp [isFullyVerified]
  by_cases hzero : headId = zero32
  · subst hzero
    obtain ⟨rfl, rfl⟩ := hwalk'.unique (.met rfl)
    have hhead : v.HeadPasses zero32 := hheads _ hwalk.head_mem
    refine .inl ⟨_, ht', fun _ => ⟨by simp [isFullyVerified], _, _, hwalk', ?_⟩, nofun⟩
    intro a ha
    obtain rfl := List.mem_singleton.mp ha
    exact ⟨hhead, htxs _ ha⟩
  · obtain ⟨hgenesis, -⟩ := hwalk.to_genesis hgo hzero
    obtain ⟨rfl, rfl⟩ := hgenesis.unique hwalk'
    exact .inr ⟨hzero, visited, last, hwalk, hgo, fun a ha => ⟨hheads a ha, htxs a ha⟩⟩

/-- Verification means what it says exactly when the way down from the head meets the fork's root
or another fork's head before it ends at a genesis block, or one of its blocks does not pass. -/
theorem verify_fork_verdict_iff (hfork : forks.get? headId = some fork) :
    (∀ fuel verified forks', v.verifyFork fuel headId forks = (.ok verified, forks') →
      v.VerdictHolds headId verified forks') ↔
    (headId = zero32 ∨ ∀ visited last,
      v.Walk (StopsAt forks headId fork.root) headId visited last →
      StopsAt forks headId fork.root last ∨
        ∃ a ∈ visited, ¬(v.HeadPasses a ∧ v.TransactionsPass a)) := by
  constructor
  · intro hverdict
    by_contra hcon
    push Not at hcon
    obtain ⟨hzero, visited, last, hwalk, hgo, hall⟩ := hcon
    obtain ⟨root, t, hheaders⟩ := verifyHeaders_returns hfork hwalk (fun a ha => (hall a ha).1) le_rfl
    rcases verifyHeaders_ok hfork rfl hheaders with
      ⟨hnone, -⟩ | ⟨visited', last', root', hroot, hwalk', -, hend, ht⟩
    · cases hnone
    obtain ⟨rfl, rfl⟩ := hwalk.unique hwalk'
    cases hroot
    obtain ⟨-, rfl⟩ := hend.resolve_left fun h => hgo h.1
    obtain ⟨hgenesis, hlast⟩ := hwalk.to_genesis hgo hzero
    obtain ⟨t', htransactions⟩ :=
      verifyTransactions_returns ht hgenesis (fun a ha => (hall a ha).2) le_rfl
    have hrun : v.verifyFork visited.length headId forks = (.ok true, t') := by
      rw [verifyFork_of_get? hfork, Eff.bind_of_ok hheaders]
      exact htransactions
    obtain ⟨fork', hfork', hfull, -⟩ := hverdict _ _ _ hrun
    rcases verifyTransactions_ok ht htransactions with ⟨hfalse, -⟩ | ⟨-, visited', last', hw, -, ht'⟩
    · cases hfalse
    obtain ⟨-, rfl⟩ := hgenesis.unique hw
    rw [ht'] at hfork'
    cases hfork'
    have := (hfull rfl).1
    simp [isFullyVerified] at this
    exact hlast this
  · intro hcond fuel verified forks' hrun
    rcases verifyFork_ok hfork hrun with hverdict | ⟨hzero, visited, last, hwalk, hgo, hall⟩
    · exact hverdict
    · rcases hcond.resolve_left hzero visited last hwalk with hstop | ⟨a, ha, hfail⟩
      · exact absurd hstop hgo
      · exact absurd (hall a ha) hfail

section Genesis

/-- Two blocks that pass every check: the genesis block at `[1]` and its child at `[2]`. -/
def twoBlocks : Verifier Bytes where
  getBlockFromStorage h :=
    if h = [1] then .ok zero32 else if h = [2] then .ok [1] else .error .valueError
  previousBlockHash block := block
  validatorPublicKeyBytes _ := []
  verifyBlockHead _ _ := .ok true
  verifyBlockTransactions _ _ := .ok true
  validationPublicKeyBytes := none

/-- A table with the head `[2]` alone, whose fork has the given root. -/
def oneFork (root : Bytes) : Forks := Dict.empty.insert [2] { head := [2], root := root }

/-- The first fork of a node, verified down to genesis, is not fully verified. -/
theorem genesis_walk_is_not_fully_verified :
    (twoBlocks.verifyFork 2 [2] (oneFork zero32)).1 = .ok true ∧
    ¬twoBlocks.VerdictHolds [2] true (twoBlocks.verifyFork 2 [2] (oneFork zero32)).2 := by
  refine ⟨by decide, ?_⟩
  rintro ⟨fork, hfork, hfull, -⟩
  have hmarkers : ((twoBlocks.verifyFork 2 [2] (oneFork zero32)).2.get? [2]).map isFullyVerified =
      some false := by decide
  rw [hfork, Option.map_some, (hfull rfl).1] at hmarkers
  cases hmarkers

/-- With the genesis block as its root the same fork is verified as its flag says. -/
theorem rooted_fork_verdict :
    (twoBlocks.verifyFork 2 [2] (oneFork [1])).1 = .ok true ∧
    twoBlocks.VerdictHolds [2] true (twoBlocks.verifyFork 2 [2] (oneFork [1])).2 := by
  have hfork : (oneFork [1]).get? [2] = some { head := [2], root := [1] } := rfl
  have hrun : (twoBlocks.verifyFork 2 [2] (oneFork [1])).1 = .ok true := by decide
  refine ⟨hrun, (verify_fork_verdict_iff hfork).mpr (.inr ?_) 2 true _ (Eff.eq_of_fst hrun)⟩
  intro visited last hwalk
  have hgo : ¬StopsAt (oneFork [1]) [2] [1] [2] := by decide
  have hparent : twoBlocks.Parent [2] [1] := ⟨([1], some zero32), rfl, rfl⟩
  have hdown : twoBlocks.Walk (StopsAt (oneFork [1]) [2] [1]) [2] [[2], [1]] [1] :=
    .step hgo hparent (by decide) (.met (.inl rfl))
  exact .inl (.inl (hwalk.unique hdown).2)

end Genesis

end Verifier

end Astreum
