import Astreum.Apply
import Astreum.BlockSearch

namespace Astreum

/-- The filters of `bloom_search_tx`. -/
structure Query where
  txHash : Bytes := zero32
  sender : Bytes := zero32
  receiver : Bytes := zero32
  key : Bytes := zero32
  involved : Bytes := zero32

/-- A transaction that was found, with the hash of its block. -/
structure Found where
  blockHash : Bytes
  tx : Transaction
  deriving DecidableEq

section Searching

variable (node : Node) (digest : Bytes → Bytes)

/-- `(value or ZERO32).ljust(32, b"\x00")[:32]`. -/
def column (value : Bytes) : Bytes :=
  let value := orZero32 value
  (value ++ List.replicate (32 - value.length) 0).take 32

/-- `_build_element`. -/
def buildElement (q : Query) : Bytes :=
  column q.txHash ++ column q.sender ++ column q.receiver ++ column q.key ++ column q.involved

/-- `tx_data_bytes` of `_tx_matches`. -/
def dataBytes (tx : Transaction) : Option Bytes :=
  if node.tag tx.data = "bytes" then
    match tx.data with
    | .bytes b => some b
    | _ => none
  else some []

/-- `_tx_matches`. -/
def txMatches (q : Query) (tx : Transaction) : Bool :=
  if q.txHash ≠ zero32 ∧ tx.hash ≠ some q.txHash then false
  else if q.sender ≠ zero32 ∧ tx.sender ≠ q.sender then false
  else if q.receiver ≠ zero32 ∧ tx.recipient ≠ q.receiver then false
  else if q.key ≠ zero32 ∧ dataBytes node tx ≠ some q.key then false
  else true

mutual

/-- The loop of `_load_block_txs` over the list of hashes. -/
def txHashesFrom : Expr → List Bytes
  | .link v (.byHash x) t =>
    if node.tag (.link v (.byHash x) t) = "link" then x :: childTxHashes t else []
  | _ => []

def childTxHashes : Child → List Bytes
  | .loaded e => txHashesFrom e
  | _ => []

end

/-- `_load_block_txs`. -/
def loadBlockTxs (block : DecodedBlock) : Py (List Transaction) :=
  if block.fields.transactionsHash = [] ∨ block.fields.transactionsHash = zero32 then .ok []
  else do
    match ← getExprList node block.fields.transactionsHash with
    | none => return []
    | some hashes =>
      return (txHashesFrom node hashes).filterMap fun txHash =>
        (getTransactionFromStorage node txHash).toOption

/-- Whether a transaction of the block of a leaf is one that is searched. -/
def isHit (q : Query) (leaf : Bloom.NodeRecord) (tx : Transaction) : Py Bool :=
  if q.involved ≠ zero32 then
    Bloom.bloomTest digest leaf.filter
      (buildElement { txHash := tx.hash.getD [], involved := q.involved })
  else .ok (txMatches node q tx)

/-- The transactions of one block, until there are enough: the results and whether there are. -/
def collectTxs (limit : Int) (accepts : Transaction → Py Bool) (blockHash : Bytes) :
    List Transaction → List Found → Py (List Found × Bool)
  | [], results => .ok (results, false)
  | tx :: txs, results => do
    if ← accepts tx then
      let results := results ++ [⟨blockHash, tx⟩]
      if limit ≤ results.length then return (results, true)
      else collectTxs limit accepts blockHash txs results
    else collectTxs limit accepts blockHash txs results

/-- The block of a leaf, which is the one that holds the tree when the leaf has no start hash. -/
def leafBlock (current : DecodedBlock) : Option Bytes → Option DecodedBlock
  | some leafHit => (getBlockFromStorage node leafHit).toOption
  | none => some current

/-- The leaves of one era, until there are enough transactions. -/
def collectLeaves (q : Query) (limit : Int) (current : DecodedBlock) :
    List Bloom.NodeRecord → List Found → Py (List Found × Bool)
  | [], results => .ok (results, false)
  | leaf :: leaves, results =>
    match leafBlock node current leaf.startHash with
    | none => collectLeaves q limit current leaves results
    | some block => do
      let txs ← loadBlockTxs node block
      let (results, enough) ← collectTxs limit (isHit node digest q leaf) block.exprId txs results
      if enough then return (results, true)
      else collectLeaves q limit current leaves results

/-- The era of a block that was not searched yet. -/
def collectEra (q : Query) (limit : Int) (current : DecodedBlock) (results : List Found) :
    Py (List Found × Bool) :=
  if current.fields.bloomHash = [] ∨ current.fields.bloomHash = zero32 then .ok (results, false)
  else do
    let leaves ← Bloom.bloomSearchLeaves digest node current.fields.bloomHash (buildElement q)
      (some current.exprId)
    collectLeaves node digest q limit current leaves results

/-- The loop of `bloom_search_tx`. -/
def searchFrom (q : Query) (endBlockHeight limit : Int) :
    Nat → Option DecodedBlock → List Int → List Found → Py (List Found)
  | _, none, _, results => .ok results
  | 0, some _, _, _ => .error .outOfFuel
  | fuel + 1, some current, searched, results =>
    if current.fields.height < endBlockHeight then .ok results
    else
      let era := current.fields.height / 1024
      if era ∈ searched then
        searchFrom q endBlockHeight limit fuel (getPreviousBlock node current) searched results
      else do
        let (results, enough) ← collectEra node digest q limit current results
        if enough then return results
        else
          searchFrom q endBlockHeight limit fuel (getPreviousBlock node current) (era :: searched)
            results

/-- `bloom_search_tx`. -/
def bloomSearchTx (fuel : Nat) (q : Query) (startingBlock : Option DecodedBlock)
    (endBlockHeight limit : Int) : Py (List Found) :=
  if q.involved ≠ zero32 ∧
      (q.txHash ≠ zero32 ∨ q.sender ≠ zero32 ∨ q.receiver ≠ zero32 ∨ q.key ≠ zero32) then
    .error .valueError
  else searchFrom node digest q endBlockHeight limit fuel startingBlock [] []

end Searching

/-- What the search is for: the matching transactions of a block, by reading them all. -/
def foundIn (node : Node) (q : Query) (block : DecodedBlock) : List Found :=
  (((loadBlockTxs node block).toOption.getD []).filter (txMatches node q)).map
    (Found.mk block.exprId)

/-- The matching transactions of an era up to a height, from the first block of the era on. -/
def scanEra (node : Node) (q : Query) (chain : List DecodedBlock) (last : Nat) : List Found :=
  (List.range (last % 1024 + 1)).flatMap fun k =>
    (chain[last / 1024 * 1024 + k]?.map (foundIn node q)).getD []

section Scans

variable (found : Nat → List Found) (endBlockHeight : Int)

/-- What there is in the eras below one, as long as they reach the end height, if `found` is what
there is in an era up to a height. -/
def scanBelow : Nat → List Found
  | 0 => []
  | era + 1 =>
    if ((era * 1024 + 1023 : Nat) : Int) < endBlockHeight then []
    else found (era * 1024 + 1023) ++ scanBelow era

/-- What a search from a height is for, in its order. -/
def scanFrom (last : Nat) : List Found :=
  if (last : Int) < endBlockHeight then []
  else found last ++ scanBelow found endBlockHeight (last / 1024)

variable {found endBlockHeight}

/-- The eras below one are searched from their last block. -/
theorem scanBelow_succ (era : Nat) :
    scanBelow found endBlockHeight (era + 1) =
      scanFrom found endBlockHeight (era * 1024 + 1023) := by
  rw [scanBelow, scanFrom, show (era * 1024 + 1023) / 1024 = era by omega]

theorem scanBelow_eq_nil {era : Nat} (h : ((era * 1024 : Nat) : Int) ≤ endBlockHeight) :
    scanBelow found endBlockHeight era = [] := by
  cases era with
  | zero => rfl
  | succ era => rw [scanBelow, if_pos (by omega)]

theorem mem_scanBelow {f : Found} {n : Nat} : f ∈ scanBelow found endBlockHeight n ↔
    ∃ era < n, endBlockHeight ≤ ((era * 1024 + 1023 : Nat) : Int) ∧
      f ∈ found (era * 1024 + 1023) := by
  induction n with
  | zero =>
    constructor
    · intro h
      cases h
    · rintro ⟨_, h, -⟩
      cases h
  | succ n ih =>
    rw [scanBelow]
    by_cases hend : ((n * 1024 + 1023 : Nat) : Int) < endBlockHeight
    · rw [if_pos hend]
      constructor
      · intro h
        cases h
      · rintro ⟨era, hera, hreach, -⟩
        omega
    · rw [if_neg hend, List.mem_append, ih]
      constructor
      · rintro (hfound | ⟨era, hera, hreach, hfound⟩)
        · exact ⟨n, Nat.lt_succ_self n, Int.not_lt.mp hend, hfound⟩
        · exact ⟨era, Nat.lt_succ_of_lt hera, hreach, hfound⟩
      · rintro ⟨era, hera, hreach, hfound⟩
        by_cases hsame : era = n
        · rw [hsame] at hfound
          exact .inl hfound
        · exact .inr ⟨era, by omega, hreach, hfound⟩

end Scans

section Limits

variable {limit : Int} {results : List Found} {node : Node} {digest : Bytes → Bytes} {q : Query}

/-- How many results a search stops at: one at least. -/
def enoughFor (limit : Int) : Nat := max 1 limit.toNat

theorem limit_le_iff (limit : Int) {n : Nat} (hn : 0 < n) :
    limit ≤ (n : Int) ↔ enoughFor limit ≤ n := by
  rw [enoughFor]
  omega

theorem collectTxs_eq {accepts : Transaction → Py Bool} {p : Transaction → Bool}
    (haccepts : ∀ tx, accepts tx = .ok (p tx)) (blockHash : Bytes) (txs : List Transaction)
    (hroom : results.length < enoughFor limit) :
    collectTxs limit accepts blockHash txs results =
      .ok ((results ++ (txs.filter p).map (Found.mk blockHash)).take (enoughFor limit),
        decide (enoughFor limit ≤
          (results ++ (txs.filter p).map (Found.mk blockHash)).length)) := by
  induction txs generalizing results with
  | nil =>
    have hmore : ¬ enoughFor limit ≤ results.length := Nat.not_le.mpr hroom
    simp [collectTxs, List.take_of_length_le (Nat.le_of_lt hroom), hmore]
  | cons tx txs ih =>
    rw [collectTxs, haccepts]
    change (if p tx = true then _ else _) = _
    by_cases hp : p tx = true
    · have hlength : (results ++ [Found.mk blockHash tx]).length = results.length + 1 := by simp
      have hfilter : results ++ ((tx :: txs).filter p).map (Found.mk blockHash) =
          results ++ [Found.mk blockHash tx] ++ (txs.filter p).map (Found.mk blockHash) := by
        simp [hp]
      have hiff := limit_le_iff limit (Nat.succ_pos results.length)
      rw [if_pos hp, hfilter]
      change (if limit ≤ ((results ++ [Found.mk blockHash tx]).length : Int) then _ else _) = _
      rw [hlength]
      by_cases henough : limit ≤ ((results.length + 1 : Nat) : Int)
      · have hfull : enoughFor limit = (results ++ [Found.mk blockHash tx]).length := by
          have := hiff.mp henough
          omega
        rw [if_pos henough, hfull, List.take_left]
        simp
        rfl
      · have hnext : (results ++ [Found.mk blockHash tx]).length < enoughFor limit := by
          have := mt hiff.mpr henough
          omega
        rw [if_neg henough]
        exact ih hnext
    · have hfilter : ((tx :: txs).filter p) = txs.filter p := by simp [hp]
      rw [if_neg hp, hfilter]
      exact ih hroom

/-- What a leaf adds to the results. -/
def leafFound (node : Node) (digest : Bytes → Bytes) (q : Query) (current : DecodedBlock)
    (leaf : Bloom.NodeRecord) : List Found :=
  ((leafBlock node current leaf.startHash).map fun block =>
    (((loadBlockTxs node block).toOption.getD []).filter fun tx =>
      (isHit node digest q leaf tx).toOption.getD false).map (Found.mk block.exprId)).getD []

theorem leafFound_eq {current block : DecodedBlock} {leaf : Bloom.NodeRecord}
    {txs : List Transaction} {p : Transaction → Bool}
    (hblock : leafBlock node current leaf.startHash = some block)
    (htxs : loadBlockTxs node block = .ok txs)
    (haccepts : ∀ tx, isHit node digest q leaf tx = .ok (p tx)) :
    leafFound node digest q current leaf = (txs.filter p).map (Found.mk block.exprId) := by
  have hsame : (fun tx => (isHit node digest q leaf tx).toOption.getD false) = p := by
    funext tx
    rw [haccepts]
    rfl
  rw [leafFound, hblock, Option.map_some, Option.getD_some, htxs, hsame]
  rfl

/-- The leaves of an era are read one after another, up to the limit. -/
theorem collectLeaves_eq {current : DecodedBlock} {leaves : List Bloom.NodeRecord}
    (hleaves : ∀ leaf ∈ leaves, (∃ block txs, leafBlock node current leaf.startHash = some block ∧
      loadBlockTxs node block = .ok txs) ∧ ∀ tx, ∃ hit, isHit node digest q leaf tx = .ok hit)
    (hroom : results.length < enoughFor limit) :
    collectLeaves node digest q limit current leaves results =
      .ok ((results ++ leaves.flatMap (leafFound node digest q current)).take (enoughFor limit),
        decide (enoughFor limit ≤
          (results ++ leaves.flatMap (leafFound node digest q current)).length)) := by
  induction leaves generalizing results with
  | nil =>
    have hmore : ¬ enoughFor limit ≤ results.length := Nat.not_le.mpr hroom
    simp [collectLeaves, List.take_of_length_le (Nat.le_of_lt hroom), hmore]
  | cons leaf leaves ih =>
    obtain ⟨⟨block, txs, hblock, htxs⟩, htotal⟩ := hleaves leaf List.mem_cons_self
    choose p haccepts using htotal
    have hhere := @collectTxs_eq limit results _ _ haccepts block.exprId txs hroom
    rw [← leafFound_eq hblock htxs haccepts] at hhere
    rw [List.flatMap_cons, ← List.append_assoc, collectLeaves, hblock]
    change (loadBlockTxs node block >>= _) = _
    rw [htxs]
    change (collectTxs limit (isHit node digest q leaf) block.exprId txs results >>= _) = _
    rw [hhere]
    change (if decide (enoughFor limit ≤ (results ++ leafFound node digest q current leaf).length) =
      true then _ else _) = _
    by_cases henough : enoughFor limit ≤
        (results ++ leafFound node digest q current leaf).length
    · have hall : enoughFor limit ≤ (results ++ leafFound node digest q current leaf ++
          leaves.flatMap (leafFound node digest q current)).length := by
        rw [List.length_append]
        omega
      rw [if_pos (decide_eq_true henough), List.take_append_of_le_length henough,
        decide_eq_true hall]
      rfl
    · have hnext := Nat.not_le.mp henough
      rw [if_neg (by simpa using henough), List.take_of_length_le (Nat.le_of_lt hnext)]
      exact ih (fun leaf hleaf => hleaves leaf (List.mem_cons_of_mem _ hleaf)) hnext

end Limits

/-- The elements by which a transaction is found. -/
def searchVariants (tx : Transaction) : List Bytes :=
  makeSearchVariants tx.hash tx.sender tx.recipient zero32

section Elements

variable {node : Node} {q : Query} {tx : Transaction}

theorem column_of_length {value : Bytes} (h : value.length = 32) : column value = value := by
  have hne : value ≠ [] := by
    rintro rfl
    cases h
  rw [column, orZero32_of_ne hne]
  simp [h]

/-- A query that the elements of a transaction answer: by its hash, its sender or its recipient. -/
structure Query.Plain (q : Query) : Prop where
  txHash : q.txHash.length = 32
  sender : q.sender.length = 32
  receiver : q.receiver.length = 32
  key : q.key = zero32
  involved : q.involved = zero32
  some : q.txHash ≠ zero32 ∨ q.sender ≠ zero32 ∨ q.receiver ≠ zero32

/-- What is asked for is among the elements of every transaction that matches. -/
theorem buildElement_mem (hq : q.Plain) (h : txMatches node q tx = true) :
    buildElement q ∈ searchVariants tx := by
  have hnil : ∀ value : Bytes, value.length = 32 → value ≠ [] := by
    rintro value hvalue rfl
    cases hvalue
  have hzero : column zero32 = zero32 := column_of_length rfl
  have helement : buildElement q = q.txHash ++ q.sender ++ q.receiver ++ zero32 ++ zero32 := by
    rw [buildElement, column_of_length hq.txHash, column_of_length hq.sender,
      column_of_length hq.receiver, hq.key, hq.involved, hzero]
  rw [txMatches] at h
  split at h
  · cases h
  split at h
  · cases h
  split at h
  · cases h
  rename_i hhash hsender hreceiver
  have hhash' : q.txHash ≠ zero32 → tx.hash = .some q.txHash := fun hne => by
    by_contra hno
    exact hhash ⟨hne, hno⟩
  have hsender' : q.sender ≠ zero32 → tx.sender = q.sender := fun hne => by
    by_contra hno
    exact hsender ⟨hne, hno⟩
  have hreceiver' : q.receiver ≠ zero32 → tx.recipient = q.receiver := fun hne => by
    by_contra hno
    exact hreceiver ⟨hne, hno⟩
  rw [helement, searchVariants, makeSearchVariants]
  have htx := hnil _ hq.txHash
  have hs := hnil _ hq.sender
  have hr := hnil _ hq.receiver
  by_cases ha : q.txHash = zero32
  · by_cases hb : q.sender = zero32
    · by_cases hc : q.receiver = zero32
      · exact absurd hq.some (by simp [ha, hb, hc])
      · simp [ha, hb, hreceiver' hc, hr]
    · by_cases hc : q.receiver = zero32
      · simp [ha, hc, hsender' hb, hs]
      · simp [ha, hsender' hb, hreceiver' hc, hs, hr]
  · by_cases hb : q.sender = zero32
    · by_cases hc : q.receiver = zero32
      · simp [hb, hc, hhash' ha, htx]
      · simp [hb, hhash' ha, hreceiver' hc, htx, hr]
    · by_cases hc : q.receiver = zero32
      · simp [hc, hhash' ha, hsender' hb, htx, hs]
      · simp [hhash' ha, hsender' hb, hreceiver' hc, htx, hs, hr]

end Elements

/-- The elements by which a transaction is found from the accounts that it changed. -/
def involvedVariants (accounts : Transaction → List Bytes) (tx : Transaction) : List Bytes :=
  (accounts tx).flatMap (makeInvolvedVariants (tx.hash.getD []))

/-- A chain of which a node also has the transactions, and whose trees have the elements of the
transactions of their blocks. -/
structure SearchableChain (digest : Bytes → Bytes) (node : Node) (chain : List DecodedBlock)
    (elements : Transaction → List Bytes) : Prop extends IndexedChain digest node chain where
  loads : ∀ block ∈ chain, ∃ txs, loadBlockTxs node block = .ok txs
  indexed : ∀ (i : Nat) (block : DecodedBlock), chain[i]? = some block → ∃ era,
    EraOf digest node chain i block.fields.bloomHash era ∧
      ∀ (k : Nat) (entry : Bloom.EraBlock) (other : DecodedBlock) (txs : List Transaction),
        era[k]? = some entry → chain[i / 1024 * 1024 + k]? = some other →
        loadBlockTxs node other = .ok txs → ∀ tx ∈ txs, elements tx ⊆ entry.elements

section Chains

variable {digest : Bytes → Bytes} {node : Node} {chain : List DecodedBlock} {q : Query}
  {block : DecodedBlock} {limit endBlockHeight : Int} {results : List Found} {i e : Nat}
  {searched : List Int} {fuel : Nat} {elements : Transaction → List Bytes}
  {found : Nat → List Found}

theorem flatMap_filter_of_nil {α β : Type} {l : List α} {p : α → Bool} {f : α → List β}
    (h : ∀ a ∈ l, p a = false → f a = []) : (l.filter p).flatMap f = l.flatMap f := by
  induction l with
  | nil => rfl
  | cons a l ih =>
    have hrest := ih fun b hb => h b (List.mem_cons_of_mem _ hb)
    cases hp : p a with
    | false => rw [List.filter_cons_of_neg (by simp [hp]), List.flatMap_cons, hrest,
        h a List.mem_cons_self hp, List.nil_append]
    | true => rw [List.filter_cons_of_pos hp, List.flatMap_cons, List.flatMap_cons, hrest]

theorem range_filter_hits {hit : Nat → Bool} {n m : Nat} (hn : n ≤ m)
    (h : ∀ w < m, hit w = true → w < n) :
    (List.range' 0 m).filter hit = (List.range n).filter hit := by
  have hsplit : List.range' 0 m = List.range n ++ List.range' n (m - n) := by
    have happend := @List.range'_append_1 0 n (m - n)
    rw [Nat.zero_add, Nat.add_sub_cancel' hn] at happend
    rw [List.range_eq_range', happend]
  have hrest : (List.range' n (m - n)).filter hit = [] := by
    rw [List.filter_eq_nil_iff]
    intro w hw hhit
    obtain ⟨hw, hw'⟩ := List.mem_range'_1.mp hw
    exact absurd (h w (by omega) hhit) (Nat.not_lt.mpr hw)
  rw [hsplit, List.filter_append, hrest, List.append_nil]

/-- The block of a leaf is the one at the offset of the leaf. -/
theorem leafBlock_chain {era : List Bloom.EraBlock} (h : IndexedChain digest node chain)
    (hblock : chain[i]? = some block) {root : Bytes} (hera : EraOf digest node chain i root era)
    {k : Nat} (hk : k < era.length) :
    leafBlock node block (Bloom.startsOf era k) = chain[i / 1024 * 1024 + k]? := by
  have hlength := hera.length
  by_cases hlast : k + 1 < era.length
  · have hentry : era[k]? = some era[k] := List.getElem?_eq_getElem hk
    obtain ⟨other, hother, hhash⟩ := Option.map_eq_some_iff.mp (hera.hash k _ hentry)
    rw [Bloom.startsOf, if_pos hlast, hentry, Option.map_some, leafBlock, ← hhash,
      h.stored other (List.mem_of_getElem? hother), hother]
    rfl
  · have hplace : i / 1024 * 1024 + k = i := by omega
    rw [Bloom.startsOf, if_neg hlast, hplace, hblock]
    rfl

/-- Whatever is asked for, the filter of a leaf says of every transaction if it is a hit. -/
theorem isHit_total {leaf : Bloom.NodeRecord} {inserted : List Bytes}
    (h : Bloom.Holding digest inserted leaf.filter) (q : Query) (tx : Transaction) :
    ∃ hit, isHit node digest q leaf tx = .ok hit := by
  rw [isHit]
  by_cases hinvolved : q.involved ≠ zero32
  · rw [if_pos hinvolved]
    exact Bloom.bloomTest_total h _
  · rw [if_neg hinvolved]
    exact ⟨_, rfl⟩

/-- A leaf that a search of an era finds, at its offset. -/
structure FoundAt (digest : Bytes → Bytes) (era : List Bloom.EraBlock) (k : Nat)
    (leaf : Bloom.NodeRecord) : Prop where
  inside : k < era.length
  holding : Bloom.Holding digest (Bloom.Index.inserted (Bloom.logOf era) k (k + 1)) leaf.filter
  start : leaf.startHash = Bloom.startsOf era k

theorem exists_foundAt {era : List Bloom.EraBlock} {ks : List Nat} {leaves : List Bloom.NodeRecord}
    {leaf : Bloom.NodeRecord} (h : List.Forall₂ (FoundAt digest era) ks leaves)
    (hleaf : leaf ∈ leaves) : ∃ k ∈ ks, FoundAt digest era k leaf := by
  induction h with
  | nil => cases hleaf
  | cons hat _ ih =>
    cases hleaf with
    | head => exact ⟨_, List.mem_cons_self, hat⟩
    | tail _ hleaf =>
      obtain ⟨k, hk, hat⟩ := ih hleaf
      exact ⟨k, List.mem_cons_of_mem _ hk, hat⟩

theorem exists_leaf {era : List Bloom.EraBlock} {ks : List Nat} {leaves : List Bloom.NodeRecord}
    {k : Nat} (h : List.Forall₂ (FoundAt digest era) ks leaves) (hk : k ∈ ks) :
    ∃ leaf ∈ leaves, FoundAt digest era k leaf := by
  induction h with
  | nil => cases hk
  | cons hat _ ih =>
    cases hk with
    | head => exact ⟨_, List.mem_cons_self, hat⟩
    | tail _ hk =>
      obtain ⟨leaf, hleaf, hat⟩ := ih hk
      exact ⟨leaf, List.mem_cons_of_mem _ hleaf, hat⟩

theorem flatMap_foundAt {era : List Bloom.EraBlock} {ks : List Nat}
    {leaves : List Bloom.NodeRecord} {f : Nat → List Found} {g : Bloom.NodeRecord → List Found}
    (h : List.Forall₂ (FoundAt digest era) ks leaves)
    (hsame : ∀ k leaf, FoundAt digest era k leaf → g leaf = f k) :
    leaves.flatMap g = ks.flatMap f := by
  induction h with
  | nil => rfl
  | cons hat _ ih => rw [List.flatMap_cons, List.flatMap_cons, ih, hsame _ _ hat]

/-- One search of the tree of an era reads the blocks of some leaves, in their order, with those of
all leaves at which the element was inserted. -/
theorem collectEra_leaves (hdigest : ∀ x, (node.blake3 x).length = 32)
    (h : IndexedChain digest node chain) (hloads : ∀ block ∈ chain, ∃ txs,
      loadBlockTxs node block = .ok txs) (hblock : chain[i]? = some block)
    {era : List Bloom.EraBlock} (hera : EraOf digest node chain i block.fields.bloomHash era)
    (q : Query) (limit : Int) :
    ∃ (hit : Nat → Bool) (leaves : List Bloom.NodeRecord),
      (∀ results : List Found, results.length < enoughFor limit →
        collectEra node digest q limit block results =
          .ok ((results ++ leaves.flatMap (leafFound node digest q block)).take (enoughFor limit),
            decide (enoughFor limit ≤
              (results ++ leaves.flatMap (leafFound node digest q block)).length))) ∧
      List.Forall₂ (FoundAt digest era) ((List.range era.length).filter hit) leaves ∧
      ∀ k < era.length, (k, buildElement q) ∈ Bloom.logOf era → hit k = true := by
  obtain ⟨written, hrun, hnode⟩ := hera.run
  have hlength := hera.length
  obtain ⟨⟨index, hstands, hcovers⟩, -, -⟩ := hrun.covers hdigest
  obtain ⟨hi, -⟩ := List.getElem?_eq_some_iff.mp hblock
  cases hstands with
  | inl hzero =>
    refine ⟨fun _ => false, [], fun results hroom => ?_, ?_, fun k hk hmem => ?_⟩
    · rw [collectEra, if_pos (.inr hzero.1)]
      change Except.ok (results, false) =
        Except.ok ((results ++ []).take (enoughFor limit), decide _)
      rw [List.append_nil, List.take_of_length_le (Nat.le_of_lt hroom),
        decide_eq_false (by simpa using hroom)]
    · rw [List.filter_false]
      exact .nil
    · rw [hzero.2] at hcovers
      have hin := Bloom.Index.mem_inserted.mpr ⟨k, Nat.zero_le k,
        (by omega : k < 0 + 2 ^ 10), hmem⟩
      rw [show Bloom.Index.inserted (Bloom.logOf era) 0 (0 + 2 ^ 10) = [] from hcovers] at hin
      cases hin
  | inr hsome =>
    have hne : ¬ (block.fields.bloomHash = [] ∨ block.fields.bloomHash = zero32) := by
      cases hsome with
      | unread hkept _ _ _ =>
        rintro (hnil | hz)
        · exact hkept.ne_nil hdigest hnil
        · exact hkept.ne_zero hnode hz
    have hheld : ∀ b, some block.exprId = some b → b.length = 32 := by
      intro b hb
      cases hb
      exact (h.named block (List.mem_of_getElem? hblock)).1
    obtain ⟨hit, filters, hsearch, hfilters, hhits⟩ :=
      Bloom.Index.covers_search hcovers (buildElement q)
    obtain ⟨leaves, hleaves, hfilter, hstart⟩ :=
      Bloom.bloomSearchLeaves_found hdigest hnode hheld hsome hsearch
    have hrange : (List.range' 0 (2 ^ 10)).filter hit = (List.range era.length).filter hit :=
      range_filter_hits (by omega : era.length ≤ 2 ^ 10)
        fun w hw => (hhits w (Nat.zero_le w) (by simpa using hw)).2
    rw [hrange, ← hfilter, List.forall₂_map_right_iff] at hfilters
    obtain ⟨hcount, hplaced⟩ := List.forall₂_iff_get.mp hfilters
    have hat : List.Forall₂ (FoundAt digest era) ((List.range era.length).filter hit) leaves := by
      refine List.forall₂_iff_get.mpr ⟨hcount, fun n hn hn' => ?_⟩
      have hleaf := hplaced n hn hn'
      have hinside := (List.mem_filter.mp (List.get_mem _ ⟨n, hn⟩)).1
      exact ⟨List.mem_range.mp hinside, hleaf.holding,
        (hstart _ (List.get_mem leaves ⟨n, hn'⟩)).trans hleaf.start⟩
    refine ⟨hit, leaves, fun results hroom => ?_, hat, fun k hk hmem =>
      (hhits k (Nat.zero_le k) (by omega)).1 hmem⟩
    rw [collectEra, if_neg hne, hleaves, py_ok_bind]
    refine collectLeaves_eq (fun leaf hleaf => ?_) hroom
    obtain ⟨k, -, hk⟩ := exists_foundAt hat hleaf
    have hinside := hk.inside
    have hget : chain[i / 1024 * 1024 + k]? = some chain[i / 1024 * 1024 + k] :=
      List.getElem?_eq_getElem (by omega)
    obtain ⟨txs, htxs⟩ := hloads _ (List.mem_of_getElem? hget)
    refine ⟨⟨_, txs, ?_, htxs⟩, isHit_total hk.holding q⟩
    rw [hk.start, leafBlock_chain h hblock hera hk.inside, hget]

/-- What a search finds in the era of every block. -/
def FindsInEras (digest : Bytes → Bytes) (node : Node) (q : Query) (limit : Int)
    (chain : List DecodedBlock) (found : Nat → List Found) : Prop :=
  ∀ (i : Nat) (block : DecodedBlock) (results : List Found), chain[i]? = some block →
    results.length < enoughFor limit → collectEra node digest q limit block results =
      .ok ((results ++ found i).take (enoughFor limit),
        decide (enoughFor limit ≤ (results ++ found i).length))

/-- A step of the loop, if what it does from the block before is known. -/
theorem searchFrom_step (h : IndexedChain digest node chain)
    (hfound : FindsInEras digest node q limit chain found) (hblock : chain[i]? = some block)
    (hbelow : ∀ era : Nat, era < i / 1024 → (era : Int) ∉ searched)
    (hroom : results.length < enoughFor limit)
    (hnext : ∀ (searched : List Int) (results : List Found), ((i / 1024 : Nat) : Int) ∈ searched →
      (∀ era : Nat, era < i / 1024 → (era : Int) ∉ searched) →
      results.length < enoughFor limit →
      searchFrom node digest q endBlockHeight limit fuel (getPreviousBlock node block) searched
          results =
        .ok ((results ++ scanBelow found endBlockHeight (i / 1024)).take (enoughFor limit))) :
    searchFrom node digest q endBlockHeight limit (fuel + 1) (some block) searched results =
      .ok ((results ++ (if ((i / 1024 : Nat) : Int) ∈ searched then
        scanBelow found endBlockHeight (i / 1024)
        else scanFrom found endBlockHeight i)).take (enoughFor limit)) := by
  have hcast : (i : Int) / 1024 = ((i / 1024 : Nat) : Int) := by omega
  rw [searchFrom, h.height i block hblock]
  by_cases hend : (i : Int) < endBlockHeight
  · have hnone : (if ((i / 1024 : Nat) : Int) ∈ searched then
        scanBelow found endBlockHeight (i / 1024)
        else scanFrom found endBlockHeight i) = [] := by
      by_cases hera : ((i / 1024 : Nat) : Int) ∈ searched
      · rw [if_pos hera]
        exact scanBelow_eq_nil (by omega)
      · rw [if_neg hera, scanFrom, if_pos hend]
    rw [if_pos hend, hnone, List.append_nil, List.take_of_length_le (Nat.le_of_lt hroom)]
  · rw [if_neg hend]
    simp only [hcast]
    by_cases hera : ((i / 1024 : Nat) : Int) ∈ searched
    · rw [if_pos hera, if_pos hera]
      exact hnext searched results hera hbelow hroom
    · rw [if_neg hera, if_neg hera, hfound i block results hblock hroom, py_ok_bind, scanFrom,
        if_neg hend, ← List.append_assoc]
      by_cases henough : enoughFor limit ≤ (results ++ found i).length
      · rw [List.take_append_of_le_length henough]
        simp only [henough, decide_true, if_true]
        rfl
      · have hroom' := Nat.not_le.mp henough
        rw [List.take_of_length_le (Nat.le_of_lt hroom')]
        simp only [henough, decide_false]
        refine hnext _ _ List.mem_cons_self (fun era hlt hmem => ?_) hroom'
        cases List.mem_cons.mp hmem with
        | inl hsame => omega
        | inr hmem => exact hbelow era hlt hmem

/-- From a block the loop finds what is at it and below, if its era was not searched yet, and
otherwise what is in the eras below. -/
theorem searchFrom_eq (h : IndexedChain digest node chain)
    (hfound : FindsInEras digest node q limit chain found) (hblock : chain[i]? = some block)
    (hbelow : ∀ era : Nat, era < i / 1024 → (era : Int) ∉ searched)
    (hroom : results.length < enoughFor limit) (hfuel : i < fuel) :
    searchFrom node digest q endBlockHeight limit fuel (some block) searched results =
      .ok ((results ++ (if ((i / 1024 : Nat) : Int) ∈ searched then
        scanBelow found endBlockHeight (i / 1024)
        else scanFrom found endBlockHeight i)).take (enoughFor limit)) := by
  induction i generalizing block searched results fuel with
  | zero =>
    obtain ⟨fuel, rfl⟩ := Nat.exists_eq_succ_of_ne_zero (Nat.ne_of_gt hfuel)
    refine searchFrom_step h hfound hblock hbelow hroom fun searched results _ _ hroom => ?_
    rw [getPreviousBlock, if_pos (.inr (h.first block hblock)), searchFrom, scanBelow,
      List.append_nil, List.take_of_length_le (Nat.le_of_lt hroom)]
  | succ i ih =>
    obtain ⟨fuel, rfl⟩ := Nat.exists_eq_succ_of_ne_zero (Nat.ne_of_gt (Nat.zero_lt_of_lt hfuel))
    obtain ⟨hi, -⟩ := List.getElem?_eq_some_iff.mp hblock
    have hbefore : chain[i]? = some chain[i] := List.getElem?_eq_getElem (by omega)
    refine searchFrom_step h hfound hblock hbelow hroom fun searched results hera hbelow hroom => ?_
    rw [getPreviousBlock_chain h hblock, hbefore]
    have hback := @ih chain[i] results searched fuel hbefore
      (fun era hlt => hbelow era (by omega)) hroom (by omega)
    by_cases hsame : i / 1024 = (i + 1) / 1024
    · rw [hsame, if_pos hera] at hback
      exact hback
    · have hlast : i = i / 1024 * 1024 + 1023 := by omega
      have hnext : (i + 1) / 1024 = i / 1024 + 1 := by omega
      rw [if_neg (hbelow (i / 1024) (by omega))] at hback
      rw [hback, hnext, scanBelow_succ, ← hlast]

/-- A search is the scan over what it finds in the eras, up to the limit. -/
theorem bloomSearchTx_eq (h : IndexedChain digest node chain)
    (hfound : FindsInEras digest node q limit chain found) (hblock : chain[i]? = some block)
    (hfuel : i < fuel) (hquery : q.involved = zero32 ∨ q.txHash = zero32 ∧ q.sender = zero32 ∧
      q.receiver = zero32 ∧ q.key = zero32) (endBlockHeight : Int) :
    bloomSearchTx node digest fuel q (some block) endBlockHeight limit =
      .ok ((scanFrom found endBlockHeight i).take (enoughFor limit)) := by
  have hvalid : ¬ (q.involved ≠ zero32 ∧
      (q.txHash ≠ zero32 ∨ q.sender ≠ zero32 ∨ q.receiver ≠ zero32 ∨ q.key ≠ zero32)) := by
    tauto
  have hroom : ([] : List Found).length < enoughFor limit :=
    Nat.lt_of_lt_of_le Nat.one_pos (Nat.le_max_left _ _)
  rw [bloomSearchTx, if_neg hvalid, searchFrom_eq h hfound hblock
    (fun era _ => List.not_mem_nil) hroom hfuel, if_neg List.not_mem_nil, List.nil_append]

/-- Where the tree has no leaf for what is asked for, no transaction matches. -/
theorem foundIn_eq_nil (hq : q.Plain) {txs : List Transaction} {entry : Bloom.EraBlock}
    (hload : loadBlockTxs node block = .ok txs)
    (hvariants : ∀ tx ∈ txs, searchVariants tx ⊆ entry.elements)
    (hmissing : buildElement q ∉ entry.elements) : foundIn node q block = [] := by
  have hnone : txs.filter (txMatches node q) = [] := by
    rw [List.filter_eq_nil_iff]
    intro tx htx hmatch
    exact hmissing (hvariants tx htx (buildElement_mem hq hmatch))
  rw [foundIn, hload]
  change (txs.filter (txMatches node q)).map _ = []
  rw [hnone, List.map_nil]

/-- One search of the tree of an era finds what reading all its blocks does. -/
theorem findsInEras_scanEra (hdigest : ∀ x, (node.blake3 x).length = 32)
    (h : SearchableChain digest node chain searchVariants) (hq : q.Plain) (limit : Int) :
    FindsInEras digest node q limit chain (scanEra node q chain) := by
  intro i block results hblock hroom
  obtain ⟨era, hera, hvariants⟩ := h.indexed i block hblock
  obtain ⟨hit, leaves, hcollect, hat, hhits⟩ :=
    collectEra_leaves hdigest h.toIndexedChain h.loads hblock hera q limit
  obtain ⟨hi, -⟩ := List.getElem?_eq_some_iff.mp hblock
  have hlength := hera.length
  have hother : ∀ k, k < era.length → ∃ other txs, chain[i / 1024 * 1024 + k]? = some other ∧
      loadBlockTxs node other = .ok txs := by
    intro k hk
    have hget : chain[i / 1024 * 1024 + k]? = some chain[i / 1024 * 1024 + k] :=
      List.getElem?_eq_getElem (by omega)
    obtain ⟨txs, htxs⟩ := h.loads _ (List.mem_of_getElem? hget)
    exact ⟨_, txs, hget, htxs⟩
  have hscan : leaves.flatMap (leafFound node digest q block) = scanEra node q chain i := by
    have hplace : ∀ k leaf, FoundAt digest era k leaf → leafFound node digest q block leaf =
        (chain[i / 1024 * 1024 + k]?.map (foundIn node q)).getD [] := by
      intro k leaf hk
      obtain ⟨other, txs, hget, htxs⟩ := hother k hk.inside
      have hleaf : leafBlock node block leaf.startHash = some other := by
        rw [hk.start, leafBlock_chain h.toIndexedChain hblock hera hk.inside, hget]
      rw [leafFound_eq hleaf htxs fun tx => if_neg (not_not.mpr hq.involved), hget]
      change _ = foundIn node q other
      rw [foundIn, htxs]
      rfl
    rw [flatMap_foundAt hat hplace, scanEra, ← hlength]
    refine flatMap_filter_of_nil fun k hk hmiss => ?_
    have hk' : k < era.length := List.mem_range.mp hk
    obtain ⟨other, txs, hget, htxs⟩ := hother k hk'
    have hentry : era[k]? = some era[k] := List.getElem?_eq_getElem hk'
    rw [hget]
    refine foundIn_eq_nil hq htxs (hvariants k _ other txs hentry hget htxs) fun hmem => ?_
    rw [hhits k hk' (Bloom.mem_logOf.mpr ⟨_, hentry, hmem⟩)] at hmiss
    cases hmiss
  rw [hcollect results hroom, hscan]

/-- What a search for an account finds in the eras: transactions of their blocks, with all that
changed the account. -/
theorem exists_findsInEras (hdigest : ∀ x, (node.blake3 x).length = 32)
    {accounts : Transaction → List Bytes}
    (h : SearchableChain digest node chain (involvedVariants accounts)) {account : Bytes}
    (haccount : account.length = 32) (hne : account ≠ zero32)
    (hhash : ∀ tx, account ∈ accounts tx → (tx.hash.getD []).length = 32) (limit : Int) :
    ∃ found : Nat → List Found,
      FindsInEras digest node { involved := account } limit chain found ∧
      ∀ (i : Nat) (block : DecodedBlock), chain[i]? = some block →
        (∀ f ∈ found i, ∃ j other txs, j / 1024 = i / 1024 ∧ j ≤ i ∧ chain[j]? = some other ∧
          loadBlockTxs node other = .ok txs ∧ f.blockHash = other.exprId ∧ f.tx ∈ txs) ∧
        ∀ j other txs tx, j / 1024 = i / 1024 → j ≤ i → chain[j]? = some other →
          loadBlockTxs node other = .ok txs → tx ∈ txs → account ∈ accounts tx →
          ⟨other.exprId, tx⟩ ∈ found i := by
  have hone : ∀ i, ∃ l : List Found, ∀ block, chain[i]? = some block →
      (∀ results : List Found, results.length < enoughFor limit →
        collectEra node digest { involved := account } limit block results =
          .ok ((results ++ l).take (enoughFor limit),
            decide (enoughFor limit ≤ (results ++ l).length))) ∧
      (∀ f ∈ l, ∃ j other txs, j / 1024 = i / 1024 ∧ j ≤ i ∧ chain[j]? = some other ∧
        loadBlockTxs node other = .ok txs ∧ f.blockHash = other.exprId ∧ f.tx ∈ txs) ∧
      ∀ j other txs tx, j / 1024 = i / 1024 → j ≤ i → chain[j]? = some other →
        loadBlockTxs node other = .ok txs → tx ∈ txs → account ∈ accounts tx →
        ⟨other.exprId, tx⟩ ∈ l := by
    intro i
    cases hblock : chain[i]? with
    | none => exact ⟨[], fun block hb => by cases hb⟩
    | some block =>
      obtain ⟨era, hera, hvariants⟩ := h.indexed i block hblock
      obtain ⟨hit, leaves, hcollect, hat, hhits⟩ :=
        collectEra_leaves hdigest h.toIndexedChain h.loads hblock hera { involved := account } limit
      obtain ⟨hi, -⟩ := List.getElem?_eq_some_iff.mp hblock
      have hlength := hera.length
      have hplace : ∀ k leaf, FoundAt digest era k leaf →
          leafBlock node block leaf.startHash = chain[i / 1024 * 1024 + k]? := by
        intro k leaf hk
        rw [hk.start, leafBlock_chain h.toIndexedChain hblock hera hk.inside]
      refine ⟨leaves.flatMap (leafFound node digest { involved := account } block),
        fun block' hb => ?_⟩
      cases hb
      refine ⟨hcollect, fun f hf => ?_, fun j other txs tx hera' hj hget htxs htx hinvolved => ?_⟩
      · obtain ⟨leaf, hleaf, hf⟩ := List.mem_flatMap.mp hf
        obtain ⟨k, -, hk⟩ := exists_foundAt hat hleaf
        have hinside := hk.inside
        have hget : chain[i / 1024 * 1024 + k]? = some chain[i / 1024 * 1024 + k] :=
          List.getElem?_eq_getElem (by omega)
        obtain ⟨txs, htxs⟩ := h.loads _ (List.mem_of_getElem? hget)
        have htotal := @isHit_total digest node leaf _ hk.holding { involved := account }
        choose p haccepts using htotal
        rw [leafFound_eq ((hplace k leaf hk).trans hget) htxs haccepts] at hf
        obtain ⟨tx, htx, rfl⟩ := List.mem_map.mp hf
        exact ⟨_, _, txs, by omega, by omega, hget, htxs, rfl, (List.mem_filter.mp htx).1⟩
      · have hk : j - i / 1024 * 1024 < era.length := by omega
        have hback : i / 1024 * 1024 + (j - i / 1024 * 1024) = j := by omega
        have hentry : era[j - i / 1024 * 1024]? = some era[j - i / 1024 * 1024] :=
          List.getElem?_eq_getElem hk
        have hsub := hvariants (j - i / 1024 * 1024) _ other txs hentry (by rw [hback]; exact hget)
          htxs tx htx
        have hboth : ∀ element ∈ makeInvolvedVariants (tx.hash.getD []) account,
            (j - i / 1024 * 1024, element) ∈ Bloom.logOf era := fun element helement =>
          Bloom.mem_logOf.mpr ⟨_, hentry,
            hsub (List.mem_flatMap.mpr ⟨account, hinvolved, helement⟩)⟩
        have hblockElement : buildElement { involved := account } ∈
            makeInvolvedVariants (tx.hash.getD []) account := by
          rw [buildElement, column_of_length haccount]
          exact List.mem_cons_self
        have htxElement : buildElement { txHash := tx.hash.getD [], involved := account } ∈
            makeInvolvedVariants (tx.hash.getD []) account := by
          have hnil : tx.hash.getD [] ≠ [] := fun hnil => by
            have hlen := hhash tx hinvolved
            rw [hnil] at hlen
            cases hlen
          rw [buildElement, column_of_length haccount, column_of_length (hhash tx hinvolved),
            makeInvolvedVariants, if_neg hnil]
          exact List.mem_cons_of_mem _ List.mem_cons_self
        obtain ⟨leaf, hleaf, hfound⟩ := exists_leaf hat (List.mem_filter.mpr
          ⟨List.mem_range.mpr hk, hhits _ hk (hboth _ hblockElement)⟩)
        have htotal := @isHit_total digest node leaf _ hfound.holding { involved := account }
        choose p haccepts using htotal
        have hp : p tx = true := by
          have hhit := haccepts tx
          rw [isHit, if_pos hne, Bloom.bloomTest_of_holding hfound.holding
            (Bloom.Index.mem_inserted.mpr ⟨_, Nat.le_refl _, Nat.lt_succ_self _,
              hboth _ htxElement⟩)] at hhit
          exact (Except.ok.inj hhit).symm
        refine List.mem_flatMap.mpr ⟨leaf, hleaf, ?_⟩
        rw [leafFound_eq (by rw [hplace _ leaf hfound, hback, hget]) htxs haccepts]
        exact List.mem_map_of_mem (List.mem_filter.mpr ⟨htx, hp⟩)
  choose found hfound using hone
  exact ⟨found, fun i block results hblock => (hfound i block hblock).1 results,
    fun i block hblock => (hfound i block hblock).2⟩

/-- A search for the transactions that changed an account never raises and stops at the limit. What
it finds is of the chain, up to the starting block, and unless it stopped at the limit it has every
transaction that changed the account from the end height on. -/
theorem involved_transactions_are_found (hdigest : ∀ x, (node.blake3 x).length = 32)
    {accounts : Transaction → List Bytes}
    (h : SearchableChain digest node chain (involvedVariants accounts)) {account : Bytes}
    (haccount : account.length = 32) (hne : account ≠ zero32)
    (hhash : ∀ tx, account ∈ accounts tx → (tx.hash.getD []).length = 32)
    (hblock : chain[i]? = some block) (endBlockHeight limit : Int) (hfuel : i < fuel) :
    ∃ results, bloomSearchTx node digest fuel { involved := account } (some block) endBlockHeight
        limit = .ok results ∧ results.length ≤ max 1 limit.toNat ∧
      (∀ f ∈ results, ∃ j other txs, j ≤ i ∧ chain[j]? = some other ∧
        loadBlockTxs node other = .ok txs ∧ f.blockHash = other.exprId ∧ f.tx ∈ txs) ∧
      (results.length < max 1 limit.toNat → ∀ (j : Nat) (other : DecodedBlock)
        (txs : List Transaction) (tx : Transaction), endBlockHeight ≤ j → j ≤ i →
        chain[j]? = some other → loadBlockTxs node other = .ok txs → tx ∈ txs →
        account ∈ accounts tx → ⟨other.exprId, tx⟩ ∈ results) := by
  obtain ⟨found, hfinds, hfound⟩ := exists_findsInEras hdigest h haccount hne hhash limit
  obtain ⟨hi, -⟩ := List.getElem?_eq_some_iff.mp hblock
  have hlast : ∀ era, era < i / 1024 → ∃ b, chain[era * 1024 + 1023]? = some b := fun era hera =>
    ⟨_, List.getElem?_eq_getElem (by omega)⟩
  refine ⟨_, bloomSearchTx_eq h.toIndexedChain hfinds hblock hfuel (.inr ⟨rfl, rfl, rfl, rfl⟩)
    endBlockHeight, ?_, fun f hf => ?_, fun hshort j other txs tx hend hj hget htxs htx hin => ?_⟩
  · rw [List.length_take]
    exact Nat.min_le_left _ _
  · have hf := List.mem_of_mem_take hf
    rw [scanFrom] at hf
    split at hf
    · cases hf
    · cases List.mem_append.mp hf with
      | inl hf =>
        obtain ⟨j, other, txs, -, hj, hrest⟩ := (hfound i block hblock).1 f hf
        exact ⟨j, other, txs, hj, hrest⟩
      | inr hf =>
        obtain ⟨era, hera, -, hf⟩ := mem_scanBelow.mp hf
        obtain ⟨b, hb⟩ := hlast era hera
        obtain ⟨j, other, txs, -, hj, hrest⟩ := (hfound _ b hb).1 f hf
        exact ⟨j, other, txs, by omega, hrest⟩
  · have hall : (scanFrom found endBlockHeight i).take (enoughFor limit) =
        scanFrom found endBlockHeight i := by
      rw [List.length_take] at hshort
      refine List.take_of_length_le ?_
      rw [enoughFor] at hshort ⊢
      omega
    rw [hall, scanFrom, if_neg (by omega), List.mem_append]
    by_cases hera : j / 1024 = i / 1024
    · exact .inl ((hfound i block hblock).2 j other txs tx hera hj hget htxs htx hin)
    · obtain ⟨b, hb⟩ := hlast (j / 1024) (by omega)
      exact .inr (mem_scanBelow.mpr ⟨j / 1024, by omega, by omega,
        (hfound _ b hb).2 j other txs tx (by omega) (by omega) hget htxs htx hin⟩)

end Chains

section Samples

/-- The blocks of the sample chain have no transactions. -/
theorem sampleChain_searchable (elements : Transaction → List Bytes) :
    SearchableChain sampleDigest ((sampleNode 40).storing chainCells) sampleChain elements := by
  have hloads : ∀ block ∈ sampleChain,
      loadBlockTxs ((sampleNode 40).storing chainCells) block = .ok [] := by
    rw [sampleChain, List.forall_mem_cons, List.forall_mem_singleton]
    exact ⟨rfl, rfl⟩
  refine ⟨sampleChain_indexed, fun block hblock => ⟨[], hloads block hblock⟩, fun i block h => ?_⟩
  obtain ⟨era, hera⟩ := sampleChain_indexed.tree i block h
  refine ⟨era, hera, fun k entry other txs _ hother htxs tx htx => ?_⟩
  rw [hloads other (List.mem_of_getElem? hother)] at htxs
  cases htxs
  cases htx

theorem sample_involved_search : ∃ node results,
    bloomSearchTx node sampleDigest 2 { involved := List.replicate 32 5 }
      (some (decodedSample childBlock)) 0 3 = .ok results ∧ results.length ≤ 3 := by
  have hdigest : ∀ x, (sampleDigest x).length = 32 := fun x => by simp [sampleDigest]
  have hlast : sampleChain[1]? = some (decodedSample childBlock) := rfl
  obtain ⟨results, hsearch, hlength, -⟩ := @involved_transactions_are_found sampleDigest _ _ _ _ 2
    hdigest (fun _ => []) (sampleChain_searchable _) (List.replicate 32 5) rfl (by decide)
    (fun tx htx => by cases htx) hlast 0 3 (by decide)
  exact ⟨_, results, hsearch, hlength⟩

end Samples

end Astreum
