import Astreum.BlockHeads

namespace Astreum

section Building

/-- `next_storage_difficulty`. -/
def nextStorageDifficulty (parent votes : Int) : Int :=
  max 0 (parent + (if 0 < votes then 1 else 0) - (if votes < 0 then 1 else 0))

/-- What the transactions of a new block leave for its header. -/
structure BlockContents where
  accountsHash : Bytes
  totalTransactionFee : Int
  totalStorageFee : Int
  transactionsHash : Bytes
  receiptsHash : Bytes
  bloomHash : Bytes
  deltaFee : Int
  deltaStake : Int
  storageClaimCount : Int
  storageVotes : Int
  globalLoaned : Int
  globalDefaulted : Int
  globalLoanCount : Int

/-- The hashes are of 32 bytes or missing. -/
def BlockContents.Sized (contents : BlockContents) : Prop :=
  ∀ h ∈ [contents.accountsHash, contents.transactionsHash, contents.receiptsHash,
    contents.bloomHash], h = [] ∨ h.length = 32

/-- `ERA_SIZE`. -/
def eraSize : Int := 1024

/-- What the worker writes as the chain of its blocks, `getattr(node, "chain", 0)`: a node keeps its
chain in `config` and has no `chain` of its own. -/
def workerChainId : Int := 0

/-- The header that the worker builds on the head, before the search for a nonce. -/
def buildHeader (latestBlockHash : Bytes) (previousBlock : DecodedBlock)
    (validationPublicKey : Bytes) (blockTime : Int) (contents : BlockContents) : BlockFields :=
  let previous := previousBlock.fields
  let height := intOr (some previous.height) 0 + 1
  createBlock
    { chainId := workerChainId
      previousBlockHash := latestBlockHash
      height := height
      timestamp := blockTime
      accountsHash := contents.accountsHash
      totalTransactionFee := contents.totalTransactionFee
      totalStorageFee := contents.totalStorageFee
      transactionsHash := contents.transactionsHash
      receiptsHash := contents.receiptsHash
      validationDifficulty := calculateBlockDifficulty (some previous.timestamp) (some blockTime)
        (some previous.validationDifficulty) 2
      storageDifficulty := nextStorageDifficulty previous.storageDifficulty contents.storageVotes
      validatorPublicKeyBytes := validationPublicKey
      nonce := 0
      bloomHash := contents.bloomHash
      previousEraHash := if height % eraSize = 0 ∧ 0 < height then previousBlock.exprId else []
      signature := []
      statistics := updateStatistics height previous.statistics contents.deltaFee
        contents.deltaStake contents.storageClaimCount
      globalLoaned := contents.globalLoaned
      globalDefaulted := contents.globalDefaulted
      globalLoanCount := contents.globalLoanCount }

variable (node : Node) (difficulty : Int) (sign : Option (Bytes → Bytes)) (block : BlockFields)

/-- The block with a nonce, signed again where it can be. -/
def blockAt (nonce : Int) : BlockFields :=
  let tried := { block with nonce := nonce }
  match sign with
  | none => tried
  | some sign => { tried with signature := sign (node.hash tried.body) }

def meetsTarget (nonce : Int) : Bool :=
  decide (max 1 difficulty ≤ leadingZeroBits (node.hash (blockAt node sign block nonce).expr))

/-- The loop of `generate_block_nonce` from a nonce on. -/
def nonceFrom : Nat → Int → Option BlockFields
  | 0, _ => none
  | fuel + 1, nonce =>
    if meetsTarget node difficulty sign block nonce then some (blockAt node sign block nonce)
    else nonceFrom fuel (nonce + 1)

/-- `generate_block_nonce`, with a bound on the nonces that are tried. -/
def generateBlockNonce (fuel : Nat) : Option BlockFields :=
  nonceFrom node difficulty sign block fuel (intOr (some block.nonce) 0)

variable {node difficulty sign block}

/-- The search ends at the first nonce that meets the target. -/
theorem nonceFrom_finds {start : Int} {steps : Nat}
    (hmeets : meetsTarget node difficulty sign block (start + steps) = true) :
    ∃ first ≤ steps, meetsTarget node difficulty sign block (start + first) = true ∧
      ∀ fuel, first < fuel → nonceFrom node difficulty sign block fuel start =
        some (blockAt node sign block (start + first)) := by
  induction steps generalizing start with
  | zero =>
    refine ⟨0, le_rfl, hmeets, fun fuel hfuel => ?_⟩
    obtain ⟨fuel, rfl⟩ := Nat.exists_eq_succ_of_ne_zero (Nat.ne_of_gt hfuel)
    simp only [Int.natCast_zero, Int.add_zero] at hmeets ⊢
    rw [nonceFrom, if_pos hmeets]
  | succ steps ih =>
    by_cases hnow : meetsTarget node difficulty sign block start = true
    · refine ⟨0, Nat.zero_le _, by simpa using hnow, fun fuel hfuel => ?_⟩
      obtain ⟨fuel, rfl⟩ := Nat.exists_eq_succ_of_ne_zero (Nat.ne_of_gt hfuel)
      rw [nonceFrom, if_pos hnow]
      simp
    · have hshift : ∀ k : Nat, start + 1 + k = start + (k + 1 : Nat) := fun k => by
        push_cast
        ring
      obtain ⟨first, hle, hfirst, hrun⟩ := @ih (start + 1) (by rw [hshift]; exact hmeets)
      rw [hshift] at hfirst
      refine ⟨first + 1, Nat.succ_le_succ hle, hfirst, fun fuel hfuel => ?_⟩
      obtain ⟨fuel, rfl⟩ := Nat.exists_eq_succ_of_ne_zero (Nat.ne_of_gt (Nat.zero_lt_of_lt hfuel))
      rw [nonceFrom, if_neg hnow, hrun fuel (Nat.lt_of_succ_lt_succ hfuel), hshift]

end Building

section Verifying

variable {node : Node} {c : HeadChecks} {latestBlockHash validationPublicKey : Bytes}
  {previousBlock : DecodedBlock} {contents : BlockContents} {blockTime nonce : Int}
  {sign : Bytes → Bytes}

theorem length_orZero32 {value : Bytes} (h : value = [] ∨ value.length = 32) :
    (orZero32 value).length = 32 := by
  cases h with
  | inl h =>
    rw [h]
    rfl
  | inr h =>
    rw [orZero32_of_ne, h]
    rintro rfl
    cases h

/-- A signed block of the worker is one that storage gives back as it is. -/
theorem created_blockAt (hlatest : latestBlockHash.length = 32)
    (hprevious : previousBlock.exprId.length = 32) (hcontents : contents.Sized)
    (hsign : ∀ message, sign message ≠ []) :
    (blockAt node (some sign) (buildHeader latestBlockHash previousBlock validationPublicKey
      blockTime contents) nonce).Created := by
  simp only [BlockContents.Sized, List.forall_mem_cons, List.not_mem_nil, false_imp_iff,
    implies_true, and_true] at hcontents
  obtain ⟨haccounts, htransactions, hreceipts, hbloom⟩ := hcontents
  constructor
  · simp only [List.forall_mem_cons, List.not_mem_nil, false_imp_iff, implies_true, and_true]
    refine ⟨length_orZero32 (.inr hlatest), length_orZero32 haccounts,
      length_orZero32 htransactions, length_orZero32 hreceipts, length_orZero32 hbloom,
      length_orZero32 ?_⟩
    dsimp only
    split
    · exact .inr hprevious
    · exact .inl rfl
  · exact orZero32_ne_nil _
  · exact hsign _
  · exact updateStatistics_totals _ _ _ _ _

/-- The head of a block that the worker signed with the nonce it found extends the block below in
every respect but the chain. -/
theorem buildsOn_blockAt {d : DecodedBlock} (hkey : validationPublicKey ≠ [])
    (hsign : ∀ message, sign message ≠ [] ∧
      c.verifies validationPublicKey (sign message) message = true)
    (htime : previousBlock.fields.timestamp + 1 ≤ blockTime)
    (hmeets : meetsTarget node previousBlock.fields.validationDifficulty (some sign)
      (buildHeader latestBlockHash previousBlock validationPublicKey blockTime contents) nonce =
        true)
    (hfields : d.fields = blockAt node (some sign) (buildHeader latestBlockHash previousBlock
      validationPublicKey blockTime contents) nonce)
    (hid : d.exprId = node.hash d.fields.expr) (hnamed : d.exprId ≠ [])
    (hbody : d.bodyHash = node.hash d.fields.body) (hpresent : d.bodyHash ≠ []) :
    BuildsOn c d previousBlock ↔ c.chainId = 0 := by
  have hsigned : d.fields.signature = sign (node.hash d.fields.body) := by
    rw [hfields]
    rfl
  have hvalidator : d.fields.validatorPublicKeyBytes = validationPublicKey := by
    rw [hfields]
    exact orZero32_of_ne hkey
  constructor
  · intro h
    have hchain := h.chain
    rw [hfields] at hchain
    exact hchain.symm
  · intro hchain
    refine ⟨?_, ?_, ?_, ?_, ?_, ?_, hnamed, ?_⟩
    · rw [hfields, hchain]
      rfl
    · rw [hsigned, hvalidator]
      simp [hpresent, hkey, (hsign _).1]
    · rw [hfields]
      change intOr (some previousBlock.fields.height) 0 + 1 = _
      simp only [intOr]
      split_ifs with hzero
      · rw [hzero]
      · rfl
    · rw [hfields]
      exact htime
    · rw [hsigned, hvalidator, hbody]
      exact (hsign _).2
    · rw [hfields]
      rfl
    · rw [hid, hfields]
      exact of_decide_eq_true hmeets

theorem written_hashes {b : BlockFields} (hdigest : ∀ x, (node.blake3 x).length = 32)
    (hcreated : b.Created) : node.hash b.expr ≠ [] ∧ node.hash b.body ≠ [] := by
  have hbody : b.body.Writable := (writable_block hcreated).elim
    (fun h => h.2.1.elim (fun h => h.2.1) fun h => by cases h.1) fun h => by cases h.1
  constructor
  · intro hnil
    have hlength := length_hash_of_writable hdigest (writable_block hcreated)
    change (node.hash b.expr).length = 32 at hlength
    rw [hnil] at hlength
    cases hlength
  · intro hnil
    have hlength := length_hash_of_writable hdigest hbody
    change (node.hash b.body).length = 32 at hlength
    rw [hnil] at hlength
    cases hlength

/-- Where a nonce meets the target the worker's search ends, and a node that has the cells of the
block reads a head that it verifies on the block below, whatever the clock of the worker was, if and
only if its chain is the one of id zero. -/
theorem built_head_verifies_iff {ready : ℚ} {steps : Nat}
    (hdigest : ∀ x, (node.blake3 x).length = 32)
    (hlatest : latestBlockHash.length = 32) (hfork : latestBlockHash ≠ zero32)
    (hprevious : previousBlock.exprId.length = 32) (hkey : validationPublicKey ≠ [])
    (hcontents : contents.Sized)
    (hsign : ∀ message, sign message ≠ [] ∧
      c.verifies validationPublicKey (sign message) message = true)
    (hmeets : meetsTarget node previousBlock.fields.validationDifficulty (some sign)
      (buildHeader latestBlockHash previousBlock validationPublicKey
        (nextBlockTime previousBlock.fields.timestamp ready 2) contents) steps = true) :
    ∃ built, (∃ enough, ∀ fuel, enough < fuel →
        generateBlockNonce node previousBlock.fields.validationDifficulty (some sign)
          (buildHeader latestBlockHash previousBlock validationPublicKey
            (nextBlockTime previousBlock.fields.timestamp ready 2) contents) fuel = some built) ∧
      ∀ reader : Node, reader.blake3 = node.blake3 → reader.Holds built.expr →
        built.expr.linkDepth < reader.fuel →
        ∃ d, getBlockFromStorage reader (node.hash built.expr) = .ok d ∧
          (verifyBlockHead c d (some previousBlock) = true ↔ c.chainId = 0) := by
  obtain ⟨first, -, hfirst, hrun⟩ := @nonceFrom_finds node _ _ _ 0 steps (by simpa using hmeets)
  refine ⟨_, ⟨first, hrun⟩, fun reader hblake hholds hfuel => ?_⟩
  have htime := @le_nextBlockTime previousBlock.fields.timestamp ready 2 (by decide)
  have hcreated := @created_blockAt node _ validationPublicKey _ contents
    (nextBlockTime previousBlock.fields.timestamp ready 2) (0 + first) sign hlatest hprevious
    hcontents fun message => (hsign message).1
  obtain ⟨hexpr, hbody⟩ := written_hashes hdigest hcreated
  have hhash : ∀ e : Expr, reader.hash e = node.hash e := fun e => by
    change e.hash reader.blake3 = e.hash node.blake3
    rw [hblake]
  obtain ⟨hdepth, hlength⟩ := linkDepth_block (blockAt node (some sign)
    (buildHeader latestBlockHash previousBlock validationPublicKey
      (nextBlockTime previousBlock.fields.timestamp ready 2) contents) (0 + first))
  have hread := getBlock_stored hholds hcreated (lt_of_le_of_lt hdepth hfuel)
    (lt_of_le_of_lt hlength hfuel)
  rw [hhash, hhash] at hread
  refine ⟨_, hread hexpr hbody, ?_⟩
  have hnamed : orZero32 latestBlockHash = latestBlockHash := by
    apply orZero32_of_ne
    rintro rfl
    cases hlatest
  have hgo : orZero32 (orZero32 latestBlockHash) ≠ zero32 := by rwa [hnamed, hnamed]
  rw [verifyBlockHead_iff hgo]
  exact buildsOn_blockAt hkey hsign (by omega) hfirst rfl rfl hexpr rfl hbody

/-- A block that holds nothing and pays its validator one. -/
def emptyContents : BlockContents where
  accountsHash := List.replicate 32 5
  totalTransactionFee := 0
  totalStorageFee := 0
  transactionsHash := zero32
  receiptsHash := zero32
  bloomHash := zero32
  deltaFee := 1
  deltaStake := 1
  storageClaimCount := 0
  storageVotes := 0
  globalLoaned := 0
  globalDefaulted := 0
  globalLoanCount := 0

/-- A genesis block with names of 32 bytes. -/
def namedGenesis : DecodedBlock := ⟨genesisBlock, List.replicate 32 8, List.replicate 32 9⟩

/-- A block on genesis that took five seconds is rejected by a node of the chain of id one. -/
theorem main_chain_rejects_built_head :
    ∃ built, (∃ enough, ∀ fuel, enough < fuel →
        generateBlockNonce (sampleNode 40) 0 (some fun _ => [1])
          (buildHeader (List.replicate 32 8) namedGenesis [6]
            (nextBlockTime 1700000000 1700000005 2) emptyContents) fuel = some built) ∧
      ∀ reader : Node, reader.blake3 = sampleDigest → reader.Holds built.expr →
        built.expr.linkDepth < reader.fuel →
        ∃ d, getBlockFromStorage reader ((sampleNode 40).hash built.expr) = .ok d ∧
          ¬verifyBlockHead ⟨1, fun _ _ _ => true⟩ d (some namedGenesis) = true := by
  have hdigest : ∀ x, (sampleDigest x).length = 32 := fun x => by simp [sampleDigest]
  have hmeets : meetsTarget (sampleNode 40) 0 (some fun _ => [1])
      (buildHeader (List.replicate 32 8) namedGenesis [6]
        (nextBlockTime 1700000000 1700000005 2) emptyContents) ((1 : Nat) : Int) = true := by
    decide +kernel
  obtain ⟨built, hrun, hread⟩ := @built_head_verifies_iff (sampleNode 40)
    ⟨1, fun _ _ _ => true⟩ (List.replicate 32 8) [6] namedGenesis emptyContents (fun _ => [1])
    1700000005 1 hdigest (by decide) (by decide) (by decide) (by decide)
    (by unfold BlockContents.Sized; decide) (fun _ => ⟨by decide, rfl⟩) hmeets
  refine ⟨built, hrun, fun reader hblake hholds hfuel => ?_⟩
  obtain ⟨d, hd, hverify⟩ := hread reader hblake hholds hfuel
  refine ⟨d, hd, fun h => ?_⟩
  have hzero := hverify.mp h
  cases hzero

end Verifying

end Astreum
