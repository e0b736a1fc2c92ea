import Astreum.BlockCodec
import Astreum.Forks
import Astreum.StorageContract
import Mathlib.Algebra.Order.Floor.Ring
import Mathlib.Data.Rat.Floor

namespace Astreum

section Work

theorem fromBytesLittle_append (low high : Bytes) :
    Python.fromBytesLittle (low ++ high) =
      Python.fromBytesLittle low + 256 ^ low.length * Python.fromBytesLittle high := by
  induction low with
  | nil => simp [Python.fromBytesLittle]
  | cons b low ih =>
    simp only [List.cons_append, Python.fromBytesLittle, ih, List.length_cons, Nat.pow_succ]
    ring

theorem fromBytesBig_cons (b : UInt8) (bytes : Bytes) :
    Python.fromBytesBig (b :: bytes) =
      b.toNat * 256 ^ bytes.length + Python.fromBytesBig bytes := by
  rw [Python.fromBytesBig, List.reverse_cons, fromBytesLittle_append, List.length_reverse]
  simp only [Python.fromBytesBig, Python.fromBytesLittle]
  ring

theorem fromBytesBig_lt (bytes : Bytes) : Python.fromBytesBig bytes < 2 ^ (8 * bytes.length) := by
  have h := fromBytesLittle_lt bytes.reverse
  rw [List.length_reverse] at h
  rw [Nat.pow_mul]
  exact h

/-- A byte that is not zero starts with `bits` zero bits when it is below a power of two. -/
theorem le_byte_zeros_iff {b : UInt8} {bits : Nat} (hb : b ≠ 0) (hbits : bits ≤ 8) :
    bits ≤ 8 - Python.bitLength b.toNat ↔ b.toNat < 2 ^ (8 - bits) := by
  have hne : b.toNat ≠ 0 := fun h => hb (UInt8.toNat_inj.mp h)
  have hlength : Python.bitLength b.toNat = b.toNat.log2 + 1 := by
    rw [Python.bitLength, if_neg (by exact_mod_cast hne), Int.natAbs_natCast]
  have hlog : b.toNat.log2 < 8 := (Nat.log2_lt hne).mpr b.toNat_lt
  rw [hlength, ← Nat.log2_lt hne]
  omega

/-- A hash has its first `bits` bits zero when it is below a power of two as a number. -/
theorem le_leadingZeroBits_iff {bytes : Bytes} {bits : Nat} (hbits : bits ≤ 8 * bytes.length) :
    bits ≤ leadingZeroBits bytes ↔
      Python.fromBytesBig bytes < 2 ^ (8 * bytes.length - bits) := by
  induction bytes generalizing bits with
  | nil =>
    obtain rfl : bits = 0 := Nat.le_zero.mp hbits
    simp [leadingZeroBits, Python.fromBytesBig, Python.fromBytesLittle]
  | cons b bytes ih =>
    rw [List.length_cons] at hbits
    rw [leadingZeroBits, fromBytesBig_cons, List.length_cons]
    have hrest := fromBytesBig_lt bytes
    have hpow : (256 : Nat) ^ bytes.length = 2 ^ (8 * bytes.length) := by rw [Nat.pow_mul]
    by_cases hb : b = 0
    · subst hb
      simp only [if_true, UInt8.toNat_zero, Nat.zero_mul, Nat.zero_add]
      by_cases hsmall : bits ≤ 8
      · have hfit : (2 : Nat) ^ (8 * bytes.length) ≤ 2 ^ (8 * (bytes.length + 1) - bits) :=
          Nat.pow_le_pow_right (by decide) (by omega)
        exact iff_of_true (by omega) (lt_of_lt_of_le hrest hfit)
      · have hstep := @ih (bits - 8) (by omega)
        rw [show 8 * (bytes.length + 1) - bits = 8 * bytes.length - (bits - 8) by omega, ← hstep]
        omega
    · rw [if_neg hb]
      by_cases hsmall : bits ≤ 8
      · have hsplit : (2 : Nat) ^ (8 * (bytes.length + 1) - bits) =
            2 ^ (8 - bits) * 2 ^ (8 * bytes.length) := by
          rw [← Nat.pow_add]
          congr 1
          omega
        rw [le_byte_zeros_iff hb hsmall, hsplit, hpow]
        constructor
        · intro h
          have hmul : (b.toNat + 1) * 2 ^ (8 * bytes.length) ≤
              2 ^ (8 - bits) * 2 ^ (8 * bytes.length) := Nat.mul_le_mul_right _ h
          rw [Nat.succ_mul] at hmul
          omega
        · intro h
          by_contra hle
          have hmul := Nat.mul_le_mul_right (2 ^ (8 * bytes.length)) (not_lt.mp hle)
          omega
      · have hne : 1 ≤ b.toNat := Nat.one_le_iff_ne_zero.mpr fun h => hb (UInt8.toNat_inj.mp h)
        have hmul := Nat.mul_le_mul_right (2 ^ (8 * bytes.length)) hne
        have hfit : (2 : Nat) ^ (8 * (bytes.length + 1) - bits) ≤ 2 ^ (8 * bytes.length) :=
          Nat.pow_le_pow_right (by decide) (by omega)
        rw [hpow]
        apply iff_of_false
        · omega
        · omega

end Work

section Difficulty

/-- `value or default` of an integer that may be missing. -/
def intOr (value : Option Int) (default : Int) : Int :=
  match value with
  | none => default
  | some n => if n = 0 then default else n

/-- `calculate_block_difficulty`. -/
def calculateBlockDifficulty (previousTimestamp currentTimestamp previousDifficulty : Option Int)
    (targetSpacing : Int) : Int :=
  let baseDifficulty := max 1 (intOr previousDifficulty 1)
  match previousTimestamp, currentTimestamp with
  | some previous, some current =>
    let spacing := max 0 (current - previous)
    if spacing ≤ 1 then baseDifficulty + 1
    else if targetSpacing < spacing then max 1 (baseDifficulty - 1)
    else baseDifficulty
  | _, _ => baseDifficulty

/-- `next_block_time`, with the ready time `now + estimate_seconds` as an exact number. -/
def nextBlockTime (parentTimestamp : Int) (ready : ℚ) (slot : Int) : Int :=
  parentTimestamp + max 1 ⌈(ready - parentTimestamp) / slot⌉ * slot

theorem max_one_intOr (d : Int) : max 1 (intOr (some d) 1) = max 1 d := by
  by_cases hd : d = 0
  · simp [intOr, hd]
  · simp [intOr, hd]

/-- What a block adds to the difficulty and to the time together is at least two. -/
theorem difficulty_step {previous current d : Int} (h : previous + 1 ≤ current) :
    d + 2 ≤ calculateBlockDifficulty (some previous) (some current) (some d) 2 +
        (current - previous) ∧
      calculateBlockDifficulty (some previous) (some current) (some d) 2 ≤ max 1 d + 1 ∧
      1 ≤ calculateBlockDifficulty (some previous) (some current) (some d) 2 := by
  simp only [calculateBlockDifficulty, max_one_intOr]
  split_ifs <;> omega

/-- A block is drawn for a time at least one slot after its parent. -/
theorem le_nextBlockTime (parentTimestamp : Int) (ready : ℚ) {slot : Int} (hslot : 0 < slot) :
    parentTimestamp + slot ≤ nextBlockTime parentTimestamp ready slot := by
  have hone : 1 * slot ≤ max 1 ⌈(ready - parentTimestamp) / slot⌉ * slot :=
    Int.mul_le_mul_of_nonneg_right (le_max_left _ _) hslot.le
  rw [nextBlockTime]
  omega

end Difficulty

section Heads

/-- What `verify_block_head` takes from the node and from the signature library: its chain and
`Ed25519PublicKey.verify`, false also for a key that cannot be read. -/
structure HeadChecks where
  chainId : Int
  verifies : Bytes → Bytes → Bytes → Bool

/-- `verify_block_head` of a block from storage, where no field is missing. -/
def verifyBlockHead (c : HeadChecks) (block : DecodedBlock) (previousBlock : Option DecodedBlock) :
    Bool :=
  let b := block.fields
  let isGenesis := orZero32 b.previousBlockHash = zero32
  match previousBlock with
  | none =>
    if ¬isGenesis then false
    else if b.chainId ≠ c.chainId then false
    else decide (b.height = 0)
  | some previous =>
    if b.chainId ≠ c.chainId then false
    else if isGenesis then decide (b.height = 0)
    else if block.bodyHash = [] ∨ b.signature = [] ∨ b.validatorPublicKeyBytes = [] then false
    else if b.height ≠ previous.fields.height + 1 then false
    else if b.timestamp < previous.fields.timestamp + 1 then false
    else if c.verifies b.validatorPublicKeyBytes b.signature block.bodyHash = false then false
    else if b.validationDifficulty ≠ calculateBlockDifficulty (some previous.fields.timestamp)
        (some b.timestamp) (some previous.fields.validationDifficulty) 2 then false
    else if block.exprId = [] then false
    else decide (max 1 (intOr (some previous.fields.validationDifficulty) 1) ≤
      leadingZeroBits block.exprId)

/-- What a head that passed says of its block and the block before it. -/
structure BuildsOn (c : HeadChecks) (block previous : DecodedBlock) : Prop where
  chain : block.fields.chainId = c.chainId
  present : ¬(block.bodyHash = [] ∨ block.fields.signature = [] ∨
    block.fields.validatorPublicKeyBytes = [])
  height : block.fields.height = previous.fields.height + 1
  later : previous.fields.timestamp + 1 ≤ block.fields.timestamp
  signed : c.verifies block.fields.validatorPublicKeyBytes block.fields.signature
    block.bodyHash = true
  difficulty : block.fields.validationDifficulty =
    calculateBlockDifficulty (some previous.fields.timestamp) (some block.fields.timestamp)
      (some previous.fields.validationDifficulty) 2
  named : block.exprId ≠ []
  work : max 1 previous.fields.validationDifficulty ≤ leadingZeroBits block.exprId

variable {c : HeadChecks} {block previous : DecodedBlock}

theorem verifyBlockHead_iff (hgo : orZero32 block.fields.previousBlockHash ≠ zero32) :
    verifyBlockHead c block (some previous) = true ↔ BuildsOn c block previous := by
  simp only [verifyBlockHead, if_neg hgo, max_one_intOr]
  constructor
  · intro h
    split_ifs at h with hchain hpresent hheight hlater hsigned hdifficulty hnamed
    exact ⟨not_not.mp hchain, hpresent, not_not.mp hheight, not_lt.mp hlater,
      Bool.eq_true_of_not_eq_false hsigned, not_not.mp hdifficulty, hnamed, of_decide_eq_true h⟩
  · intro h
    rw [if_neg (not_not.mpr h.chain), if_neg h.present, if_neg (not_not.mpr h.height),
      if_neg (not_lt.mpr h.later), if_neg (by simp [h.signed]), if_neg (not_not.mpr h.difficulty),
      if_neg h.named]
    exact decide_eq_true h.work

theorem height_of_genesis {previousBlock : Option DecodedBlock}
    (hgenesis : block.fields.previousBlockHash = zero32)
    (h : verifyBlockHead c block previousBlock = true) : block.fields.height = 0 := by
  have hzero : orZero32 block.fields.previousBlockHash = zero32 := by
    rw [hgenesis]
    exact orZero32_of_ne (by decide)
  cases previousBlock with
  | none =>
    simp only [verifyBlockHead, hzero] at h
    split_ifs at h
    exact of_decide_eq_true h
  | some previous =>
    simp only [verifyBlockHead, hzero] at h
    split_ifs at h
    exact of_decide_eq_true h

end Heads

section Pace

/-- What a chain of verified heads, `steps` blocks long, says of the block at its upper end and the
block at its lower end. -/
structure Paced (steps : Nat) (block below : DecodedBlock) : Prop where
  height : block.fields.height = below.fields.height + steps
  later : below.fields.timestamp + steps ≤ block.fields.timestamp
  /-- Blocks that come faster than one in two seconds raise the difficulty. -/
  rate : below.fields.validationDifficulty + 2 * steps ≤
    block.fields.validationDifficulty + (block.fields.timestamp - below.fields.timestamp)
  rise : block.fields.validationDifficulty ≤ max 1 below.fields.validationDifficulty + steps

variable {c : HeadChecks}

theorem Paced.refl (block : DecodedBlock) : Paced 0 block block where
  height := by simp
  later := by simp
  rate := by simp
  rise := by simp

theorem BuildsOn.paced {block previous below : DecodedBlock} {steps : Nat}
    (h : BuildsOn c block previous) (hrest : Paced steps previous below) :
    Paced (steps + 1) block below := by
  obtain ⟨hrate, hrise, -⟩ :=
    @difficulty_step _ _ previous.fields.validationDifficulty h.later
  rw [← h.difficulty] at hrate hrise
  have hheight := h.height
  have hlater := h.later
  constructor
  · rw [hheight, hrest.height]
    push_cast
    omega
  · have := hrest.later
    push_cast
    omega
  · have := hrest.rate
    push_cast
    omega
  · have := hrest.rise
    push_cast
    omega

/-- Any two blocks of a chain of verified heads keep the pace. -/
theorem paced_of_chain {blocks : List DecodedBlock} (h : blocks.IsChain (BuildsOn c)) {i j : Nat}
    (hij : i ≤ j) (hj : j < blocks.length) : Paced (j - i) (blocks[i]) (blocks[j]) := by
  induction blocks generalizing i j with
  | nil => cases hj
  | cons block blocks ih =>
    cases i with
    | succ i =>
      have hpos : 0 < j := Nat.lt_of_lt_of_le i.succ_pos hij
      obtain ⟨j, rfl⟩ := Nat.exists_eq_succ_of_ne_zero (Nat.ne_of_gt hpos)
      have hrest := @ih h.tail i j (Nat.le_of_succ_le_succ hij) (Nat.lt_of_succ_lt_succ hj)
      simpa using hrest
    | zero =>
      cases j with
      | zero => exact Paced.refl block
      | succ j =>
        cases blocks with
        | nil => cases Nat.lt_of_succ_lt_succ hj
        | cons previous blocks =>
          have hfirst : BuildsOn c block previous := (List.isChain_cons_cons.mp h).1
          have hrest := @ih h.tail 0 j (Nat.zero_le j) (Nat.lt_of_succ_lt_succ hj)
          exact hfirst.paced hrest

end Pace

section Chains

variable (node : Node) (c : HeadChecks)
  (verifyBlockTransactions : DecodedBlock → Option DecodedBlock → Py Bool)
  (validationPublicKeyBytes : Option Bytes)

/-- `verify_fork` with `get_block_from_storage` and `verify_block_head` as they are; the check of
the transactions is left open. -/
def headVerifier : Verifier DecodedBlock where
  getBlockFromStorage := getBlockFromStorage node
  previousBlockHash block := block.fields.previousBlockHash
  validatorPublicKeyBytes block := block.fields.validatorPublicKeyBytes
  verifyBlockHead block previousBlock := .ok (verifyBlockHead c block previousBlock)
  verifyBlockTransactions := verifyBlockTransactions
  validationPublicKeyBytes := validationPublicKeyBytes

variable {node c verifyBlockTransactions validationPublicKeyBytes}

/-- Whatever the computation returns meets `P`. -/
def Returns {α : Type} (P : α → Prop) (x : Py α) : Prop := ∀ a, x = .ok a → P a

theorem Returns.bindOf {α β : Type} {Q : α → Prop} {P : β → Prop} {x : Py α} {f : α → Py β}
    (hx : Returns Q x) (h : ∀ a, Q a → Returns P (f a)) : Returns P (x >>= f) := by
  intro b hb
  obtain ⟨a, ha, hf⟩ := except_bind_eq_ok.mp hb
  exact h a (hx a ha) b hf

theorem Returns.bind {α β : Type} {P : β → Prop} {x : Py α} {f : α → Py β}
    (h : ∀ a, Returns P (f a)) : Returns P (x >>= f) :=
  Returns.bindOf (Q := fun _ => True) (fun _ _ => trivial) fun a _ => h a

theorem Returns.pure {α : Type} {P : α → Prop} {a : α} (h : P a) :
    Returns P (Pure.pure a : Py α) := by
  intro b hb
  cases hb
  exact h

theorem Returns.error {α : Type} {P : α → Prop} (e : PyError) : Returns P (.error e : Py α) := by
  intro b hb
  cases hb

theorem orZero32_ne_nil (value : Bytes) : orZero32 value ≠ [] := by
  rw [orZero32]
  split
  · decide
  · assumption

theorem blockOfNodes_previous (nodes : List Expr) (signature : Bytes) :
    Returns (fun b => b.previousBlockHash ≠ []) (blockOfNodes node nodes signature) := by
  unfold blockOfNodes
  split
  · iterate 32 refine Returns.bind fun _ => ?_
    apply Returns.pure
    exact orZero32_ne_nil _
  · exact Returns.error _

/-- A block from storage has the hash it was asked for and names a block before it. -/
theorem getBlockFromStorage_named (h : Bytes) : Returns
    (fun d => d.exprId = orZero32 h ∧ orZero32 d.fields.previousBlockHash =
      d.fields.previousBlockHash) (getBlockFromStorage node h) := by
  unfold getBlockFromStorage
  refine Returns.bind fun header => ?_
  split
  · iterate 3 refine Returns.bind fun _ => ?_
    refine Returns.bind fun _ => ?_
    split
    · iterate 5 refine Returns.bind fun _ => ?_
      refine Returns.bindOf (blockOfNodes_previous _ _) fun fields hfields => ?_
      refine Returns.bind fun _ => ?_
      apply Returns.pure
      exact ⟨rfl, orZero32_of_ne hfields⟩
    · exact Returns.error _
  · exact Returns.error _

/-- The number of a hash is below a power of two that falls as the difficulty before it rises. -/
theorem BuildsOn.number_lt {block previous : DecodedBlock} (h : BuildsOn c block previous)
    {bits : Nat} (hbits : bits ≤ previous.fields.validationDifficulty)
    (hfit : bits ≤ 8 * block.exprId.length) :
    Python.fromBytesBig block.exprId < 2 ^ (8 * block.exprId.length - bits) := by
  apply (le_leadingZeroBits_iff hfit).mp
  have := h.work
  omega

theorem loadBlock_ok {h : Bytes} {loaded : DecodedBlock × Option DecodedBlock}
    (hload : (headVerifier node c verifyBlockTransactions validationPublicKeyBytes).loadBlock h =
      .ok loaded) :
    getBlockFromStorage node h = .ok loaded.1 ∧
      (loaded.1.fields.previousBlockHash ≠ zero32 → ∃ previous, loaded.2 = some previous ∧
        getBlockFromStorage node loaded.1.fields.previousBlockHash = .ok previous) := by
  obtain ⟨block, hblock, hload⟩ := except_bind_eq_ok.mp hload
  have hblock' : getBlockFromStorage node h = .ok block := hblock
  split_ifs at hload with hprevious
  · cases hload
    exact ⟨hblock', fun hne => absurd hprevious hne⟩
  · obtain ⟨previous, hread, hload⟩ := except_bind_eq_ok.mp hload
    cases hload
    exact ⟨hblock', fun _ => ⟨previous, rfl, hread⟩⟩

/-- The blocks on a walk of verified heads extend each other, down to a genesis block of height
zero where the walk ends at one. -/
theorem chain_of_walk {stops : Bytes → Prop} {h last : Bytes} {visited : List Bytes}
    (hwalk : (headVerifier node c verifyBlockTransactions validationPublicKeyBytes).Walk stops h
      visited last)
    (hall : ∀ a ∈ visited,
      (headVerifier node c verifyBlockTransactions validationPublicKeyBytes).HeadPasses a) :
    ∃ block blocks, getBlockFromStorage node h = .ok block ∧
      List.Forall₂ (fun a block => getBlockFromStorage node a = .ok block) visited
        (block :: blocks) ∧ (block :: blocks).IsChain (BuildsOn c) ∧
      (((block :: blocks).getLast (List.cons_ne_nil _ _)).fields.previousBlockHash = zero32 →
        ((block :: blocks).getLast (List.cons_ne_nil _ _)).fields.height = 0) := by
  have hone : ∀ h, (headVerifier node c verifyBlockTransactions
      validationPublicKeyBytes).HeadPasses h → ∃ block, getBlockFromStorage node h = .ok block ∧
        (block.fields.previousBlockHash = zero32 → block.fields.height = 0) := by
    intro h hpass
    obtain ⟨loaded, hload, hverify⟩ := hpass
    refine ⟨loaded.1, (loadBlock_ok hload).1, fun hgenesis => ?_⟩
    exact height_of_genesis hgenesis (Except.ok.inj hverify)
  induction hwalk with
  | met =>
    obtain ⟨block, hread, hheight⟩ := hone _ (hall _ List.mem_cons_self)
    exact ⟨block, [], hread, .cons hread .nil, List.IsChain.singleton _, hheight⟩
  | genesis =>
    obtain ⟨block, hread, hheight⟩ := hone _ (hall _ List.mem_cons_self)
    exact ⟨block, [], hread, .cons hread .nil, List.IsChain.singleton _, hheight⟩
  | step hgo hparent hp rest ih =>
    obtain ⟨hpass, hrest⟩ := List.forall_mem_cons.mp hall
    obtain ⟨previous, blocks, hprevious, hreads, hchain, hheight⟩ := ih hrest
    obtain ⟨loaded, hload, hverify⟩ := hpass
    obtain ⟨hread, hbefore⟩ := loadBlock_ok hload
    have hname := Verifier.Parent.unique ⟨loaded, hload, rfl⟩ hparent
    have hname' : loaded.1.fields.previousBlockHash = _ := hname
    obtain ⟨before, hsome, hread'⟩ := hbefore (by rw [hname']; exact hp)
    obtain rfl : before = previous := by
      rw [hname', hprevious] at hread'
      exact (Except.ok.inj hread').symm
    have hgoes : orZero32 loaded.1.fields.previousBlockHash ≠ zero32 := by
      rw [(getBlockFromStorage_named _ _ hread).2, hname']
      exact hp
    have hbuilds : BuildsOn c loaded.1 before := by
      apply (verifyBlockHead_iff hgoes).mp
      rw [← hsome]
      exact Except.ok.inj hverify
    refine ⟨loaded.1, before :: blocks, hread, .cons hread hreads, ?_, ?_⟩
    · exact List.isChain_cons_cons.mpr ⟨hbuilds, hchain⟩
    · simpa using hheight

/-- A node that holds the cells of a genesis block. -/
def genesisReader : Node := (sampleNode 40).storing genesisBlock.expr.cells

def genesisHash : Bytes := (sampleNode 40).hash genesisBlock.expr

end Chains

end Astreum
