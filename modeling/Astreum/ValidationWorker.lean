import Astreum.Rollback

namespace Astreum

section Included

variable {c : Ctx} {t : Transaction} {transactionHash : Bytes} {node : Node} {b b' : Block}
  {o : Outcome}

/-- The transactions of a block stay in it. -/
instance : IsPreorder Block fun b b' => b.transactions <+: b'.transactions where
  refl _ := List.prefix_refl _
  trans _ _ _ h h' := h.trans h'

theorem transactions_onLedger {α : Type} (x : Stateful Ledger α) :
    Eff.Keeps (fun b b' : Block => b.transactions <+: b'.transactions) (onLedger x) :=
  fun b => List.prefix_refl b.transactions

theorem transactions_of_outsideBloom {α : Type} {m : Stateful Block α}
    (hm : Eff.Keeps (fun b b' => b'.outsideBloom = b.outsideBloom) m) :
    Eff.Keeps (fun b b' : Block => b.transactions <+: b'.transactions) m := by
  intro b
  have hsame : (m b).2.transactions = b.transactions := congrArg (fun p => p.2.2.1) (hm b)
  simp only [hsame, List.prefix_rfl]

theorem transactions_record (receipt : Receipt) :
    Eff.Keeps (fun b b' : Block => b.transactions <+: b'.transactions)
      (record t transactionHash receipt) := by
  refine Eff.Keeps.bind (fun b => List.prefix_append b.transactions [t]) fun _ => ?_
  refine Eff.Keeps.read.bind fun _ => (Eff.Keeps.ofExcept _).bind fun _ => ?_
  exact fun b => List.prefix_refl b.transactions

theorem transactions_conclude (counterMatched : Bool) (h : Handled) (priced : Priced) :
    Eff.Keeps (fun b b' : Block => b.transactions <+: b'.transactions)
      (conclude t transactionHash counterMatched h priced) := by
  refine (transactions_onLedger _).bind fun sender => ?_
  refine (transactions_of_outsideBloom (keeps_finalizePendingBloomInserts _ _ _)).bind fun _ => ?_
  refine (transactions_onLedger _).bind fun _ => ?_
  refine (transactions_of_outsideBloom (keeps_insertInvolved _)).bind fun _ => ?_
  refine (transactions_onLedger _).bind fun _ => ?_
  exact (transactions_record _).bind fun _ => .pure _

theorem transactions_finish (snapshot : Ledger) (counterMatched : Bool) (h : Handled) :
    Eff.Keeps (fun b b' : Block => b.transactions <+: b'.transactions)
      (finish t transactionHash snapshot counterMatched h c) := by
  have hroll : ∀ h, Eff.Keeps (fun b b' : Block => b.transactions <+: b'.transactions)
      (rollback snapshot h) := fun h => (transactions_onLedger _).bind fun _ => .pure _
  refine Eff.Keeps.bind (.ite (.pure _) (hroll h)) fun h' => Eff.Keeps.bind ?_ fun p => ?_
  · refine (transactions_of_outsideBloom (keeps_bloomInsert _)).bind fun _ => ?_
    refine Eff.Keeps.read.bind fun _ => (transactions_onLedger _).bind fun _ => ?_
    exact (Eff.Keeps.ofExcept _).bind fun _ => .pure _
  · exact Eff.Keeps.bind (.ite (.pure _) (hroll h')) fun h'' => transactions_conclude _ _ _

/-- However the application of a transaction ends, the block keeps the transactions it had. -/
theorem transactions_applyTxEffects (t : Transaction) (transactionHash : Bytes) (node : Node) :
    Eff.Keeps (fun b b' : Block => b.transactions <+: b'.transactions)
      (applyTxEffects t transactionHash node) := by
  refine Eff.Keeps.read.bind fun b => (transactions_onLedger _).bind fun g => ?_
  refine Eff.Keeps.read.bind fun b₀ => (transactions_onLedger _).bind fun h => ?_
  exact transactions_finish _ _ _

/-- Nothing leaves the block when a transaction is applied, also when this fails. -/
theorem transactions_subset {r : Except PyError Outcome}
    (hrun : applyTxEffects t transactionHash node b = (r, b')) :
    b.transactions ⊆ b'.transactions := by
  have hgrown := transactions_applyTxEffects t transactionHash node b
  have hblock : (applyTxEffects t transactionHash node b).2 = b' := congrArg Prod.snd hrun
  rw [hblock] at hgrown
  exact hgrown.subset

/-- A transaction that was applied is in the block. -/
theorem mem_transactions_of_applied (hrun : applyTxEffects t transactionHash node b = (.ok o, b')) :
    t ∈ b'.transactions := by
  obtain ⟨g, l₀, h, l₁, -, -, hf⟩ := applyTxEffects_eq_ok hrun
  obtain ⟨h₁, b₁, balance, priced, b₂, inserted, sender, -, -, -, -, hcase⟩ := finish_eq_ok hf
  rcases hcase with ⟨-, -, -, -, -, -, hc⟩ | ⟨-, hc⟩
  · rw [hc.transactions]
    exact List.mem_append_right _ (List.mem_singleton_self t)
  · rw [hc.transactions]
    exact List.mem_append_right _ (List.mem_singleton_self t)

end Included

section Worker

/-- `verify_signature`. -/
def Transaction.verifySignature (node : Node) (t : Transaction) : Bool :=
  decide (t.signature.length = 64) && decide (t.sender.length = 32) &&
    match node.hash? t.body with
    | .ok message => node.verify t.sender t.signature message
    | .error _ => false

/-- `_next_signed_transaction`: the first transaction with a valid signature, and what is left of
the queue. -/
def nextSignedTransaction (node : Node) : List Transaction → Option Transaction × List Transaction
  | [] => (none, [])
  | t :: queue =>
    if t.verifySignature node then (some t, queue) else nextSignedTransaction node queue

/-- Where the worker is in its loop. `parent` is the head that it read at the start of the pass,
`current` the transaction that it took last. -/
inductive WorkerPhase where
  | looking
  | drawn (parent : Bytes)
  | recording (parent : Bytes) (block : Block) (current : Option Transaction)
  | applying (parent : Bytes) (block : Block) (current : Option Transaction)
  | refilling (parent : Bytes) (block : Block)
  | sealing (parent : Bytes) (block : Block)

/-- The transactions that the build in hand holds. -/
def WorkerPhase.held : WorkerPhase → List Transaction
  | .looking => []
  | .drawn _ => []
  | .recording _ block current => block.transactions ++ current.toList
  | .applying _ block current => block.transactions ++ current.toList
  | .refilling _ block => block.transactions
  | .sealing _ block => block.transactions

/-- The queue, the head and the worker, with what it took so far, the blocks that it made the head
and the transactions whose application raised. -/
structure Worker where
  queue : List Transaction
  head : Bytes
  phase : WorkerPhase
  taken : List Transaction
  committed : List Block
  rejected : List Transaction

/-- `_next_signed_transaction` on the queue of the node. -/
def Worker.take (node : Node) (w : Worker) (phase : Option Transaction → WorkerPhase) : Worker :=
  let next := nextSignedTransaction node w.queue
  { w with queue := next.2, phase := phase next.1, taken := next.1.toList ++ w.taken }

/-- A step of the worker or of another thread. The worker gives a build up where that is
`allowed`. -/
inductive WorkerStep (node : Node) (allowed : Block → Option Transaction → Prop) (w : Worker) :
    Worker → Prop
  -- the other threads
  | enqueue (t : Transaction) : WorkerStep node allowed w { w with queue := w.queue ++ [t] }
  | moveHead (head : Bytes) : WorkerStep node allowed w { w with head := head }
  -- the pass up to the first transaction
  | draw (hphase : w.phase = .looking) :
      WorkerStep node allowed w { w with phase := .drawn w.head }
  | pass {parent : Bytes} (hphase : w.phase = .drawn parent) :
      WorkerStep node allowed w { w with phase := .looking }
  | start {parent : Bytes} {block : Block} (hphase : w.phase = .drawn parent)
      (hblock : block.transactions = []) :
      WorkerStep node allowed w (w.take node (.recording parent block))
  -- the record of the previous block
  | unrecorded {parent : Bytes} {block : Block} {current : Option Transaction}
      (hphase : w.phase = .recording parent block current) (hallowed : allowed block current) :
      WorkerStep node allowed w { w with phase := .looking }
  | recorded {parent : Bytes} {block block' : Block} {current : Option Transaction}
      (hphase : w.phase = .recording parent block current)
      (hblock : block'.transactions = block.transactions) :
      WorkerStep node allowed w { w with phase := .applying parent block' current }
  -- the transactions
  | applied {parent : Bytes} {block block' : Block} {t : Transaction} {o : Outcome}
      (hphase : w.phase = .applying parent block (some t))
      (happly : applyTransactionObj node t block = (.ok o, block')) :
      WorkerStep node allowed w { w with phase := .refilling parent block' }
  | unsupported {parent : Bytes} {block block' : Block} {t : Transaction}
      (hphase : w.phase = .applying parent block (some t))
      (happly : applyTransactionObj node t block = (.error .runtimeError, block')) :
      WorkerStep node allowed w
        { w with queue := w.queue ++ [t], phase := .sealing parent block' }
  | failed {parent : Bytes} {block block' : Block} {t : Transaction} {e : PyError}
      (hphase : w.phase = .applying parent block (some t))
      (happly : applyTransactionObj node t block = (.error e, block')) (he : e.isException) :
      WorkerStep node allowed w
        { w with phase := .refilling parent block', rejected := t :: w.rejected }
  | refill {parent : Bytes} {block : Block} (hphase : w.phase = .refilling parent block) :
      WorkerStep node allowed w (w.take node (.applying parent block))
  | full {parent : Bytes} {block : Block} (hphase : w.phase = .applying parent block none) :
      WorkerStep node allowed w { w with phase := .sealing parent block }
  -- the nonce, the slot and the head
  | noNonce {parent : Bytes} {block : Block} (hphase : w.phase = .sealing parent block)
      (hallowed : allowed block none) : WorkerStep node allowed w { w with phase := .looking }
  | late {parent : Bytes} {block : Block} (hphase : w.phase = .sealing parent block)
      (hallowed : allowed block none) : WorkerStep node allowed w { w with phase := .looking }
  | dropped {parent : Bytes} {block : Block} (hphase : w.phase = .sealing parent block)
      (hhead : w.head ≠ parent) (hallowed : allowed block none) :
      WorkerStep node allowed w { w with phase := .looking }
  | commit {parent blockHash : Bytes} {block : Block} (hphase : w.phase = .sealing parent block)
      (hhead : w.head = parent) :
      WorkerStep node allowed w
        { w with phase := .looking, head := blockHash, committed := block :: w.committed }

/-- The runs of a worker, from a queue without transactions. -/
inductive WorkerRun (node : Node) (allowed : Block → Option Transaction → Prop) : Worker → Prop
  | start (head : Bytes) : WorkerRun node allowed ⟨[], head, .looking, [], [], []⟩
  | step {w w' : Worker} (hrun : WorkerRun node allowed w) (hstep : WorkerStep node allowed w w') :
      WorkerRun node allowed w'

/-- Every transaction that was taken is in a block that was made the head, in the queue again, was
rejected, or is held by the build in hand. -/
def Worker.Accounted (w : Worker) : Prop :=
  ∀ t ∈ w.taken, (∃ b ∈ w.committed, t ∈ b.transactions) ∨ t ∈ w.queue ∨ t ∈ w.rejected ∨
    t ∈ w.phase.held

/-- A build that holds no transaction. -/
def HoldsNone (block : Block) (current : Option Transaction) : Prop :=
  block.transactions = [] ∧ current = none

variable {node : Node} {allowed : Block → Option Transaction → Prop} {w w' : Worker}

/-- What `_next_signed_transaction` does to a queue: what it drops has no valid signature. -/
theorem nextSignedTransaction_spec (queue : List Transaction) :
    (∀ t ∈ (nextSignedTransaction node queue).1, t.verifySignature node) ∧
      ∀ t ∈ queue, t.verifySignature node → t ∈ (nextSignedTransaction node queue).1 ∨
        t ∈ (nextSignedTransaction node queue).2 := by
  induction queue with
  | nil => exact ⟨fun _ h => (by cases h), fun _ h => absurd h List.not_mem_nil⟩
  | cons t' queue ih =>
    rw [nextSignedTransaction]
    split
    · rename_i hvalid
      refine ⟨fun t ht => ?_, fun t ht _ => ?_⟩
      · rwa [← Option.some.inj ht]
      · rcases List.mem_cons.mp ht with rfl | ht
        · exact .inl rfl
        · exact .inr ht
    · rename_i hinvalid
      refine ⟨ih.1, fun t ht hvalid => ?_⟩
      rcases List.mem_cons.mp ht with rfl | ht
      · exact absurd hvalid hinvalid
      · exact ih.2 t ht hvalid

/-- Only transactions with a valid signature are taken, and each is accounted for. -/
structure Worker.Sound (node : Node) (w : Worker) : Prop where
  valid : ∀ t ∈ w.taken, t.verifySignature node
  accounted : w.Accounted

theorem Worker.Sound.take (h : w.Sound node) {phase : Option Transaction → WorkerPhase}
    (hphase : ∀ current, (phase current).held = w.phase.held ++ current.toList) :
    (w.take node phase).Sound node := by
  obtain ⟨hnext, hqueue⟩ := @nextSignedTransaction_spec node w.queue
  have hheld : ∀ t, t ∈ (nextSignedTransaction node w.queue).1 →
      t ∈ (phase (nextSignedTransaction node w.queue).1).held := by
    intro t ht
    rw [hphase]
    exact List.mem_append_right _ (Option.mem_toList.mpr ht)
  refine ⟨fun t ht => ?_, fun t ht => ?_⟩
  · rcases List.mem_append.mp ht with ht | ht
    · exact hnext t (Option.mem_toList.mp ht)
    · exact h.valid t ht
  · rcases List.mem_append.mp ht with ht | ht
    · exact .inr (.inr (.inr (hheld t (Option.mem_toList.mp ht))))
    · rcases h.accounted t ht with hin | hin | hin | hin
      · exact .inl hin
      · rcases hqueue t hin (h.valid t ht) with hnow | hrest
        · exact .inr (.inr (.inr (hheld t hnow)))
        · exact .inr (.inl hrest)
      · exact .inr (.inr (.inl hin))
      · refine .inr (.inr (.inr ?_))
        change t ∈ (phase _).held
        rw [hphase]
        exact List.mem_append_left _ hin

/-- A step that drops nothing of what was held. -/
theorem Worker.Sound.moved (h : w.Sound node) (htaken : w'.taken = w.taken)
    (hcommitted : w.committed ⊆ w'.committed) (hqueue : w.queue ⊆ w'.queue)
    (hrejected : w.rejected ⊆ w'.rejected)
    (hheld : ∀ t ∈ w.phase.held, (∃ b ∈ w'.committed, t ∈ b.transactions) ∨ t ∈ w'.queue ∨
      t ∈ w'.rejected ∨ t ∈ w'.phase.held) : w'.Sound node := by
  refine ⟨fun t ht => h.valid t (htaken ▸ ht), fun t ht => ?_⟩
  rcases h.accounted t (htaken ▸ ht) with ⟨b, hb, hin⟩ | hin | hin | hin
  · exact .inl ⟨b, hcommitted hb, hin⟩
  · exact .inr (.inl (hqueue hin))
  · exact .inr (.inr (.inl (hrejected hin)))
  · exact hheld t hin

/-- A build that held no transaction is given up. -/
theorem Worker.Sound.abandoned (h : w.Sound node) (hheld : w.phase.held = []) :
    Worker.Sound node { w with phase := .looking } := by
  refine h.moved rfl (List.Subset.refl _) (List.Subset.refl _) (List.Subset.refl _) fun t ht => ?_
  rw [hheld] at ht
  cases ht

theorem Worker.Sound.rephased (h : w.Sound node) {phase : WorkerPhase}
    (hphase : w.phase.held ⊆ phase.held) : Worker.Sound node { w with phase := phase } :=
  h.moved rfl (List.Subset.refl _) (List.Subset.refl _) (List.Subset.refl _)
    fun _ ht => .inr (.inr (.inr (hphase ht)))

/-- What a step preserves. -/
theorem WorkerStep.sound (hstep : WorkerStep node HoldsNone w w') (h : w.Sound node) :
    w'.Sound node := by
  cases hstep with
  | enqueue t =>
    exact h.moved rfl (List.Subset.refl _) (List.subset_append_left _ _) (List.Subset.refl _)
      fun _ ht => .inr (.inr (.inr ht))
  | moveHead head =>
    exact h.moved rfl (List.Subset.refl _) (List.Subset.refl _) (List.Subset.refl _)
      fun _ ht => .inr (.inr (.inr ht))
  | draw hphase => exact h.rephased (by rw [hphase]; exact List.Subset.refl _)
  | pass hphase => exact h.rephased (by rw [hphase]; exact List.Subset.refl _)
  | @start parent block hphase hblock =>
    refine h.take fun current => ?_
    change block.transactions ++ current.toList = _
    rw [hphase, WorkerPhase.held, hblock]
  | unrecorded hphase hallowed =>
    refine h.abandoned ?_
    rw [hphase, WorkerPhase.held, hallowed.1, hallowed.2]
    rfl
  | recorded hphase hblock =>
    refine h.rephased ?_
    rw [hphase, WorkerPhase.held, WorkerPhase.held, hblock]
    exact List.Subset.refl _
  | @applied parent block block' t o hphase happly =>
    refine h.rephased fun t' ht' => ?_
    rw [hphase] at ht'
    rcases List.mem_append.mp ht' with ht' | ht'
    · exact transactions_subset happly ht'
    · obtain rfl : t' = t := by simpa using ht'
      exact mem_transactions_of_applied happly
  | @unsupported parent block block' t hphase happly =>
    have hgrown := transactions_subset happly
    refine h.moved rfl (List.Subset.refl _) (List.subset_append_left _ _) (List.Subset.refl _)
      fun t' ht' => ?_
    rw [hphase] at ht'
    rcases List.mem_append.mp ht' with ht' | ht'
    · exact .inr (.inr (.inr (hgrown ht')))
    · obtain rfl : t' = t := by simpa using ht'
      exact .inr (.inl (List.mem_append_right _ (List.mem_singleton_self _)))
  | @failed parent block block' t e hphase happly he =>
    have hgrown := transactions_subset happly
    refine h.moved rfl (List.Subset.refl _) (List.Subset.refl _) (List.subset_cons_self _ _)
      fun t' ht' => ?_
    rw [hphase] at ht'
    rcases List.mem_append.mp ht' with ht' | ht'
    · exact .inr (.inr (.inr (hgrown ht')))
    · obtain rfl : t' = t := by simpa using ht'
      exact .inr (.inr (.inl List.mem_cons_self))
  | refill hphase =>
    refine h.take fun current => ?_
    rw [hphase]
    rfl
  | full hphase =>
    refine h.rephased fun t ht => ?_
    rw [hphase] at ht
    simpa [WorkerPhase.held] using ht
  | noNonce hphase hallowed => exact h.abandoned (by rw [hphase]; exact hallowed.1)
  | late hphase hallowed => exact h.abandoned (by rw [hphase]; exact hallowed.1)
  | dropped hphase _ hallowed => exact h.abandoned (by rw [hphase]; exact hallowed.1)
  | @commit parent blockHash block hphase hhead =>
    refine h.moved rfl (List.subset_cons_self _ _) (List.Subset.refl _) (List.Subset.refl _)
      fun t ht => .inl ⟨block, List.mem_cons_self, ?_⟩
    rw [hphase] at ht
    exact ht

/-- The worker has no build in hand and looks at the queue next. -/
def WorkerPhase.BetweenBuilds : WorkerPhase → Prop
  | .looking => True
  | .drawn _ => True
  | _ => False

theorem WorkerPhase.BetweenBuilds.held {phase : WorkerPhase} (h : phase.BetweenBuilds) :
    phase.held = [] := by
  cases phase with
  | looking => rfl
  | drawn parent => rfl
  | _ => exact absurd h id

/-- Where no build is given up that holds a transaction, no transaction is lost: each that was taken
is in a block that was made the head, in the queue again or rejected, or the build in hand holds it,
which is no case between two builds. -/
theorem no_queued_transaction_lost (hrun : WorkerRun node HoldsNone w) :
    w.Accounted ∧ (w.phase.BetweenBuilds → ∀ t ∈ w.taken,
      (∃ b ∈ w.committed, t ∈ b.transactions) ∨ t ∈ w.queue ∨ t ∈ w.rejected) := by
  have hsound : w.Sound node := by
    induction hrun with
    | start head =>
      exact ⟨fun _ h => absurd h List.not_mem_nil, fun _ h => absurd h List.not_mem_nil⟩
    | step _ hstep ih => exact hstep.sound ih
  refine ⟨hsound.accounted, fun hbetween t ht => ?_⟩
  rcases hsound.accounted t ht with hin | hin | hin | hin
  · exact .inl hin
  · exact .inr (.inl hin)
  · exact .inr (.inr hin)
  · rw [hbetween.held] at hin
    cases hin

/-- A transfer of nothing from Alice to Bob, signed. -/
def signedTransfer : Transaction :=
  { aliceSends .transfer bobAddress 0 with signature := List.replicate 64 1 }

/-- The block of Alice with the transfer applied. -/
def transferBlock : Block := (applyTransactionObj bareNode signedTransfer (aliceBlock 9)).2

/-- The worker takes the transfer and applies it. -/
theorem run_signedTransfer :
    WorkerRun bareNode allowed
      ⟨[], zero32, .sealing zero32 transferBlock, [signedTransfer], [], []⟩ := by
  have hnext : nextSignedTransaction bareNode [signedTransfer] = (some signedTransfer, []) := by
    decide
  have happly : (applyTransactionObj bareNode signedTransfer (aliceBlock 9)).1.isOk = true := by
    decide +kernel
  obtain ⟨o, happly⟩ : ∃ o, applyTransactionObj bareNode signedTransfer (aliceBlock 9) =
      (.ok o, transferBlock) := by
    rcases hrun : applyTransactionObj bareNode signedTransfer (aliceBlock 9) with ⟨e | o, b⟩
    · rw [hrun] at happly
      cases happly
    · exact ⟨o, by rw [transferBlock, hrun]⟩
  have hqueued : WorkerRun bareNode allowed ⟨[signedTransfer], zero32, .drawn zero32, [], [], []⟩ :=
    .step (.step (.start zero32) (.enqueue signedTransfer)) (.draw rfl)
  have htaken : WorkerRun bareNode allowed
      ⟨[], zero32, .recording zero32 (aliceBlock 9) (some signedTransfer), [signedTransfer], [],
        []⟩ := by
    have hstart : WorkerStep bareNode allowed
        ⟨[signedTransfer], zero32, .drawn zero32, [], [], []⟩
        (Worker.take bareNode ⟨[signedTransfer], zero32, .drawn zero32, [], [], []⟩
          (.recording zero32 (aliceBlock 9))) := .start rfl rfl
    rw [Worker.take, hnext] at hstart
    exact hqueued.step hstart
  exact .step (.step (.step (.step htaken (.recorded rfl rfl)) (.applied rfl happly)) (.refill rfl))
    (.full rfl)

/-- The transfer is lost when another block becomes the head. -/
theorem dropped_block_loses_transaction :
    ∃ w, WorkerRun bareNode (fun _ _ => True) w ∧ w.phase.BetweenBuilds ∧ signedTransfer ∈ w.taken ∧
      w.committed = [] ∧ w.queue = [] ∧ w.rejected = [] := by
  have hmoved : WorkerRun bareNode (fun _ _ => True) ⟨[], List.replicate 32 1,
      .sealing zero32 transferBlock, [signedTransfer], [], []⟩ :=
    run_signedTransfer.step (.moveHead _)
  exact ⟨_, hmoved.step (.dropped rfl (by decide) trivial), trivial, List.mem_cons_self, rfl, rfl,
    rfl⟩

/-- In a block that becomes the head the transfer is not lost. -/
theorem committed_transaction_is_kept :
    ∃ w, WorkerRun bareNode HoldsNone w ∧ signedTransfer ∈ w.taken ∧
      ((∃ b ∈ w.committed, signedTransfer ∈ b.transactions) ∨ signedTransfer ∈ w.queue ∨
        signedTransfer ∈ w.rejected) := by
  have hrun : WorkerRun bareNode HoldsNone
      ⟨[], List.replicate 32 2, .looking, [signedTransfer], [transferBlock], []⟩ :=
    run_signedTransfer.step (.commit rfl rfl)
  exact ⟨_, hrun, List.mem_cons_self,
    (no_queued_transaction_lost hrun).2 trivial signedTransfer List.mem_cons_self⟩

end Worker

end Astreum
