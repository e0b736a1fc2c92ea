import Astreum.Operators
import Astreum.StorageContract

namespace Astreum

/-- `NONCE_SIZE`. -/
def nonceSize : Nat := 8

/-- `INCOMING_QUEUE_ITEM_OVERHEAD_BYTES`. -/
def incomingQueueItemOverheadBytes : Nat := 6

/-- The pressures of `message_difficulty`, each with the difficulty below it. -/
def difficultySteps : List (Rat × Nat) :=
  [(70 / 100, 1), (75 / 100, 3), (80 / 100, 5), (85 / 100, 8), (90 / 100, 12), (93 / 100, 16),
    (95 / 100, 19), (97 / 100, 22), (98 / 100, 24)]

/-- `message_difficulty`. -/
def messageDifficulty (size limit : Int) : Nat :=
  if limit ≤ 0 then 1
  else
    let pressure := Double.round binary64 (size / limit : Rat)
    let value := match difficultySteps.find? fun step =>
        pressure.lt (Double.round binary64 step.1) with
      | some step => step.2
      | none => 26
    max 1 (min 255 value)

/-- An item of `node.incoming_queue`. -/
structure QueueItem where
  message : Bytes
  address : String × Int
  accountedSize : Nat
  packetSize : Nat

def queueItem (address : String × Int) (payload : Bytes) : QueueItem where
  message := payload.drop nonceSize
  address := address
  accountedSize := payload.length + incomingQueueItemOverheadBytes
  packetSize := payload.length

/-- The receiving thread: between two datagrams, past the difficulty check of `enqueue_incoming`,
waiting for space, or about to put an item whose size is added. -/
inductive Receiver where
  | listening
  | received (address : String × Int) (payload : Bytes)
  | waiting (address : String × Int) (payload : Bytes)
  | accounted (item : QueueItem)

/-- The processing thread. -/
inductive Processor where
  | ready
  | holding (item : QueueItem)
  | ended

/-- What the two threads share, and where they are. -/
structure IncomingQueue where
  size : Int
  queue : List QueueItem
  stopped : Bool
  receiver : Receiver
  processor : Processor

/-- `Message.from_bytes`, the frame of a message. -/
structure MessageFrame where
  handshake : Bool
  senderPublicKeyBytes : Bytes
  payload : Bytes

def MessageFrame.fromBytes (data : Bytes) : Py MessageFrame :=
  if data.length < 33 then .error .valueError
  else if data.head? = some 1 then .ok ⟨true, (data.drop 1).take 32, data.drop 33⟩
  else if data.length ≤ 33 then .error .valueError
  else .ok ⟨false, (data.drop 1).take 32, data.drop 33⟩

/-- What the calls give that the processing of an item makes: `handle_handshake`, whether `get_peer`
has a peer for the sender, whether `decrypt` returns and whether the handler of the topic does. -/
structure Answers where
  handleHandshake : Py Bool
  knowsPeer : Bool
  decrypts : Bool
  handles : Bool

/-- The processing of an item: whether the stop event was set when it was taken, and what the calls
gave. -/
structure Pass where
  stopped : Bool
  item : QueueItem
  answers : Answers

/-- The ways out of the loop body of `process_incoming_messages`, once an item is taken. -/
inductive Exit where
  | shutdown
  | undecodable
  | handshake
  | handshakeRaised
  | unknownPeer
  | undecryptable
  | dispatched
  | dispatchRaised
  deriving DecidableEq

namespace Pass

/-- The part of the loop body behind the handshakes. -/
def dispatch (answers : Answers) (frame : MessageFrame) : Exit :=
  if !answers.knowsPeer then .unknownPeer
  else if !(frame.handshake || answers.decrypts) then .undecryptable
  else if answers.handles then .dispatched
  else .dispatchRaised

/-- The way a pass leaves the loop body. -/
def exit (pass : Pass) : Exit :=
  if pass.stopped then .shutdown
  else match MessageFrame.fromBytes pass.item.message with
    | .error _ => .undecodable
    | .ok frame =>
      if frame.handshake then
        match pass.answers.handleHandshake with
        | .error _ => .handshakeRaised
        | .ok true => .handshake
        | .ok false => dispatch pass.answers frame
      else dispatch pass.answers frame

/-- The pass gets to the `try` whose `finally` takes the size back, or is the one that ends the
loop. -/
def Dispatches (pass : Pass) : Prop :=
  pass.stopped = true ∨ ∃ frame, MessageFrame.fromBytes pass.item.message = .ok frame ∧
    (frame.handshake = true → pass.answers.handleHandshake = .ok false) ∧
    pass.answers.knowsPeer = true ∧ (frame.handshake = true ∨ pass.answers.decrypts = true)

end Pass

/-- The exits on which the size is taken back. -/
def Exit.releases : Exit → Bool
  | .shutdown => true
  | .dispatched => true
  | .dispatchRaised => true
  | _ => false

/-- The exits that leave the loop. -/
def Exit.ends : Exit → Bool
  | .shutdown => true
  | .handshakeRaised => true
  | .dispatchRaised => true
  | _ => false

namespace IncomingQueue

/-- The section of `enqueue_incoming` under the lock, where `full` is what comes of a datagram that
does not fit. -/
def account (limit : Nat) (full : Receiver) (address : String × Int) (payload : Bytes)
    (q : IncomingQueue) : IncomingQueue :=
  let item := queueItem address payload
  if (limit : Int) < q.size + item.accountedSize then { q with receiver := full }
  else { q with size := q.size + item.accountedSize, receiver := .accounted item }

/-- `max(0, size - accounted_size)`. -/
def release (item : QueueItem) (q : IncomingQueue) : IncomingQueue :=
  { q with size := max 0 (q.size - item.accountedSize) }

/-- The end of a pass. -/
def finish (pass : Pass) (q : IncomingQueue) : IncomingQueue :=
  let q := if pass.exit.releases then q.release pass.item else q
  { q with processor := if pass.exit.ends then .ended else .ready }

end IncomingQueue

section Runs

variable (blake3 : Bytes → Bytes) (limit : Nat) (timeout : Rat)

/-- The checks of `enqueue_incoming` before it takes the lock. -/
def passesDifficulty (size : Int) (payload : Bytes) : Bool :=
  decide (nonceSize < payload.length) &&
    decide (messageDifficulty size limit ≤
      leadingZeroBits (blake3 (payload.drop nonceSize ++ payload.take nonceSize)))

/-- One step of one of the two threads, with the pass that it ends. -/
inductive QueueStep (q : IncomingQueue) : Option Pass → IncomingQueue → Prop
  | receive {address : String × Int} {payload : Bytes} (hat : q.receiver = .listening)
      (hpasses : passesDifficulty blake3 limit q.size payload = true) :
      QueueStep q none { q with receiver := .received address payload }
  | account {address : String × Int} {payload : Bytes}
      (hat : q.receiver = .received address payload) :
      QueueStep q none
        (q.account limit (if timeout ≤ 0 then .listening else .waiting address payload) address
          payload)
  | waitOver {address : String × Int} {payload : Bytes}
      (hat : q.receiver = .waiting address payload) :
      QueueStep q none (q.account limit .listening address payload)
  | waitStopped {address : String × Int} {payload : Bytes}
      (hat : q.receiver = .waiting address payload) (hstopped : q.stopped = true) :
      QueueStep q none { q with receiver := .listening }
  | put {item : QueueItem} (hat : q.receiver = .accounted item) :
      QueueStep q none { q with queue := q.queue ++ [item], receiver := .listening }
  | putFails {item : QueueItem} (hat : q.receiver = .accounted item) :
      QueueStep q none { q.release item with receiver := .listening }
  | take {item : QueueItem} {rest : List QueueItem} (hat : q.processor = .ready)
      (hqueue : q.queue = item :: rest) :
      QueueStep q none { q with queue := rest, processor := .holding item }
  | finish {pass : Pass} (hat : q.processor = .holding pass.item)
      (hstopped : pass.stopped = true → q.stopped = true) :
      QueueStep q (some pass) (q.finish pass)
  | stop : QueueStep q none { q with stopped := true }

/-- The runs of a node from its start, with the passes that ended. -/
inductive QueueRun : IncomingQueue → List Pass → Prop
  | start : QueueRun ⟨0, [], false, .listening, .ready⟩ []
  | step {q q' : IncomingQueue} {passes : List Pass} {pass : Option Pass}
      (hrun : QueueRun q passes) (hstep : QueueStep blake3 limit timeout q pass q') :
      QueueRun q' (pass.toList ++ passes)

end Runs

def Receiver.items : Receiver → List QueueItem
  | .accounted item => [item]
  | _ => []

def Processor.items : Processor → List QueueItem
  | .holding item => [item]
  | _ => []

/-- The datagrams that are queued, from when their size was added, or being processed. -/
def IncomingQueue.pending (q : IncomingQueue) : List QueueItem :=
  q.receiver.items ++ q.queue ++ q.processor.items

def accountedTotal (items : List QueueItem) : Int :=
  (items.map fun item => (item.accountedSize : Int)).sum

/-- The size is the one of the datagrams that are queued or being processed. -/
structure Accounted (limit : Nat) (q : IncomingQueue) : Prop where
  size : q.size = accountedTotal q.pending
  nonneg : 0 ≤ q.size
  bounded : q.size ≤ limit
  empty : q.pending = [] → q.size = 0 ∧ messageDifficulty q.size limit = 1

/-- The sizes that were not taken back. -/
def leaked (passes : List Pass) : Int :=
  accountedTotal ((passes.filter fun pass => !pass.exit.releases).map Pass.item)

/-- What holds in every run, whatever is lost. -/
structure Balanced (limit : Nat) (q : IncomingQueue) (passes : List Pass) : Prop where
  size : q.size = accountedTotal q.pending + leaked passes
  bounded : q.size ≤ limit
  positive : ∀ item ∈ q.pending, 0 < item.accountedSize
  passed : ∀ pass ∈ passes, 0 < pass.item.accountedSize

section Balance

variable {blake3 : Bytes → Bytes} {limit : Nat} {timeout : Rat} {q q' : IncomingQueue}
  {passes : List Pass}

@[simp] theorem accountedTotal_nil : accountedTotal [] = 0 := rfl

@[simp] theorem accountedTotal_cons (item : QueueItem) (items : List QueueItem) :
    accountedTotal (item :: items) = item.accountedSize + accountedTotal items := rfl

@[simp] theorem accountedTotal_append (items items' : List QueueItem) :
    accountedTotal (items ++ items') = accountedTotal items + accountedTotal items' := by
  simp [accountedTotal]

theorem accountedTotal_nonneg (items : List QueueItem) : 0 ≤ accountedTotal items := by
  induction items with
  | nil => exact le_refl 0
  | cons item items ih =>
    rw [accountedTotal_cons]
    omega

theorem leaked_nonneg (passes : List Pass) : 0 ≤ leaked passes := accountedTotal_nonneg _

theorem leaked_cons (pass : Pass) (passes : List Pass) :
    leaked (pass :: passes) =
      (if pass.exit.releases then 0 else (pass.item.accountedSize : Int)) + leaked passes := by
  rw [leaked, List.filter_cons]
  by_cases hreleases : pass.exit.releases = true
  · simp [hreleases, leaked]
  · simp [hreleases, leaked]

/-- Nothing has leaked exactly when every pass gave its size back. -/
theorem leaked_eq_zero (hpassed : ∀ pass ∈ passes, 0 < pass.item.accountedSize) :
    leaked passes = 0 ↔ ∀ pass ∈ passes, pass.exit.releases = true := by
  induction passes with
  | nil => simp [leaked]
  | cons pass passes ih =>
    obtain ⟨hpass, hpasses⟩ := List.forall_mem_cons.mp hpassed
    have hnonneg := leaked_nonneg passes
    rw [leaked_cons, List.forall_mem_cons, ← ih hpasses]
    by_cases hreleases : pass.exit.releases = true
    · rw [if_pos hreleases, zero_add, and_iff_right hreleases]
    · rw [if_neg hreleases]
      constructor
      · intro hzero
        omega
      · rintro ⟨hyes, -⟩
        exact absurd hyes hreleases

/-- An exit gives the size back exactly when the pass got to the dispatch. -/
theorem Pass.releases_iff (pass : Pass) : pass.exit.releases = true ↔ pass.Dispatches := by
  have hdispatch : ∀ frame, (Pass.dispatch pass.answers frame).releases = true ↔
      pass.answers.knowsPeer = true ∧ (frame.handshake = true ∨ pass.answers.decrypts = true) := by
    intro frame
    rw [Pass.dispatch]
    cases pass.answers.knowsPeer <;> cases frame.handshake <;> cases pass.answers.decrypts <;>
      cases pass.answers.handles <;> simp [Exit.releases]
  rw [Pass.exit, Pass.Dispatches]
  by_cases hstopped : pass.stopped = true
  · simp [hstopped, Exit.releases]
  · rw [if_neg hstopped, or_iff_right hstopped]
    rcases MessageFrame.fromBytes pass.item.message with err | frame
    · simp [Exit.releases]
    · simp only [Except.ok.injEq, exists_eq_left']
      by_cases hhandshake : frame.handshake = true
      · rw [if_pos hhandshake]
        rcases pass.answers.handleHandshake with err | handled
        · simp [Exit.releases, hhandshake]
        · cases handled
          · rw [hdispatch frame]
            simp
          · simp [Exit.releases, hhandshake]
      · rw [if_neg hhandshake, hdispatch frame]
        simp [hhandshake]

theorem Balanced.account {full : Receiver} {address : String × Int} {payload : Bytes}
    (h : Balanced limit q passes) (hold : q.receiver.items = []) (hfull : full.items = []) :
    Balanced limit (q.account limit full address payload) passes := by
  obtain ⟨hsize, hbounded, hpositive, hpassed⟩ := h
  simp only [IncomingQueue.pending, hold, List.nil_append] at hsize hpositive
  rw [IncomingQueue.account]
  by_cases hlimit : (limit : Int) < q.size + (queueItem address payload).accountedSize
  · rw [if_pos hlimit]
    exact ⟨by simpa [IncomingQueue.pending, hfull] using hsize, hbounded,
      by simpa [IncomingQueue.pending, hfull] using hpositive, hpassed⟩
  · rw [if_neg hlimit]
    refine ⟨?_, not_lt.mp hlimit, ?_, hpassed⟩
    · simp only [IncomingQueue.pending, Receiver.items, List.cons_append, List.nil_append,
        accountedTotal_cons]
      omega
    · intro item hitem
      rcases List.mem_cons.mp hitem with rfl | hitem
      · exact Nat.succ_pos _
      · exact hpositive item hitem

theorem Balanced.step {pass : Option Pass} (h : Balanced limit q passes)
    (hstep : QueueStep blake3 limit timeout q pass q') :
    Balanced limit q' (pass.toList ++ passes) := by
  obtain ⟨hsize, hbounded, hpositive, hpassed⟩ := h
  have hleaked := leaked_nonneg passes
  cases hstep with
  | receive hat hpasses =>
    rw [IncomingQueue.pending, hat] at hsize hpositive
    exact ⟨hsize, hbounded, hpositive, hpassed⟩
  | account hat =>
    refine Balanced.account ⟨hsize, hbounded, hpositive, hpassed⟩ (by rw [hat]; rfl) ?_
    split <;> rfl
  | waitOver hat =>
    exact Balanced.account ⟨hsize, hbounded, hpositive, hpassed⟩ (by rw [hat]; rfl) rfl
  | waitStopped hat hstopped =>
    rw [IncomingQueue.pending, hat] at hsize hpositive
    exact ⟨hsize, hbounded, hpositive, hpassed⟩
  | put hat =>
    simp only [IncomingQueue.pending, hat, Receiver.items, accountedTotal_append,
      accountedTotal_cons, accountedTotal_nil] at hsize
    refine ⟨?_, hbounded, fun item hitem => hpositive item ?_, hpassed⟩
    · simp only [IncomingQueue.pending, Receiver.items, accountedTotal_append,
        accountedTotal_cons, accountedTotal_nil, Option.toList_none, List.nil_append]
      omega
    · simp only [IncomingQueue.pending, Receiver.items, List.nil_append, List.mem_append,
        List.mem_singleton] at hitem
      simp only [IncomingQueue.pending, hat, Receiver.items, List.mem_append, List.mem_singleton]
      tauto
  | putFails hat =>
    simp only [IncomingQueue.pending, hat, Receiver.items, accountedTotal_append,
      accountedTotal_cons, accountedTotal_nil] at hsize
    have hqueue := accountedTotal_nonneg q.queue
    have hprocessor := accountedTotal_nonneg q.processor.items
    refine ⟨?_, ?_, fun item hitem => hpositive item ?_, hpassed⟩
    · simp only [IncomingQueue.release, IncomingQueue.pending, Receiver.items,
        accountedTotal_append, Option.toList_none, List.nil_append]
      omega
    · simp only [IncomingQueue.release]
      omega
    · simp only [IncomingQueue.release, IncomingQueue.pending, Receiver.items, List.nil_append,
        List.mem_append] at hitem
      simp only [IncomingQueue.pending, List.mem_append]
      tauto
  | take hat hqueue =>
    simp only [IncomingQueue.pending, hat, hqueue, Processor.items, accountedTotal_append,
      accountedTotal_cons, accountedTotal_nil] at hsize
    refine ⟨?_, hbounded, fun item hitem => hpositive item ?_, hpassed⟩
    · simp only [IncomingQueue.pending, Processor.items, accountedTotal_append,
        accountedTotal_cons, accountedTotal_nil, Option.toList_none, List.nil_append]
      omega
    · simp only [IncomingQueue.pending, Processor.items, List.mem_append,
        List.mem_singleton] at hitem
      simp only [IncomingQueue.pending, hqueue, List.mem_append, List.mem_cons]
      tauto
  | @finish pass hat hstopped =>
    have hitem : 0 < pass.item.accountedSize := by
      refine hpositive pass.item ?_
      simp [IncomingQueue.pending, hat, Processor.items]
    simp only [IncomingQueue.pending, hat, Processor.items, accountedTotal_append,
      accountedTotal_cons, accountedTotal_nil] at hsize
    have hreceiver := accountedTotal_nonneg q.receiver.items
    have hqueue := accountedTotal_nonneg q.queue
    have hpending : (q.finish pass).pending = q.receiver.items ++ q.queue := by
      rw [IncomingQueue.finish, IncomingQueue.pending]
      by_cases hreleases : pass.exit.releases = true <;>
        by_cases hends : pass.exit.ends = true <;>
          simp [hreleases, hends, IncomingQueue.release, Processor.items]
    have hfinish : (q.finish pass).size =
        if pass.exit.releases then max 0 (q.size - pass.item.accountedSize) else q.size := by
      rw [IncomingQueue.finish]
      by_cases hreleases : pass.exit.releases = true <;> simp [hreleases, IncomingQueue.release]
    refine ⟨?_, ?_, ?_, List.forall_mem_cons.mpr ⟨hitem, hpassed⟩⟩
    · rw [hpending, hfinish, Option.toList_some, List.singleton_append, leaked_cons,
        accountedTotal_append]
      by_cases hreleases : pass.exit.releases = true
      · rw [if_pos hreleases, if_pos hreleases]
        omega
      · rw [if_neg hreleases, if_neg hreleases]
        omega
    · rw [hfinish]
      by_cases hreleases : pass.exit.releases = true
      · rw [if_pos hreleases]
        omega
      · rwa [if_neg hreleases]
    · rw [hpending]
      intro item hmem
      exact hpositive item (List.mem_append_left _ hmem)
  | stop => exact ⟨hsize, hbounded, hpositive, hpassed⟩

theorem QueueRun.balanced (h : QueueRun blake3 limit timeout q passes) :
    Balanced limit q passes := by
  induction h with
  | start =>
    refine ⟨rfl, Int.natCast_nonneg limit, ?_, ?_⟩
    · intro item hitem
      cases hitem
    · intro pass hpass
      cases hpass
  | step hrun hstep ih => exact ih.step hstep

theorem messageDifficulty_zero (limit : Int) : messageDifficulty 0 limit = 1 := by
  rw [messageDifficulty]
  by_cases hlimit : limit ≤ 0
  · exact if_pos hlimit
  · have hzero : ((0 : Int) / limit : Rat) = 0 := by simp
    rw [if_neg hlimit, hzero]
    decide +kernel

end Balance

/-- In every run the size stays within its bounds, and it is the one of the datagrams that are
queued or being processed exactly when every pass got to the dispatch of its message. -/
theorem queue_is_accounted_iff {blake3 : Bytes → Bytes} {limit : Nat} {timeout : Rat}
    {q : IncomingQueue} {passes : List Pass} (hrun : QueueRun blake3 limit timeout q passes) :
    0 ≤ q.size ∧ q.size ≤ limit ∧
      (Accounted limit q ↔ ∀ pass ∈ passes, pass.Dispatches) := by
  obtain ⟨hsize, hbounded, -, hpassed⟩ := hrun.balanced
  have hpending := accountedTotal_nonneg q.pending
  have hleaked := leaked_nonneg passes
  have hdispatches : leaked passes = 0 ↔ ∀ pass ∈ passes, pass.Dispatches := by
    rw [leaked_eq_zero hpassed]
    simp only [Pass.releases_iff]
  rw [← hdispatches]
  refine ⟨by omega, hbounded, fun h => ?_, fun h => ⟨by omega, by omega, hbounded, ?_⟩⟩
  · have := h.size
    omega
  · intro hempty
    have hzero : q.size = 0 := by
      rw [hsize, h, hempty]
      rfl
    rw [hzero]
    exact ⟨rfl, messageDifficulty_zero limit⟩

section Samples

def noDigest (_ : Bytes) : Bytes := [0]

/-- A datagram from one address, a message behind eight bytes of nonce. -/
def sampleItem (message : Bytes) : QueueItem :=
  queueItem ("10.0.0.1", 4000) (List.replicate 8 0 ++ message)

/-- One datagram is received, accounted, put and taken. -/
theorem run_taken (message : Bytes) (hne : message ≠ [])
    (hfits : (sampleItem message).accountedSize ≤ 1000) :
    QueueRun noDigest 1000 0
      ⟨(sampleItem message).accountedSize, [], false, .listening, .holding (sampleItem message)⟩
      [] := by
  have hpasses : passesDifficulty noDigest 1000 0 (List.replicate 8 0 ++ message) = true := by
    have hlength : 0 < message.length := List.length_pos_iff.mpr hne
    rw [passesDifficulty, messageDifficulty_zero]
    simp [nonceSize, noDigest, leadingZeroBits, hlength]
  have hstart : QueueRun noDigest 1000 0 ⟨0, [], false, .listening, .ready⟩ [] := .start
  have hreceived := hstart.step
    (@QueueStep.receive noDigest 1000 0 _ ("10.0.0.1", 4000) _ rfl hpasses)
  have haccounted := hreceived.step (@QueueStep.account noDigest 1000 0 _ _ _ rfl)
  have hroom : ¬((1000 : Nat) : Int) < 0 + (sampleItem message).accountedSize := by omega
  have hsize : IncomingQueue.account 1000 (if (0 : Rat) ≤ 0 then .listening else
      .waiting ("10.0.0.1", 4000) (List.replicate 8 0 ++ message)) ("10.0.0.1", 4000)
      (List.replicate 8 0 ++ message) ⟨0, [], false,
        .received ("10.0.0.1", 4000) (List.replicate 8 0 ++ message), .ready⟩ =
      ⟨(sampleItem message).accountedSize, [], false, .accounted (sampleItem message), .ready⟩ := by
    rw [IncomingQueue.account]
    exact (if_neg hroom).trans (by rw [zero_add]; rfl)
  rw [hsize] at haccounted
  have hput := haccounted.step (@QueueStep.put noDigest 1000 0 _ _ rfl)
  exact hput.step (@QueueStep.take noDigest 1000 0 _ (sampleItem message) [] rfl rfl)

/-- A message of one byte has no sender. -/
def shortPass : Pass := ⟨false, sampleItem [0], ⟨.ok true, true, true, true⟩⟩

/-- A frame from a known peer that decrypts. -/
def peerPass : Pass := ⟨false, sampleItem (List.replicate 34 0), ⟨.ok true, true, true, true⟩⟩

/-- A message that cannot be decoded leaves its size behind. -/
theorem undecodable_leaks : ¬∀ q passes, QueueRun noDigest 1000 0 q passes → Accounted 1000 q := by
  intro h
  have hrun := (run_taken [0] (by decide) (by decide)).step
    (@QueueStep.finish noDigest 1000 0 _ shortPass rfl nofun)
  have hsize := (h _ _ hrun).size
  revert hsize
  decide

/-- A message from a peer is processed and nothing is left. -/
theorem peer_message_is_accounted : ∃ q, QueueRun noDigest 1000 0 q [peerPass] ∧
    0 ≤ q.size ∧ q.size ≤ (1000 : Nat) ∧
    (Accounted 1000 q ↔ ∀ pass ∈ [peerPass], pass.Dispatches) := by
  have hrun := (run_taken (List.replicate 34 0) (by decide) (by decide)).step
    (@QueueStep.finish noDigest 1000 0 _ peerPass rfl nofun)
  exact ⟨_, hrun, queue_is_accounted_iff hrun⟩

end Samples

end Astreum
