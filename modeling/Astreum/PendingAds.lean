import Astreum.Python
import Mathlib.Data.List.Count
import Mathlib.Data.List.Induction

namespace Astreum.PendingAds

/-- The ids that a block committed, waiting for a block to be built on it. -/
structure PendingAd where
  height : Int
  blockHash : Bytes
  ids : List Bytes
  deriving DecidableEq

def maxPendingAds : Nat := 8

def maxPendingAdAge : Int := 4

/-- A block of a chain, with its hash where it has one. -/
structure ChainBlock where
  height : Int
  hash : Option Bytes

/-- `_hash_at_height` on a chain, from its head down as far as it can be followed. -/
def hashAtHeight : List ChainBlock → Int → Option Bytes
  | [], _ => none
  | block :: below, height =>
    if height < block.height then hashAtHeight below height
    else if block.height = height then block.hash
    else none

/-- What becomes of an entry in a flush. -/
inductive Verdict where
  | keep
  | ready
  | skipped
  | unplaced
  deriving DecidableEq

/-- The body of the loop of `flush_ads` for a head of the given height. -/
def judge (headHeight : Int) (chain : List ChainBlock) (entry : PendingAd) : Verdict :=
  if headHeight ≤ entry.height then .keep
  else match hashAtHeight chain entry.height with
    | some onChain => if onChain = entry.blockHash then .ready else .skipped
    | none => if headHeight - entry.height ≤ maxPendingAdAge then .keep else .unplaced

def judged (chain : List ChainBlock) (verdict : Verdict) (pending : List PendingAd) :
    List PendingAd :=
  match chain with
  | [] => if verdict = .keep then pending else []
  | head :: _ => pending.filter fun entry => judge head.height chain entry = verdict

/-- `deque.append` of a full deque drops its first item. -/
def overflow (pending : List PendingAd) : Nat := pending.length + 1 - maxPendingAds

/-- `queue_ads`. -/
def queueAds (pending : List PendingAd) (entry : PendingAd) : List PendingAd :=
  if entry.ids = [] then pending else (pending ++ [entry]).drop (overflow pending)

/-- `flush_ads`: the entries that stay and those that are ready. -/
def flushAds (chain : List ChainBlock) (pending : List PendingAd) :
    List PendingAd × List PendingAd :=
  (judged chain .keep pending, judged chain .ready pending)

/-- The ready entries that `advertise_exprs` is called for, when one of the calls may raise. -/
def advertised (raisesAt : Option Nat) (ready : List PendingAd) : List PendingAd :=
  match raisesAt with
  | none => ready
  | some i => ready.take (i + 1)

/-- Why an entry is never sent. -/
inductive Reason where
  | overflow
  | skipped
  | unplaced
  | raised
  deriving DecidableEq

/-- What the worker does with the queue: it queues the ids of a block it made, or it flushes while
the head is at the upper end of a chain. -/
inductive Event where
  | queue (entry : PendingAd)
  | flush (chain : List ChainBlock) (raisesAt : Option Nat)

/-- The queue with what was sent from it and what was dropped. -/
structure Log where
  pending : List PendingAd := []
  sent : List PendingAd := []
  dropped : List (PendingAd × Reason) := []

def tagged (reason : Reason) (entries : List PendingAd) : List (PendingAd × Reason) :=
  entries.map fun entry => (entry, reason)

def Log.step (log : Log) : Event → Log
  | .queue entry =>
    { log with
      pending := queueAds log.pending entry
      dropped := log.dropped ++ if entry.ids = [] then [] else
        tagged .overflow ((log.pending ++ [entry]).take (overflow log.pending)) }
  | .flush chain raisesAt =>
    let (keep, ready) := flushAds chain log.pending
    { pending := keep
      sent := log.sent ++ advertised raisesAt ready
      dropped := log.dropped ++ tagged .skipped (judged chain .skipped log.pending) ++
        tagged .unplaced (judged chain .unplaced log.pending) ++
        tagged .raised (ready.drop (advertised raisesAt ready).length) }

def run (events : List Event) : Log := events.foldl Log.step {}

/-- The entries that were queued, without those that have no ids. -/
def queued (events : List Event) : List PendingAd :=
  events.filterMap fun event => match event with
    | .queue entry => if entry.ids = [] then none else some entry
    | .flush _ _ => none

/-- The head is above the block of the entry and its chain goes through it. -/
def Adopted (chain : List ChainBlock) (entry : PendingAd) : Prop :=
  (∃ head ∈ chain.head?, entry.height < head.height) ∧
    hashAtHeight chain entry.height = some entry.blockHash

/-- The event drops the entry from the queue for the reason. -/
def Drops (event : Event) (pending : List PendingAd) (entry : PendingAd) : Reason → Prop
  | .overflow => pending.length = maxPendingAds ∧ pending.head? = some entry ∧
      ∃ newer, event = .queue newer ∧ newer.ids ≠ []
  | .skipped => ∃ chain raisesAt other, event = .flush chain raisesAt ∧
      hashAtHeight chain entry.height = some other ∧ other ≠ entry.blockHash
  | .unplaced => ∃ chain raisesAt, event = .flush chain raisesAt ∧
      hashAtHeight chain entry.height = none ∧
      ∃ head ∈ chain.head?, entry.height + maxPendingAdAge < head.height
  | .raised => ∃ chain i, event = .flush chain (some i) ∧ Adopted chain entry

section Judging

variable {chain : List ChainBlock} {pending : List PendingAd} {entry : PendingAd}

theorem mem_judged {verdict : Verdict} (hverdict : verdict ≠ .keep) :
    entry ∈ judged chain verdict pending ↔ entry ∈ pending ∧
      ∃ head ∈ chain.head?, judge head.height chain entry = verdict := by
  cases chain with
  | nil => simp [judged, hverdict]
  | cons head below => simp [judged]

theorem judged_subset {verdict : Verdict} (h : entry ∈ judged chain verdict pending) :
    entry ∈ pending := by
  cases chain with
  | nil =>
    simp only [judged] at h
    split at h
    · exact h
    · cases h
  | cons head below => exact (List.mem_filter.mp h).1

theorem judge_ready {head : ChainBlock} (hhead : head ∈ chain.head?)
    (h : judge head.height chain entry = .ready) : Adopted chain entry := by
  simp only [judge] at h
  split at h
  · cases h
  · rename_i habove
    refine ⟨⟨head, hhead, Int.not_le.mp habove⟩, ?_⟩
    split at h
    · rename_i onChain hfound
      split at h
      · rename_i hsame
        rw [hfound, hsame]
      · cases h
    · split at h <;> cases h

theorem judge_skipped {height : Int} (h : judge height chain entry = .skipped) :
    ∃ other, hashAtHeight chain entry.height = some other ∧ other ≠ entry.blockHash := by
  simp only [judge] at h
  split at h
  · cases h
  · split at h
    · rename_i onChain hfound
      split at h
      · cases h
      · rename_i hother
        exact ⟨onChain, hfound, hother⟩
    · split at h <;> cases h

theorem judge_unplaced {height : Int} (h : judge height chain entry = .unplaced) :
    hashAtHeight chain entry.height = none ∧ entry.height + maxPendingAdAge < height := by
  simp only [judge] at h
  split at h
  · cases h
  · split at h
    · split at h <;> cases h
    · rename_i hnone
      split at h
      · cases h
      · rename_i hold
        refine ⟨hnone, ?_⟩
        omega

/-- A flush puts every entry into one of four places. -/
theorem count_judged (chain : List ChainBlock) (pending : List PendingAd) (entry : PendingAd) :
    pending.count entry = (judged chain .keep pending).count entry +
      (judged chain .ready pending).count entry + (judged chain .skipped pending).count entry +
      (judged chain .unplaced pending).count entry := by
  cases chain with
  | nil => simp [judged]
  | cons head below =>
    simp only [judged]
    induction pending with
    | nil => simp
    | cons other pending ih =>
      cases hverdict : judge head.height (head :: below) other <;>
        simp only [List.filter_cons, hverdict, List.count_cons, ih, reduceCtorEq, decide_false,
          decide_true, Bool.false_eq_true, if_true, if_false] <;>
        omega

end Judging

section Steps

variable {log : Log} {event : Event} {entry : PendingAd} {reason : Reason}
  {chain : List ChainBlock}

theorem count_tagged (reason : Reason) (entries : List PendingAd) (entry : PendingAd) :
    ((tagged reason entries).map Prod.fst).count entry = entries.count entry := by
  simp [tagged, Function.comp_def]

theorem mem_tagged {tag : Reason} {entries : List PendingAd} :
    (entry, reason) ∈ tagged tag entries ↔ entry ∈ entries ∧ reason = tag := by
  simp [tagged]
  tauto

theorem advertised_append (raisesAt : Option Nat) (ready : List PendingAd) :
    advertised raisesAt ready ++ ready.drop (advertised raisesAt ready).length = ready := by
  cases raisesAt with
  | none => simp [advertised]
  | some i =>
    simp only [advertised, List.length_take]
    by_cases hle : i + 1 ≤ ready.length
    · rw [Nat.min_eq_left hle, List.take_append_drop]
    · have hall : ready.length ≤ i + 1 := Nat.le_of_not_le hle
      rw [Nat.min_eq_right hall, List.drop_length, List.take_of_length_le hall, List.append_nil]

/-- A step accounts for every entry: what it queues or had pending is pending, sent or dropped. -/
theorem count_step (log : Log) (event : Event) (entry : PendingAd) :
    (log.step event).pending.count entry + (log.step event).sent.count entry +
        ((log.step event).dropped.map Prod.fst).count entry =
      log.pending.count entry + log.sent.count entry + (log.dropped.map Prod.fst).count entry +
        (queued [event]).count entry := by
  cases event with
  | queue newer =>
    by_cases hids : newer.ids = []
    · simp [Log.step, queueAds, queued, hids]
    · have hsplit := congrArg (List.count entry)
        (List.take_append_drop (overflow log.pending) (log.pending ++ [newer]))
      rw [List.count_append, List.count_append] at hsplit
      simp only [Log.step, queueAds, queued, hids, if_false, List.map_append, List.count_append,
        count_tagged, List.filterMap_cons, List.filterMap_nil]
      omega
  | flush chain raisesAt =>
    have hplaces := count_judged chain log.pending entry
    have hready := congrArg (List.count entry)
      (advertised_append raisesAt (judged chain .ready log.pending))
    rw [List.count_append] at hready
    simp only [Log.step, flushAds, queued, List.map_append, List.count_append, count_tagged,
      List.filterMap_cons, List.filterMap_nil, List.count_nil]
    omega

theorem length_step (h : log.pending.length ≤ maxPendingAds) :
    (log.step event).pending.length ≤ maxPendingAds := by
  cases event with
  | queue newer =>
    simp only [Log.step, queueAds]
    split
    · exact h
    · simp only [List.length_drop, List.length_append, List.length_singleton, overflow]
      omega
  | flush chain raisesAt =>
    refine le_trans ?_ h
    cases chain with
    | nil => simp [Log.step, flushAds, judged]
    | cons head below => exact List.length_filter_le _ _

/-- What is pending stands in the order it was queued in. -/
theorem sublist_step {before : List PendingAd} (h : log.pending.Sublist before) :
    (log.step event).pending.Sublist (before ++ queued [event]) := by
  cases event with
  | queue newer =>
    by_cases hids : newer.ids = []
    · simpa [Log.step, queueAds, queued, hids] using h
    · simp only [Log.step, queueAds, queued, hids, if_false, List.filterMap_cons,
        List.filterMap_nil]
      exact (List.drop_sublist _ _).trans (h.append_right _)
  | flush chain raisesAt =>
    have hkeep : (judged chain .keep log.pending).Sublist log.pending := by
      cases chain with
      | nil => simp [judged]
      | cons head below => exact List.filter_sublist
    simpa [Log.step, flushAds, queued] using hkeep.trans h

theorem advertised_sublist (raisesAt : Option Nat) (ready : List PendingAd) :
    (advertised raisesAt ready).Sublist ready := by
  cases raisesAt with
  | none => exact List.Sublist.refl _
  | some i => exact List.take_sublist _ _

/-- A step sends nothing but what a flush finds on the chain. -/
theorem sent_step (h : entry ∈ (log.step event).sent) : entry ∈ log.sent ∨
    ∃ chain raisesAt, event = .flush chain raisesAt ∧ entry ∈ log.pending ∧
      Adopted chain entry := by
  cases event with
  | queue newer => exact .inl h
  | flush chain raisesAt =>
    simp only [Log.step, flushAds, List.mem_append] at h
    cases h with
    | inl h => exact .inl h
    | inr h =>
      obtain ⟨hpending, head, hhead, hready⟩ := (mem_judged (by decide)).mp
        ((advertised_sublist _ _).subset h)
      exact .inr ⟨chain, raisesAt, rfl, hpending, judge_ready hhead hready⟩

theorem judge_of_adopted (h : Adopted chain entry) :
    ∃ head ∈ chain.head?, judge head.height chain entry = .ready := by
  obtain ⟨⟨head, hhead, habove⟩, hfound⟩ := h
  refine ⟨head, hhead, ?_⟩
  rw [judge, if_neg (Int.not_le.mpr habove)]
  simp [hfound]

/-- A flush in which no call raises sends every entry that is adopted by then. -/
theorem sent_of_adopted (hpending : entry ∈ log.pending) (hadopted : Adopted chain entry) :
    entry ∈ (log.step (.flush chain none)).sent := by
  have hready : entry ∈ judged chain .ready log.pending :=
    (mem_judged (by decide)).mpr ⟨hpending, judge_of_adopted hadopted⟩
  simp only [Log.step, flushAds, List.mem_append]
  exact .inr hready

theorem sent_subset_step (h : entry ∈ log.sent) : entry ∈ (log.step event).sent := by
  cases event with
  | queue newer => exact h
  | flush chain raisesAt => exact List.mem_append_left _ h

/-- A step drops nothing without its reason. -/
theorem dropped_step (hlength : log.pending.length ≤ maxPendingAds)
    (h : (entry, reason) ∈ (log.step event).dropped) : (entry, reason) ∈ log.dropped ∨
    entry ∈ log.pending ∧ Drops event log.pending entry reason := by
  cases event with
  | queue newer =>
    simp only [Log.step, List.mem_append] at h
    cases h with
    | inl h => exact .inl h
    | inr h =>
      split at h
      · cases h
      · rename_i hids
        obtain ⟨hentry, rfl⟩ := mem_tagged.mp h
        have hfull : log.pending.length = maxPendingAds := by
          by_contra hne
          have hzero : overflow log.pending = 0 := by
            simp only [overflow]
            omega
          rw [hzero] at hentry
          cases hentry
        have hone : overflow log.pending = 1 := by
          simp only [overflow]
          omega
        cases hpending : log.pending with
        | nil => simp [hpending, maxPendingAds] at hfull
        | cons first rest =>
          rw [hone, hpending] at hentry
          obtain rfl : entry = first := by simpa using hentry
          rw [hpending] at hfull
          exact .inr ⟨List.mem_cons_self, hfull, rfl, newer, rfl, hids⟩
  | flush chain raisesAt =>
    simp only [Log.step, flushAds, List.mem_append] at h
    obtain ((h | h) | h) | h := h
    · exact .inl h
    · obtain ⟨hentry, rfl⟩ := mem_tagged.mp h
      obtain ⟨hpending, head, -, hverdict⟩ := (mem_judged (by decide)).mp hentry
      obtain ⟨other, hother, hne⟩ := judge_skipped hverdict
      exact .inr ⟨hpending, chain, raisesAt, other, rfl, hother, hne⟩
    · obtain ⟨hentry, rfl⟩ := mem_tagged.mp h
      obtain ⟨hpending, head, hhead, hverdict⟩ := (mem_judged (by decide)).mp hentry
      obtain ⟨hnone, hold⟩ := judge_unplaced hverdict
      exact .inr ⟨hpending, chain, raisesAt, rfl, hnone, head, hhead, hold⟩
    · obtain ⟨hentry, rfl⟩ := mem_tagged.mp h
      cases raisesAt with
      | none => simp [advertised] at hentry
      | some i =>
        obtain ⟨hpending, head, hhead, hready⟩ := (mem_judged (by decide)).mp
          (List.mem_of_mem_drop hentry)
        exact .inr ⟨hpending, chain, i, rfl, judge_ready hhead hready⟩

end Steps

section Runs

theorem run_snoc (events : List Event) (event : Event) :
    run (events ++ [event]) = (run events).step event := by
  simp [run]

theorem queued_append (events events' : List Event) :
    queued (events ++ events') = queued events ++ queued events' := by
  simp [queued]

theorem run_append (events events' : List Event) :
    run (events ++ events') = events'.foldl Log.step (run events) := by
  simp [run]

theorem sent_subset_run {log : Log} {entry : PendingAd} (h : entry ∈ log.sent)
    (events : List Event) : entry ∈ (events.foldl Log.step log).sent := by
  induction events generalizing log with
  | nil => exact h
  | cons event events ih => exact ih (sent_subset_step h)

/-- What holds of the queue after a run: every entry is in one place for each time it was queued,
few are pending, in their order; what was sent was adopted by then, what was pending and adopted at
a flush was sent, and what was dropped has its reason. -/
structure Accounted (events : List Event) : Prop where
  once : ∀ entry, (queued events).count entry = (run events).pending.count entry +
    (run events).sent.count entry + ((run events).dropped.map Prod.fst).count entry
  bounded : (run events).pending.length ≤ maxPendingAds
  ordered : (run events).pending.Sublist (queued events)
  adopted : ∀ entry ∈ (run events).sent, ∃ before chain raisesAt after,
    events = before ++ .flush chain raisesAt :: after ∧ entry ∈ (run before).pending ∧
      Adopted chain entry
  served : ∀ before chain after entry, events = before ++ .flush chain none :: after →
    entry ∈ (run before).pending → Adopted chain entry → entry ∈ (run events).sent
  reasons : ∀ entry reason, (entry, reason) ∈ (run events).dropped → ∃ before event after,
    events = before ++ event :: after ∧ entry ∈ (run before).pending ∧
      Drops event (run before).pending entry reason

end Runs

end Astreum.PendingAds
