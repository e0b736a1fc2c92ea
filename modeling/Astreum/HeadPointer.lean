import Astreum.Forks
import Mathlib.Logic.Function.Basic

namespace Astreum

/-- What the threads that share the head read of a block. -/
structure BlockHeader where
  exprId : Bytes
  previousBlockHash : Bytes
  height : Int
  timestamp : Option Int
  deriving DecidableEq

/-- Blocks by their hash. -/
structure Blocks where
  header : Bytes → BlockHeader
  exprId_header : ∀ hash, (header hash).exprId = hash

/-- `node.latest_block_hash` and `node.latest_block`. -/
structure Head where
  hash : Option Bytes
  block : Option BlockHeader
  deriving DecidableEq

/-- The section under the lock that every writer but a ping shares: the pointer moves only if it
holds the `expected` hash. -/
def swapHead (expected : Option Bytes) (hash : Bytes) (block : Option BlockHeader) (head : Head) : Head :=
  if head.hash = expected then ⟨some hash, block⟩ else head

/-- The commit of `_validation_worker`. -/
def commitBlock (latestBlockHash newBlockHash : Bytes) (newBlock : BlockHeader) : Head → Head :=
  swapHead (some latestBlockHash) newBlockHash (some newBlock)

/-- The adoption of an announced block in `handle_block`. -/
def adoptBlock (latestHash blockHash : Bytes) (block : BlockHeader) : Head → Head :=
  swapHead (some latestHash) blockHash (some block)

/-- The write of `_walk_back`. -/
def walkBack (failedHash newHead : Bytes) : Head → Head :=
  swapHead (some failedHash) newHead none

/-- The head `_walk_back` goes to: the parent read from local storage, or else the last good
head. -/
def walkBackTarget (previous lastGoodHead : Option Bytes) (failedHash : Bytes) : Option Bytes :=
  match previous.or lastGoodHead with
  | none => none
  | some newHead => if newHead = zero32 ∨ newHead = failedHash then none else some newHead

/-- The write of `_select_latest_block`. -/
def selectHead (currentHead : Option Bytes) (bestHead : Bytes) (bestBlock : BlockHeader) (head : Head) :
    Head :=
  if head.hash = some bestHead then head else swapHead currentHead bestHead (some bestBlock) head

/-- The part of `handle_ping` that a default seed may take. -/
def seedPing (latestBlock : Bytes) (head : Head) : Head :=
  if head.hash = some latestBlock then head else ⟨some latestBlock, none⟩

/-- `_current_head_height`. `load` says which blocks storage gives at this moment. -/
def currentHeadHeight (load : Bytes → Option BlockHeader) (headHash : Option Bytes)
    (latestBlock : Option BlockHeader) : Option Int :=
  match headHash with
  | none => none
  | some hash =>
    match latestBlock with
    | none => (load hash).map BlockHeader.height
    | some block => if block.exprId = hash then some block.height else (load hash).map BlockHeader.height

/-- The clock and the settings `_select_latest_block` reads. -/
structure SelectionWindow where
  now : Int
  maxStale : Int
  maxFuture : Int

/-- `best_head` with `best_block`, and `best_height`. -/
structure Best where
  found : Option (Bytes × BlockHeader)
  height : Int

def Best.none : Best := ⟨Option.none, -1⟩

/-- A fork the selection looks at: not malicious, fully verified and followed by some peer. -/
def isCandidate (fork : Fork) : Bool :=
  fork.maliciousBlockHash.isNone && isFullyVerified fork && decide (fork.peers ≠ ∅)

def SelectionWindow.admits (window : SelectionWindow) (timestamp : Int) : Bool :=
  !(decide (0 ≤ window.maxStale) && decide (window.maxStale < window.now - timestamp)) &&
    !(decide (0 ≤ window.maxFuture) && decide (window.maxFuture < timestamp - window.now))

/-- Between forks of one height the current head wins, then the smaller hash. -/
def breakTie (currentHead : Option Bytes) (best : Best) (head : Bytes) (block : BlockHeader) : Best :=
  if currentHead = some head then ⟨some (head, block), block.height⟩
  else
    match best.found with
    | none => best
    | some (bestHead, _) =>
      if currentHead ≠ some bestHead ∧ head < bestHead then ⟨some (head, block), block.height⟩
      else best

/-- The body of the loop of `_select_latest_block`. -/
def considerFork (window : SelectionWindow) (load : Bytes → Option BlockHeader) (currentHead : Option Bytes)
    (currentHeight : Option Int) (best : Best) (head : Bytes) (fork : Fork) : Best :=
  if isCandidate fork then
    match load head with
    | none => best
    | some block =>
      match block.timestamp with
      | none => best
      | some timestamp =>
        if !window.admits timestamp then best
        else if currentHeight.any fun height => decide (block.height < height) then best
        else if best.height < block.height then ⟨some (head, block), block.height⟩
        else if block.height = best.height then breakTie currentHead best head block
        else best
  else best

def selectBest (window : SelectionWindow) (load : Bytes → Option BlockHeader) (currentHead : Option Bytes)
    (currentHeight : Option Int) (forks : Forks) : Best :=
  forks.pairs.foldl (fun best p => considerFork window load currentHead currentHeight best p.1 p.2)
    Best.none

/-- The choice is a block that loaded and is no lower than the head, where its height is known. -/
def Sound (load : Bytes → Option BlockHeader) (currentHeight : Option Int) (best : Best) : Prop :=
  ∀ head block, best.found = some (head, block) →
    load head = some block ∧ ∀ height, currentHeight = some height → height ≤ block.height

theorem sound_considerFork {window : SelectionWindow} {load : Bytes → Option BlockHeader}
    {currentHead : Option Bytes} {currentHeight : Option Int} {best : Best} {head : Bytes}
    {fork : Fork} (h : Sound load currentHeight best) :
    Sound load currentHeight
      (considerFork window load currentHead currentHeight best head fork) := by
  rw [considerFork]
  by_cases hfork : isCandidate fork = true
  · rw [if_pos hfork]
    rcases hload : load head with _ | block
    · exact h
    rcases htime : block.timestamp with _ | timestamp
    · simpa [htime] using h
    simp only [htime]
    by_cases hadmits : (!window.admits timestamp) = true
    · rwa [if_pos hadmits]
    rw [if_neg hadmits]
    by_cases hlow : (currentHeight.any fun height => decide (block.height < height)) = true
    · rwa [if_pos hlow]
    rw [if_neg hlow]
    have htaken : Sound load currentHeight ⟨some (head, block), block.height⟩ := by
      rintro _ _ heq
      cases heq
      refine ⟨hload, ?_⟩
      rintro height rfl
      by_contra hlt
      exact hlow (by simpa using hlt)
    by_cases hhigher : best.height < block.height
    · rwa [if_pos hhigher]
    rw [if_neg hhigher]
    by_cases hequal : block.height = best.height
    · rw [if_pos hequal, breakTie]
      by_cases hcurrent : currentHead = some head
      · rwa [if_pos hcurrent]
      rw [if_neg hcurrent]
      rcases hfound : best.found with _ | ⟨bestHead, bestBlock⟩
      · exact h
      · dsimp only
        split
        · exact htaken
        · exact h
    · rwa [if_neg hequal]
  · rwa [if_neg hfork]

theorem sound_selectBest (window : SelectionWindow) (load : Bytes → Option BlockHeader)
    (currentHead : Option Bytes) (currentHeight : Option Int) (forks : Forks) :
    Sound load currentHeight (selectBest window load currentHead currentHeight forks) := by
  have hfold : ∀ (pairs : List (Bytes × Fork)) (best : Best), Sound load currentHeight best →
      Sound load currentHeight (pairs.foldl (fun best p =>
        considerFork window load currentHead currentHeight best p.1 p.2) best) := by
    intro pairs
    induction pairs with
    | nil => exact fun _ h => h
    | cons p ps ih => exact fun best h => ih _ (sound_considerFork h)
  exact hfold _ _ nofun

/-- Where a thread stands between two of its accesses to the head, with what it has read. -/
inductive Activity where
  | idle
  /-- The validation worker loads the state of the head it read. -/
  | drawing (latestBlockHash : Bytes)
  | failed (failedHash : Bytes)
  | steppingBack (failedHash newHead : Bytes)
  /-- The validation worker builds on the head it read. -/
  | building (latestBlockHash : Bytes)
  | built (latestBlockHash newBlockHash : Bytes)
  /-- The fork selector. -/
  | selecting (currentHead : Option Bytes)
  | comparing (currentHead : Option Bytes) (currentHeight : Option Int)
  | selected (currentHead : Option Bytes) (bestHead : Bytes) (bestBlock : BlockHeader)
  /-- The handler of an announced block. -/
  | received (latestHash : Option Bytes) (latestBlock : Option BlockHeader)
  | accepted (latestHash blockHash : Bytes)

structure Thread where
  activity : Activity
  lastGoodHead : Option Bytes

/-- The shared head and the threads, any number of them of every kind. -/
structure World where
  head : Head
  thread : Nat → Thread

def World.put (w : World) (t : Nat) (activity : Activity) : World :=
  { w with thread := Function.update w.thread t { w.thread t with activity := activity } }

def World.good (w : World) (t : Nat) (lastGoodHead : Option Bytes) : World :=
  { w with thread := Function.update w.thread t { w.thread t with lastGoodHead := lastGoodHead } }

/-- The steps of a thread, each of them atomic: one access to the head, or none. -/
inductive Action where
  | readHead
  | loaded
  | loadFails (hash : Bytes)
  | aim (newHead : Bytes)
  | walkBack
  | build (newBlockHash : Bytes)
  | commit
  | currentHead
  | headHeight (height : Option Int)
  | choose (bestHead : Bytes)
  | select
  | announce
  | accept (blockHash : Bytes)
  | adopt
  | seedPing (latestBlock : Bytes)
  | giveUp
  deriving DecidableEq

/-- The actions that read the pointer a thread then works on. -/
def Action.isRead : Action → Bool
  | .readHead => true
  | .currentHead => true
  | .announce => true
  | _ => false

def Action.isPing : Action → Bool
  | .seedPing _ => true
  | _ => false

/-- What storage gives at a moment: of every hash its block, or nothing. -/
def GivesBlocks (blocks : Blocks) (load : Bytes → Option BlockHeader) : Prop :=
  ∀ hash block, load hash = some block → block = blocks.header hash

/-- One step of thread `t`. A load may fail at any time, a thread may give up wherever it is, and
what a handler accepts or the worker builds is a block whose parent is the head it read. -/
inductive Step (blocks : Blocks) (w : World) (t : Nat) : Action → World → Prop
  | readHead {hash : Bytes} (hread : w.head.hash = some hash) :
      Step blocks w t .readHead
        ((w.good t ((w.thread t).lastGoodHead.or (some hash))).put t (.drawing hash))
  | loaded {hash : Bytes} (hat : (w.thread t).activity = .drawing hash) :
      Step blocks w t .loaded ((w.good t (some hash)).put t (.building hash))
  | loadFails {hash : Bytes} (hat : (w.thread t).activity = .drawing hash) :
      Step blocks w t (.loadFails hash) (w.put t (.failed hash))
  | aim {failedHash newHead : Bytes} {previous : Option Bytes}
      (hat : (w.thread t).activity = .failed failedHash)
      (hprevious : ∀ p, previous = some p → p = (blocks.header failedHash).previousBlockHash)
      (htarget : walkBackTarget previous (w.thread t).lastGoodHead failedHash = some newHead) :
      Step blocks w t (.aim newHead) (w.put t (.steppingBack failedHash newHead))
  | walkBack {failedHash newHead : Bytes}
      (hat : (w.thread t).activity = .steppingBack failedHash newHead) :
      Step blocks w t .walkBack
        { w.put t .idle with head := Astreum.walkBack failedHash newHead w.head }
  | build {hash newBlockHash : Bytes} (hat : (w.thread t).activity = .building hash)
      (hparent : (blocks.header newBlockHash).previousBlockHash = hash) :
      Step blocks w t (.build newBlockHash) (w.put t (.built hash newBlockHash))
  | commit {hash newBlockHash : Bytes} (hat : (w.thread t).activity = .built hash newBlockHash) :
      Step blocks w t .commit
        { (w.good t (if w.head.hash = some hash then some newBlockHash
            else (w.thread t).lastGoodHead)).put t .idle with
          head := commitBlock hash newBlockHash (blocks.header newBlockHash) w.head }
  | currentHead : Step blocks w t .currentHead (w.put t (.selecting w.head.hash))
  | headHeight {current : Option Bytes} {load : Bytes → Option BlockHeader}
      (hat : (w.thread t).activity = .selecting current) (hload : GivesBlocks blocks load) :
      Step blocks w t (.headHeight (currentHeadHeight load current w.head.block))
        (w.put t (.comparing current (currentHeadHeight load current w.head.block)))
  | choose {current : Option Bytes} {height : Option Int} {load : Bytes → Option BlockHeader}
      {window : SelectionWindow} {forks : Forks} {bestHead : Bytes} {bestBlock : BlockHeader}
      (hat : (w.thread t).activity = .comparing current height) (hload : GivesBlocks blocks load)
      (hbest : (selectBest window load current height forks).found = some (bestHead, bestBlock)) :
      Step blocks w t (.choose bestHead) (w.put t (.selected current bestHead bestBlock))
  | select {current : Option Bytes} {bestHead : Bytes} {bestBlock : BlockHeader}
      (hat : (w.thread t).activity = .selected current bestHead bestBlock) :
      Step blocks w t .select
        { w.put t .idle with head := selectHead current bestHead bestBlock w.head }
  | announce : Step blocks w t .announce (w.put t (.received w.head.hash w.head.block))
  | accept {latestHash blockHash : Bytes} {latestBlock : BlockHeader}
      (hat : (w.thread t).activity = .received (some latestHash) (some latestBlock))
      (hparent : (blocks.header blockHash).previousBlockHash = latestHash) :
      Step blocks w t (.accept blockHash) (w.put t (.accepted latestHash blockHash))
  | adopt {latestHash blockHash : Bytes}
      (hat : (w.thread t).activity = .accepted latestHash blockHash) :
      Step blocks w t .adopt
        { w.put t .idle with
          head := adoptBlock latestHash blockHash (blocks.header blockHash) w.head }
  | seedPing (latestBlock : Bytes) :
      Step blocks w t (.seedPing latestBlock) { w with head := Astreum.seedPing latestBlock w.head }
  | giveUp : Step blocks w t .giveUp (w.put t .idle)

/-- A step that was taken: by whom, and the head it found. -/
structure Taken where
  thread : Nat
  action : Action
  head : Head

/-- The pointer as thread `t` read it last. -/
def lastRead (t : Nat) : List Taken → Option (Option Bytes)
  | [] => none
  | e :: history =>
    if e.thread = t ∧ e.action.isRead = true then some e.head.hash else lastRead t history

/-- What thread `t` did since it read the pointer. -/
def sinceRead (t : Nat) : List Taken → List Action
  | [] => []
  | e :: history =>
    if e.thread = t then if e.action.isRead = true then [] else e.action :: sinceRead t history
    else sinceRead t history

/-- The runs from an idle start, the last step first. -/
inductive HeadRun (blocks : Blocks) : World → List Taken → Prop
  | start {w : World} (hidle : ∀ t, (w.thread t).activity = .idle)
      (hblock : ∀ block, w.head.block = some block → block = blocks.header block.exprId) :
      HeadRun blocks w []
  | step {w w' : World} {history : List Taken} {t : Nat} {action : Action}
      (hrun : HeadRun blocks w history) (hstep : Step blocks w t action w') :
      HeadRun blocks w' (⟨t, action, w.head⟩ :: history)

/-- The pointer an activity goes back to. -/
def Activity.basis : Activity → Option (Option Bytes)
  | .idle => none
  | .drawing hash => some (some hash)
  | .failed hash => some (some hash)
  | .steppingBack hash _ => some (some hash)
  | .building hash => some (some hash)
  | .built hash _ => some (some hash)
  | .selecting current => some current
  | .comparing current _ => some current
  | .selected current _ _ => some current
  | .received latestHash _ => some latestHash
  | .accepted latestHash _ => some (some latestHash)

/-- The height of the head was read, and is this one, or could not be read. -/
def HeightRead (blocks : Blocks) (since : List Action) (current : Option Bytes)
    (height : Option Int) : Prop :=
  ∀ old, current = some old →
    (height = none ∧ .headHeight none ∈ since) ∨ height = some (blocks.header old).height

/-- What is known of an activity besides its basis. -/
def Activity.Grounded (blocks : Blocks) (since : List Action) : Activity → Prop
  | .failed failedHash => .loadFails failedHash ∈ since
  | .steppingBack failedHash _ => .loadFails failedHash ∈ since
  | .built hash newBlockHash => (blocks.header newBlockHash).previousBlockHash = hash
  | .comparing current height => HeightRead blocks since current height
  | .selected current bestHead bestBlock => bestBlock = blocks.header bestHead ∧
      ∀ old, current = some old → .headHeight none ∈ since ∨
        (blocks.header old).height ≤ (blocks.header bestHead).height
  | .accepted latestHash blockHash => (blocks.header blockHash).previousBlockHash = latestHash
  | _ => True

theorem Activity.Grounded.mono {blocks : Blocks} {since since' : List Action} {activity : Activity}
    (hsub : since ⊆ since') (h : activity.Grounded blocks since) :
    activity.Grounded blocks since' := by
  cases activity with
  | failed => exact hsub h
  | steppingBack => exact hsub h
  | comparing =>
    intro old hold
    exact (h old hold).imp_left fun h => ⟨h.1, hsub h.2⟩
  | selected => exact ⟨h.1, fun old hold => (h.2 old hold).imp_left fun h => hsub h⟩
  | _ => exact h

@[simp] theorem World.activity_put (w : World) (t : Nat) (activity : Activity) :
    ((w.put t activity).thread t).activity = activity := by
  simp [put]

@[simp] theorem World.head_put (w : World) (t : Nat) (activity : Activity) :
    (w.put t activity).head = w.head := rfl

@[simp] theorem World.head_good (w : World) (t : Nat) (lastGoodHead : Option Bytes) :
    (w.good t lastGoodHead).head = w.head := rfl

theorem World.thread_put_of_ne (w : World) {t t' : Nat} (activity : Activity) (h : t' ≠ t) :
    (w.put t activity).thread t' = w.thread t' := by
  simp [put, h]

theorem World.thread_good_of_ne (w : World) {t t' : Nat} (lastGoodHead : Option Bytes)
    (h : t' ≠ t) : (w.good t lastGoodHead).thread t' = w.thread t' := by
  simp [good, h]

/-- A swap goes through at the expected pointer only. -/
theorem swapHead_cases (expected : Option Bytes) (hash : Bytes) (block : Option BlockHeader)
    (head : Head) : swapHead expected hash block head = head ∨
      (head.hash = expected ∧ swapHead expected hash block head = ⟨some hash, block⟩) := by
  rw [swapHead]
  by_cases h : head.hash = expected
  · rw [if_pos h]
    exact .inr ⟨h, rfl⟩
  · rw [if_neg h]
    exact .inl rfl

theorem selectHead_cases (current : Option Bytes) (bestHead : Bytes) (bestBlock : BlockHeader)
    (head : Head) : selectHead current bestHead bestBlock head = head ∨
      (head.hash = current ∧
        selectHead current bestHead bestBlock head = ⟨some bestHead, some bestBlock⟩) := by
  rw [selectHead]
  by_cases h : head.hash = some bestHead
  · rw [if_pos h]
    exact .inl rfl
  · rw [if_neg h]
    exact swapHead_cases ..

namespace Step

variable {blocks : Blocks} {w w' : World} {t : Nat} {action : Action}

theorem thread_of_ne (h : Step blocks w t action w') {t' : Nat} (hne : t' ≠ t) :
    w'.thread t' = w.thread t' := by
  cases h with
  | readHead => rw [World.thread_put_of_ne _ _ hne, World.thread_good_of_ne _ _ hne]
  | loaded => rw [World.thread_put_of_ne _ _ hne, World.thread_good_of_ne _ _ hne]
  | commit =>
    exact (World.thread_put_of_ne _ _ hne).trans (World.thread_good_of_ne _ _ hne)
  | seedPing => rfl
  | _ => exact World.thread_put_of_ne _ _ hne

/-- How a step changes the head: a ping sets it, the writers of a block put it in the place of the
one their activity goes back to, and nothing else touches it. -/
theorem head_cases (h : Step blocks w t action w') :
    w'.head = w.head ∨ action.isPing = true ∧ w'.head.block = none ∨
    ∃ hash, (w.thread t).activity.basis = some w.head.hash ∧ w'.head.hash = some hash ∧
      ((∃ failed, action = .walkBack ∧ w'.head.block = none ∧ w.head.hash = some failed ∧
          (w.thread t).activity = .steppingBack failed hash) ∨
       ((action = .commit ∨ action = .adopt) ∧ w'.head.block = some (blocks.header hash) ∧
          ((∃ old, w.head.hash = some old ∧ (w.thread t).activity = .built old hash) ∨
            ∃ old, w.head.hash = some old ∧ (w.thread t).activity = .accepted old hash)) ∨
       ∃ bestBlock, action = .select ∧ w'.head.block = some bestBlock ∧
          (w.thread t).activity = .selected w.head.hash hash bestBlock) := by
  cases h with
  | @walkBack failedHash newHead hat =>
    rcases swapHead_cases (some failedHash) newHead none w.head with heq | ⟨hhash, heq⟩
    · exact .inl heq
    · refine .inr (.inr ⟨newHead, ?_, congrArg Head.hash heq, .inl ⟨failedHash, rfl, ?_, hhash, hat⟩⟩)
      · rw [hat, hhash]
        rfl
      · exact congrArg Head.block heq
  | @commit hash newBlockHash hat =>
    rcases swapHead_cases (some hash) newBlockHash (some (blocks.header newBlockHash)) w.head with
      heq | ⟨hhash, heq⟩
    · exact .inl heq
    · refine .inr (.inr ⟨newBlockHash, ?_, congrArg Head.hash heq, .inr (.inl ⟨.inl rfl, ?_, ?_⟩)⟩)
      · rw [hat, hhash]
        rfl
      · exact congrArg Head.block heq
      · exact .inl ⟨hash, hhash, hat⟩
  | @select current bestHead bestBlock hat =>
    rcases selectHead_cases current bestHead bestBlock w.head with heq | ⟨hhash, heq⟩
    · exact .inl heq
    · refine .inr (.inr ⟨bestHead, ?_, congrArg Head.hash heq,
        .inr (.inr ⟨bestBlock, rfl, congrArg Head.block heq, hhash ▸ hat⟩)⟩)
      rw [hat, hhash]
      rfl
  | @adopt latestHash blockHash hat =>
    rcases swapHead_cases (some latestHash) blockHash (some (blocks.header blockHash)) w.head with
      heq | ⟨hhash, heq⟩
    · exact .inl heq
    · refine .inr (.inr ⟨blockHash, ?_, congrArg Head.hash heq, .inr (.inl ⟨.inr rfl, ?_, ?_⟩)⟩)
      · rw [hat, hhash]
        rfl
      · exact congrArg Head.block heq
      · exact .inr ⟨latestHash, hhash, hat⟩
  | seedPing latestBlock =>
    rw [Astreum.seedPing]
    by_cases hsame : w.head.hash = some latestBlock
    · rw [if_pos hsame]
      exact .inl rfl
    · rw [if_neg hsame]
      exact .inr (.inl ⟨rfl, rfl⟩)
  | _ => exact .inl rfl

end Step

/-- What holds of every run: the block beside the pointer is one of the blocks, and every activity
goes back to the pointer its thread read last. -/
structure Coherent (blocks : Blocks) (w : World) (history : List Taken) : Prop where
  block : ∀ block, w.head.block = some block → block = blocks.header block.exprId
  basis : ∀ t v, (w.thread t).activity.basis = some v → lastRead t history = some v
  grounded : ∀ t, (w.thread t).activity.Grounded blocks (sinceRead t history)

theorem lastRead_cons_of_ne {t t' : Nat} {action : Action} {head : Head} {history : List Taken}
    (h : t' ≠ t) : lastRead t' (⟨t, action, head⟩ :: history) = lastRead t' history := by
  rw [lastRead, if_neg fun hand => h hand.1.symm]

theorem sinceRead_cons_of_ne {t t' : Nat} {action : Action} {head : Head} {history : List Taken}
    (h : t' ≠ t) : sinceRead t' (⟨t, action, head⟩ :: history) = sinceRead t' history := by
  rw [sinceRead, if_neg (Ne.symm h)]

theorem lastRead_cons_read {t : Nat} {action : Action} {head : Head} {history : List Taken}
    (h : action.isRead = true) : lastRead t (⟨t, action, head⟩ :: history) = some head.hash := by
  rw [lastRead, if_pos ⟨rfl, h⟩]

theorem lastRead_cons_work {t : Nat} {action : Action} {head : Head} {history : List Taken}
    (h : action.isRead = false) :
    lastRead t (⟨t, action, head⟩ :: history) = lastRead t history := by
  rw [lastRead, if_neg (by simp [h])]

theorem sinceRead_cons_work {t : Nat} {action : Action} {head : Head} {history : List Taken}
    (h : action.isRead = false) :
    sinceRead t (⟨t, action, head⟩ :: history) = action :: sinceRead t history := by
  rw [sinceRead, if_pos rfl, if_neg (by simp [h])]

/-- The height read for the head is its height, for storage and the block beside the pointer both
go by the hash. -/
theorem heightRead_currentHeadHeight {blocks : Blocks} {load : Bytes → Option BlockHeader}
    {current : Option Bytes} {latestBlock : Option BlockHeader} (hload : GivesBlocks blocks load)
    (hblock : ∀ block, latestBlock = some block → block = blocks.header block.exprId)
    {since : List Action} :
    HeightRead blocks (.headHeight (currentHeadHeight load current latestBlock) :: since) current
      (currentHeadHeight load current latestBlock) := by
  rintro old rfl
  have hstored : (load old).map BlockHeader.height = none ∨
      (load old).map BlockHeader.height = some (blocks.header old).height := by
    rcases h : load old with _ | block
    · exact .inl rfl
    · rw [hload old block h]
      exact .inr rfl
  have hheight : currentHeadHeight load (some old) latestBlock = none ∨
      currentHeadHeight load (some old) latestBlock = some (blocks.header old).height := by
    rcases latestBlock with _ | block
    · exact hstored
    · rw [currentHeadHeight]
      by_cases hid : block.exprId = old
      · rw [if_pos hid, hblock block rfl, hid]
        exact .inr rfl
      · rwa [if_neg hid]
  rcases hheight with h | h
  · rw [h]
    exact .inl ⟨rfl, List.mem_cons_self⟩
  · exact .inr h

/-- The thread that takes a step knows afterwards what its new activity says. -/
theorem Coherent.own {blocks : Blocks} {w w' : World} {history : List Taken} {t : Nat}
    {action : Action} (h : Coherent blocks w history) (hstep : Step blocks w t action w') :
    (∀ v, (w'.thread t).activity.basis = some v →
      lastRead t (⟨t, action, w.head⟩ :: history) = some v) ∧
    (w'.thread t).activity.Grounded blocks (sinceRead t (⟨t, action, w.head⟩ :: history)) := by
  have hbasis := h.basis t
  have hgrounded := h.grounded t
  cases hstep with
  | readHead hread =>
    rw [World.activity_put, lastRead_cons_read rfl, hread]
    exact ⟨fun _ h => h, trivial⟩
  | loaded hat =>
    rw [World.activity_put, lastRead_cons_work rfl]
    rw [hat] at hbasis
    exact ⟨hbasis, trivial⟩
  | loadFails hat =>
    rw [World.activity_put, lastRead_cons_work rfl, sinceRead_cons_work rfl]
    rw [hat] at hbasis
    exact ⟨hbasis, List.mem_cons_self⟩
  | aim hat =>
    rw [World.activity_put, lastRead_cons_work rfl, sinceRead_cons_work rfl]
    rw [hat] at hbasis hgrounded
    exact ⟨hbasis, List.mem_cons_of_mem _ hgrounded⟩
  | walkBack => exact ⟨by simp [Activity.basis], by simp [Activity.Grounded]⟩
  | build hat hparent =>
    rw [World.activity_put, lastRead_cons_work rfl]
    rw [hat] at hbasis
    exact ⟨hbasis, hparent⟩
  | commit => exact ⟨by simp [Activity.basis], by simp [Activity.Grounded]⟩
  | currentHead =>
    rw [World.activity_put, lastRead_cons_read rfl]
    exact ⟨fun _ h => h, trivial⟩
  | headHeight hat hload =>
    rw [World.activity_put, lastRead_cons_work rfl, sinceRead_cons_work rfl]
    rw [hat] at hbasis
    exact ⟨hbasis, heightRead_currentHeadHeight hload h.block⟩
  | @choose current height load window forks bestHead bestBlock hat hload hbest =>
    rw [World.activity_put, lastRead_cons_work rfl, sinceRead_cons_work rfl]
    rw [hat] at hbasis hgrounded
    obtain ⟨hblock, hheight⟩ := sound_selectBest _ _ _ _ _ _ _ hbest
    obtain rfl := hload _ _ hblock
    refine ⟨hbasis, rfl, fun old hold => ?_⟩
    rcases hgrounded old hold with ⟨-, hmem⟩ | hsome
    · exact .inl (List.mem_cons_of_mem _ hmem)
    · exact .inr (hheight _ hsome)
  | select => exact ⟨by simp [Activity.basis], by simp [Activity.Grounded]⟩
  | announce =>
    rw [World.activity_put, lastRead_cons_read rfl]
    exact ⟨fun _ h => h, trivial⟩
  | accept hat hparent =>
    rw [World.activity_put, lastRead_cons_work rfl]
    rw [hat] at hbasis
    exact ⟨hbasis, hparent⟩
  | adopt => exact ⟨by simp [Activity.basis], by simp [Activity.Grounded]⟩
  | seedPing =>
    rw [lastRead_cons_work rfl, sinceRead_cons_work rfl]
    exact ⟨hbasis, hgrounded.mono (List.subset_cons_self _ _)⟩
  | giveUp => exact ⟨by simp [Activity.basis], by simp [Activity.Grounded]⟩

theorem Coherent.step {blocks : Blocks} {w w' : World} {history : List Taken} {t : Nat}
    {action : Action} (h : Coherent blocks w history) (hstep : Step blocks w t action w') :
    Coherent blocks w' (⟨t, action, w.head⟩ :: history) := by
  obtain ⟨hbasis, hgrounded⟩ := h.own hstep
  constructor
  · intro block hblock
    rcases hstep.head_cases with heq | ⟨-, hnone⟩ | ⟨hash, -, -, hcases⟩
    · exact h.block block (heq ▸ hblock)
    · rw [hnone] at hblock
      cases hblock
    rcases hcases with ⟨_, -, hnone, -⟩ | ⟨-, hsome, -⟩ | ⟨bestBlock, -, hsome, hat⟩
    · rw [hnone] at hblock
      cases hblock
    · rw [hsome] at hblock
      cases hblock
      rw [blocks.exprId_header]
    · have hbest := h.grounded t
      rw [hat] at hbest
      rw [hsome, hbest.1] at hblock
      cases hblock
      rw [blocks.exprId_header]
  · intro t' v hv
    by_cases hne : t' = t
    · subst hne
      exact hbasis v hv
    · rw [hstep.thread_of_ne hne] at hv
      rw [lastRead_cons_of_ne hne]
      exact h.basis t' v hv
  · intro t'
    by_cases hne : t' = t
    · subst hne
      exact hgrounded
    · rw [hstep.thread_of_ne hne, sinceRead_cons_of_ne hne]
      exact h.grounded t'

theorem HeadRun.coherent {blocks : Blocks} {w : World} {history : List Taken}
    (h : HeadRun blocks w history) : Coherent blocks w history := by
  induction h with
  | start hidle hblock =>
    refine ⟨hblock, fun t v hv => ?_, fun t => ?_⟩
    · rw [hidle] at hv
      cases hv
    · rw [hidle]
      trivial
  | step _ hstep ih => exact ih.step hstep

/-- What is promised of a step that changes the head. -/
structure SafeWrite (blocks : Blocks) (history : List Taken) (t : Nat) (action : Action)
    (old new : Head) : Prop where
  reread : action.isPing = true ∨ lastRead t history = some old.hash
  parent : action = .commit ∨ action = .adopt →
    ∃ hash, new.hash = some hash ∧ old.hash = some (blocks.header hash).previousBlockHash
  height : action = .select → ∃ hash, new.hash = some hash ∧ ∀ oldHash, old.hash = some oldHash →
    .headHeight none ∈ sinceRead t history ∨
      (blocks.header oldHash).height ≤ (blocks.header hash).height
  failed : action = .walkBack →
    ∃ hash, old.hash = some hash ∧ .loadFails hash ∈ sinceRead t history

/-- In every interleaving a thread changes the head only if it is the one the thread read last,
puts a block only in the place of its parent, selects no lower block than a head that loads, and
walks back from the head that failed to load. -/
theorem head_writes_are_safe {blocks : Blocks} {w w' : World} {history : List Taken} {t : Nat}
    {action : Action} (hrun : HeadRun blocks w history) (hstep : Step blocks w t action w')
    (hchange : w'.head ≠ w.head) : SafeWrite blocks history t action w.head w'.head := by
  have hcoherent := hrun.coherent
  have hgrounded := hcoherent.grounded t
  rcases hstep.head_cases with heq | ⟨hping, -⟩ | ⟨hash, hbasis, hhash, hcases⟩
  · exact absurd heq hchange
  · refine ⟨.inl hping, ?_, ?_, ?_⟩
    · rintro (rfl | rfl) <;> cases hping
    · rintro rfl
      cases hping
    · rintro rfl
      cases hping
  have hreread := hcoherent.basis t _ hbasis
  rcases hcases with ⟨failed, rfl, -, hfailed, hat⟩ | ⟨haction, -, hat⟩ | ⟨bestBlock, rfl, -, hat⟩
  · rw [hat] at hgrounded
    exact ⟨.inr hreread, nofun, nofun, fun _ => ⟨failed, hfailed, hgrounded⟩⟩
  · refine ⟨.inr hreread, fun _ => ⟨hash, hhash, ?_⟩, ?_, ?_⟩
    · rcases hat with ⟨old, hold, hat⟩ | ⟨old, hold, hat⟩
      · rw [hat] at hgrounded
        rw [hold, hgrounded]
      · rw [hat] at hgrounded
        rw [hold, hgrounded]
    · rintro rfl
      rcases haction with h | h <;> cases h
    · rintro rfl
      rcases haction with h | h <;> cases h
  · rw [hat] at hgrounded
    exact ⟨.inr hreread, nofun, fun _ => ⟨hash, hhash, hgrounded.2⟩, nofun⟩

section Two

/-- The block `[5]` of height 5 on the block `[3]` of height 3. -/
def twoHeaders : Blocks where
  header hash :=
    ⟨hash, if hash = [5] then [3] else zero32, if hash = [5] then 5 else 3, some 0⟩
  exprId_header _ := rfl

/-- All threads idle and the pointer at a block that is not loaded. -/
def idleAt (hash : Bytes) : World where
  head := ⟨some hash, none⟩
  thread _ := ⟨.idle, none⟩

theorem run_idleAt (hash : Bytes) : HeadRun twoHeaders (idleAt hash) [] :=
  .start (fun _ => rfl) nofun

/-- A worker that builds `[5]` on `[3]` and commits it. -/
theorem commit_is_safe : ∃ w w' history, SafeWrite twoHeaders history 0 .commit w w' ∧
    w.hash = some [3] ∧ w'.hash = some [5] := by
  have hparent : (twoHeaders.header [5]).previousBlockHash = [3] := rfl
  have hread := (run_idleAt [3]).step (.readHead (t := 0) rfl)
  have hloaded := hread.step (.loaded (t := 0) rfl)
  have hbuilt := hloaded.step (.build (t := 0) rfl hparent)
  exact ⟨_, _, _, head_writes_are_safe hbuilt (.commit rfl) (by decide), rfl, rfl⟩

/-- A verified fork at `[3]` that one peer follows. -/
def lowFork : Forks :=
  Dict.empty.insert [3]
    { head := [3]
      headerVerifiedUpTo := some zero32
      transactionsVerifiedUpTo := some zero32
      peers := {[9]} }

/-- Storage that gives the block `[3]` only. -/
def loadLow (hash : Bytes) : Option BlockHeader :=
  if hash = [3] then some (twoHeaders.header [3]) else none

theorem givesBlocks_loadLow : GivesBlocks twoHeaders loadLow := by
  intro hash block hblock
  rw [loadLow] at hblock
  by_cases heq : hash = [3]
  · rw [if_pos heq] at hblock
    rw [heq]
    exact (Option.some.inj hblock).symm
  · rw [if_neg heq] at hblock
    cases hblock

/-- When the head `[5]` does not load, the selector moves the head down to `[3]`. -/
theorem selector_lowers_unread_head : ¬∀ (blocks : Blocks) w history t w',
    HeadRun blocks w history → Step blocks w t .select w' → ∀ old new, w.head.hash = some old →
    w'.head.hash = some new → (blocks.header old).height ≤ (blocks.header new).height := by
  intro h
  have hbest : (selectBest ⟨0, 0, 0⟩ loadLow (some [5]) none lowFork).found =
      some ([3], twoHeaders.header [3]) := rfl
  have hread := (run_idleAt [5]).step (.currentHead (t := 1))
  have hheight := hread.step (.headHeight (t := 1) rfl givesBlocks_loadLow)
  have hchosen := hheight.step (.choose (t := 1) rfl givesBlocks_loadLow hbest)
  have hle := h _ _ _ _ _ hchosen
    (@Step.select twoHeaders _ 1 (some [5]) [3] (twoHeaders.header [3]) rfl) [5] [3] rfl rfl
  exact absurd hle (by decide)

end Two

end Astreum
