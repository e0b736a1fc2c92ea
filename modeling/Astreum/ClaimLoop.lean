import Astreum.ClaimWorker
import Astreum.Dict

namespace Astreum

namespace ClaimLoop

section Flow

structure InFlight where
  counter : Int
  sentHeight : Int
  entries : List ClaimEntry
  txBytes : Int

inductive FlightStatus where
  | included
  | lost
  | pending
  deriving DecidableEq, Repr

def inFlightStatus (flight : InFlight) (chainCounter headHeight : Int) : FlightStatus :=
  if flight.counter < chainCounter then .included
  else if flight.sentHeight + 2 ≤ headHeight then .lost
  else .pending

def bandAfterInclusion (band delay : Int) : Int := if delay = 1 then band + 1 else band

def bandAfterLoss (band : Int) : Int := max 1 (band / 2)

end Flow

section Queue

/-- A due height with a storage id, in the order in which they leave the heap. -/
abbrev Due := Int × Bytes

def Due.before (a b : Due) : Bool := a.1 < b.1 || (a.1 == b.1 && decide (a.2 < b.2))

/-- `heapq.heappush` on a heap that is kept in order. -/
def heappush (due : Due) : List Due → List Due
  | [] => [due]
  | next :: heap => if next.before due then next :: heappush due heap else due :: next :: heap

structure ClaimQueue where
  heap : List Due
  known : List Bytes
  released : List Bytes

namespace ClaimQueue

def empty : ClaimQueue := ⟨[], [], []⟩

/-- `queue_push`. -/
def push (queue : ClaimQueue) (storageId : Bytes) (due : Int) : ClaimQueue :=
  { queue with heap := heappush (due, storageId) queue.heap }

/-- `queue_add`. -/
def add (queue : ClaimQueue) (storageId : Bytes) (due : Int) : ClaimQueue :=
  if storageId ∈ queue.known then queue
  else { queue.push storageId due with known := storageId :: queue.known }

/-- The loop of `queue_pop_due`: the ids that leave, and what stays. -/
def popFrom (released : List Bytes) (headHeight : Int) : Nat → List Due → List Bytes × List Due
  | _, [] => ([], [])
  | limit, (due, storageId) :: heap =>
    if 0 < limit ∧ due ≤ headHeight then
      if storageId ∈ released then popFrom released headHeight limit heap
      else
        let (ids, rest) := popFrom released headHeight (limit - 1) heap
        (storageId :: ids, rest)
    else ([], (due, storageId) :: heap)

def pushAll (due : Int) (queue : ClaimQueue) (ids : List Bytes) : ClaimQueue :=
  ids.foldl (fun queue storageId => queue.push storageId due) queue

def addAll (due : Int) (queue : ClaimQueue) (ids : List Bytes) : ClaimQueue :=
  ids.foldl (fun queue storageId => queue.add storageId due) queue

end ClaimQueue

end Queue

section Worker

/-- The variables of `claim_storage`, with the fields of the node that it writes. -/
structure Worker where
  queue : ClaimQueue
  held : Dict Bytes (Int × Int)
  inFlight : Option InFlight
  pending : List ClaimEntry
  popped : List Bytes
  fair : Option Int
  band : Int
  inclusionDelay : Int
  bytesPerClaim : Int
  treeHead : Option Nat
  storageRate : Option Rat

def Worker.start (band inclusionDelay : Int) : Worker :=
  ⟨.empty, Dict.empty, none, [], [], none, band, inclusionDelay, 0, none, none⟩

/-- A latest block, told from the others by a number. -/
structure Head where
  block : Nat
  height : Int

/-- What `_claim_step` learns from outside. -/
structure StepAnswers where
  interval : Py (Option Int)
  cost : Py Unit
  record : Bytes → Py (Option StorageRecord)
  budget : Py Nat
  plan : Bytes → StorageRecord → Py (Option LaneChoice × Int)
  context : Ctx
  blobs : Py (Bytes → Option Bytes)
  paces : Nat → Pace

/-- What `_send_batch` learns from outside. -/
structure SendAnswers where
  sentHeight : Int
  chainCounter : Int
  txBytes : Py Int
  pays : Bool
  sent : Py Unit

/-- What one pass of the loop learns from outside. -/
structure PassAnswers where
  head : Option Head
  account : Py Unit
  rate : Py Rat
  newRecordIds : List Bytes
  scanned : List Bytes
  fair : Py (Option Int)
  chainCounter : Int
  capacity : Py Unit
  lanesToRelease : Py (List Bytes)
  step : StepAnswers
  claimBytes : ClaimEntry → Py Int
  send : SendAnswers

def orOne (n : Option Int) : Int :=
  match n with
  | none => 1
  | some n => if n = 0 then 1 else n

abbrev Loop := Stateful Worker

def push (storageId : Bytes) (due : Int) (w : Worker) : Worker :=
  { w with queue := w.queue.push storageId due }

/-- The first loop of `_claim_step`: the records that can be claimed. -/
def readRecords (me : Bytes) (retry : Int) (record : Bytes → Py (Option StorageRecord)) :
    List Bytes → Loop (List (Bytes × StorageRecord))
  | [] => pure []
  | storageId :: ids =>
    -- an error while a record is read is logged, and the record counts as missing
    match record storageId with
    | .error _ | .ok none => do
      Eff.update fun w => push storageId retry { w with held := w.held.erase storageId }
      readRecords me retry record ids
    | .ok (some r) =>
      if r.newSize ≤ 0 then do
        Eff.update (push storageId retry)
        readRecords me retry record ids
      else do
        Eff.update fun w => { w with
          held := if r.lanes.any fun lane => decide (lane.winner = me) then
            w.held.insert storageId (r.newSize, sharedPrefixBits me storageId)
          else w.held.erase storageId }
        return (storageId, r) :: (← readRecords me retry record ids)

/-- The second loop of `_claim_step`: a lane for each record that has one. -/
def planRecords (plan : Bytes → StorageRecord → Py (Option LaneChoice × Int)) :
    List (Bytes × StorageRecord) → Loop (List ClaimPlan)
  | [] => pure []
  | (storageId, r) :: records => do
    match ← Eff.ofExcept (plan storageId r) with
    | (none, due) =>
      Eff.update (push storageId due)
      planRecords plan records
    | (some choice, _) => return ⟨storageId, r, choice⟩ :: (← planRecords plan records)

def claimStep (me : Bytes) (head : Head) (a : StepAnswers) (ids : List Bytes) :
    Loop (List ClaimEntry) := do
  let interval ← Eff.ofExcept a.interval
  let retry := head.height + orOne interval
  Eff.ofExcept a.cost
  let records ← readRecords me retry a.record ids
  let budget ← Eff.ofExcept a.budget
  let plans ← planRecords a.plan records
  if plans = [] then return []
  let blobs ← Eff.ofExcept a.blobs
  match ← Eff.ofExcept (buildClaims a.context me blobs a.paces budget plans) with
  | none => Eff.raise .attributeError
  | some entries =>
    let built := entries.map fun entry => entry.claim.storageId
    let unbuilt := (plans.map ClaimPlan.storageId).filter (· ∉ built)
    Eff.update fun w => { w with queue := w.queue.pushAll retry unbuilt }
    return entries

def maxClaimTxBytes : Int := 60000

/-- The loop of `_split_claims`, with the group under way and its size. -/
def splitFrom (claimBytes : ClaimEntry → Py Int) (current : List ClaimEntry) (size : Int) :
    List ClaimEntry → Py (List (List ClaimEntry))
  | [] => .ok (if current = [] then [] else [current])
  | entry :: entries => do
    let entrySize ← claimBytes entry
    if current ≠ [] ∧ maxClaimTxBytes < size + entrySize then
      return current :: (← splitFrom claimBytes [entry] entrySize entries)
    splitFrom claimBytes (current ++ [entry]) (size + entrySize) entries

/-- `_split_claims`. -/
def splitClaims (claimBytes : ClaimEntry → Py Int) (entries : List ClaimEntry) :
    Py (List (List ClaimEntry)) :=
  splitFrom claimBytes [] 0 entries

/-- `_send_batch`, which raises nothing. -/
def sendBatch (a : SendAnswers) (entries : List ClaimEntry) (counter : Option Int) :
    Option InFlight × Int :=
  match a.txBytes with
  | .error _ => (none, 0)
  | .ok txBytes =>
    if a.pays then
      match a.sent with
      | .error _ => (none, txBytes)
      | .ok _ => (some ⟨counter.getD a.chainCounter, a.sentHeight, entries, txBytes⟩, txBytes)
    else (none, txBytes)

/-- A batch is sent, and its records are queued again when it did not go out. -/
def sendEntries (head : Head) (a : SendAnswers) (entries : List ClaimEntry) (counter : Option Int)
    (w : Worker) : Worker :=
  let (flight, txBytes) := sendBatch a entries counter
  let w := { w with
    inFlight := flight
    bytesPerClaim := if txBytes = 0 then w.bytesPerClaim else txBytes / entries.length }
  match flight with
  | some _ => w
  | none =>
    let ids := entries.map fun entry => entry.claim.storageId
    { w with queue := w.queue.pushAll (head.height + orOne w.fair) ids }

/-- The released lanes leave the held ones. -/
def release : List Bytes → Loop Unit
  | [] => pure ()
  | storageId :: ids => do
    Eff.update fun w => { w with
      queue := { w.queue with released := storageId :: w.queue.released } }
    let w ← Eff.read
    match w.held.get? storageId with
    | none => Eff.raise .keyError
    | some _ =>
      Eff.update fun w => { w with held := w.held.erase storageId }
      release ids

/-- The entries of the next batches: the pending ones, or those of the records that are due. -/
def nextEntries (me : Bytes) (head : Head) (a : PassAnswers) : Loop (List ClaimEntry) := do
  let w ← Eff.read
  if w.pending ≠ [] then return w.pending
  let popped := ClaimQueue.popFrom w.queue.released head.height w.band.toNat w.queue.heap
  Eff.write { w with popped := popped.1, queue := { w.queue with heap := popped.2 } }
  claimStep me head a.step popped.1

/-- The part of a pass after the transaction in flight is resolved. -/
def serve (me : Bytes) (head : Head) (a : PassAnswers) : Loop Unit := do
  release (← Eff.ofExcept a.lanesToRelease)
  Eff.update fun w => { w with
    pending := w.pending.filter fun entry => entry.claim.storageId ∉ w.queue.released }
  let entries ← nextEntries me head a
  match ← Eff.ofExcept (splitClaims a.claimBytes entries) with
  | [] => pure ()
  | group :: groups =>
    Eff.update fun w => sendEntries head a.send group none { w with pending := groups.flatten }

/-- The transaction in flight is resolved, then the next one is sent. -/
def resolve (me : Bytes) (head : Head) (a : PassAnswers) : Loop Unit := do
  let w ← Eff.read
  match w.inFlight with
  | none => serve me head a
  | some flight =>
    match inFlightStatus flight a.chainCounter head.height with
    | .pending => pure ()
    | .lost =>
      Eff.update fun w => sendEntries head a.send flight.entries (some flight.counter)
        { w with band := bandAfterLoss w.band }
    | .included => do
      let delay := max 1 (head.height - flight.sentHeight)
      Eff.update fun w => { w with inclusionDelay := delay }
      Eff.ofExcept a.capacity
      Eff.update fun w => { w with
        band := bandAfterInclusion w.band delay
        queue := w.queue.pushAll head.height (flight.entries.map fun e => e.claim.storageId)
        inFlight := none }
      serve me head a

/-- The body of the loop for one head. -/
def passBody (me : Bytes) (head : Head) (a : PassAnswers) : Loop Unit := do
  let w ← Eff.read
  Eff.when (w.treeHead ≠ some head.block) do
    Eff.ofExcept a.account
    match a.rate with
    | .ok rate =>
      Eff.update fun w => { w with storageRate := some rate, treeHead := some head.block }
    | .error .valueError =>
      Eff.update fun w => { w with storageRate := none, treeHead := some head.block }
    | .error e => Eff.raise e
  let w ← Eff.read
  if w.storageRate = none then return ()
  Eff.update fun w => { w with
    queue := (w.queue.addAll head.height a.newRecordIds).addAll head.height a.scanned }
  let fair ← Eff.ofExcept a.fair
  Eff.update fun w => { w with fair := fair.map (max 1) }
  resolve me head a

/-- The ids that are queued, in flight or pending. -/
def Worker.ids (w : Worker) : List Bytes :=
  w.queue.heap.map Prod.snd ++ (w.inFlight.elim [] InFlight.entries).map (·.claim.storageId) ++
    w.pending.map (·.claim.storageId)

/-- The handler of a pass that failed: what was popped and not kept is queued again. -/
def recover (head : Head) (w : Worker) : Worker :=
  { w with queue := w.queue.pushAll (head.height + orOne w.fair) (w.popped.filter (· ∉ w.ids)) }

/-- One pass of `claim_storage`. -/
def pass (me : Bytes) (a : PassAnswers) (w : Worker) : Worker :=
  match a.head with
  | none => w
  | some head =>
    match passBody me head a { w with popped := [], fair := none } with
    | (.ok _, w) => w
    | (.error _, w) => recover head w

/-- `claim_storage` until some pass, with the last answers first. -/
def claimStorage (me : Bytes) (band inclusionDelay : Int) : List PassAnswers → Worker
  | [] => Worker.start band inclusionDelay
  | a :: earlier => pass me a (claimStorage me band inclusionDelay earlier)

end Worker

end ClaimLoop

end Astreum
