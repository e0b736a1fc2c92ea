import Astreum.Requests
import Astreum.StorageRequests

namespace Astreum

namespace RequestBuffer

/-- The key of a destination: a provider at its address, or a peer. -/
inductive DestinationKey where
  | provider (relayKey : Bytes) (address : String) (port : Int)
  | peer (publicKey : Bytes)
  deriving DecidableEq

/-- What `_resolve_destination` gives. -/
structure Resolved where
  key : DestinationKey
  address : String × Int
  sharedKeyBytes : Bytes
  difficulty : Int

/-- What is asked of an expr, and whether its pending request is claimed already. -/
structure BufferedGet where
  resolution : Int
  preclaimed : Bool
  blockHash : Option Bytes
  shape : Bytes

/-- `_Destination` -/
structure Destination where
  address : String × Int
  sharedKeyBytes : Bytes
  difficulty : Int
  entries : Dict Bytes BufferedGet
  size : Int

/-- The buffer, the set of the exprs in it, and the event that wakes the worker. -/
structure Buffer where
  destinations : Dict DestinationKey Destination
  buffered : List Bytes
  flushEvent : Bool

def Buffer.empty : Buffer := ⟨Dict.empty, [], false⟩

section Model

/-- The entry of a datagram. -/
def BufferedGet.entry (get : BufferedGet) (exprId : Bytes) : GetEntry :=
  ⟨exprId, get.resolution, get.blockHash, get.shape⟩

/-- The checks of `queue_storage_get` on the shape or the radix param. -/
def checkQueued (shapeMaxBytes radixKeyMaxBytes : Int) (resolution : Int) (shape : Bytes) :
    Py Unit :=
  if resolution = resolutionDynamic then do
    let _ ← parseShape shape
    expect ((shape.length : Int) ≤ shapeMaxBytes)
  else if resolution = resolutionRadixKey then do
    let (_, key, valueShape) ← parseRadixKeyParam shape
    expect ((key.length : Int) ≤ radixKeyMaxBytes)
    expect ((valueShape.length : Int) ≤ shapeMaxBytes)
  else if resolution = resolutionRadixAll then do
    let valueShape ← parseRadixAllParam shape
    expect ((valueShape.length : Int) ≤ shapeMaxBytes)
  else expect (shape = [])

/-- The last part of `queue_storage_get`, under the lock of the buffer. -/
def Buffer.put (budget : Int) (exprId : Bytes) (get : BufferedGet) (r : Resolved) (b : Buffer) :
    Buffer :=
  if exprId ∈ b.buffered then b
  else
    let destination := (b.destinations.get? r.key).getD
      ⟨r.address, r.sharedKeyBytes, r.difficulty, Dict.empty, 0⟩
    let destination := { destination with
      entries := destination.entries.insert exprId get
      size := destination.size + getEntrySize (get.entry exprId) }
    { destinations := b.destinations.insert r.key destination
      buffered := b.buffered ++ [exprId]
      flushEvent := b.flushEvent || decide (budget < destination.size + 65) }

/-- The rest of `_chunks`, with the last chunk and the bytes used in it. -/
def chunksFrom (budget : Int) : List GetEntry → List GetEntry → Nat → List (List GetEntry)
  | [], chunk, _ => [chunk]
  | e :: entries, chunk, used =>
    if budget < (used + getEntrySize e : Nat) then
      chunk :: chunksFrom budget entries [e] (getEntrySize e)
    else chunksFrom budget entries (chunk ++ [e]) (used + getEntrySize e)

/-- `_chunks` -/
def chunks (budget : Int) : List GetEntry → List (List GetEntry)
  | [] => []
  | e :: entries => chunksFrom budget entries [e] (getEntrySize e)

/-- Where a call of `queue_storage_get` stands. -/
inductive QueuePhase where
  | idle
  | called (exprId : Bytes) (get : BufferedGet)
  | notBuffered (exprId : Bytes) (get : BufferedGet)
  | notPending (exprId : Bytes) (get : BufferedGet)
  | routed (exprId : Bytes) (get : BufferedGet) (r : Resolved)
  | returned (result : Bool)
  | raised (err : PyError)

/-- Where a flush stands with one destination. -/
inductive FlushPhase where
  | next
  | claiming (rest : List (Bytes × BufferedGet)) (live : List GetEntry)
  | sending (chunks : List (List GetEntry))
  | popping (chunk : List GetEntry) (chunks : List (List GetEntry))

/-- A flush: the destinations that are still to come, and what it has claimed, made into chunks and
queued so far. -/
structure Flush where
  phase : FlushPhase
  destinations : List Destination
  claimed : List GetEntry
  chunked : List (List GetEntry)
  queued : List (List GetEntry)

/-- The destinations by their difficulty. -/
def Flush.start (b : Buffer) : Flush where
  phase := .next
  destinations := (b.destinations.pairs.map Prod.snd).mergeSort
    fun d d' => decide (d.difficulty ≤ d'.difficulty)
  claimed := []
  chunked := []
  queued := []

/-- The number of datagrams that a flush returns. -/
def Flush.sent (f : Flush) : Nat := f.queued.length

def Flush.finished (f : Flush) : Prop := f.phase = .next ∧ f.destinations = []

variable {T : Type} [LinearOrder T] [Add T] (ttl : T) (maxPages budget : Int)
  (shapeMaxBytes radixKeyMaxBytes : Int)

/-- A step of a call. Each part under a lock is one step, and the route is whatever it is at the
time. -/
inductive QueueStep (b : Buffer) (requests : ExprRequests T) :
    QueuePhase → Buffer → QueuePhase → Prop
  | call {phase : QueuePhase} (exprId : Bytes) (get : BufferedGet)
      (hidle : phase = .idle ∨ (∃ result, phase = .returned result) ∨ ∃ err, phase = .raised err)
      (hcheck : checkQueued shapeMaxBytes radixKeyMaxBytes get.resolution get.shape = .ok ()) :
      QueueStep b requests phase b (.called exprId get)
  | refused {phase : QueuePhase} {get : BufferedGet} {err : PyError}
      (hidle : phase = .idle ∨ (∃ result, phase = .returned result) ∨ ∃ err, phase = .raised err)
      (hcheck : checkQueued shapeMaxBytes radixKeyMaxBytes get.resolution get.shape = .error err) :
      QueueStep b requests phase b (.raised err)
  | buffered {exprId : Bytes} {get : BufferedGet} (hin : exprId ∈ b.buffered) :
      QueueStep b requests (.called exprId get) b (.returned true)
  | notBuffered {exprId : Bytes} {get : BufferedGet} (hnew : exprId ∉ b.buffered) :
      QueueStep b requests (.called exprId get) b (.notBuffered exprId get)
  | pending {exprId : Bytes} {get : BufferedGet} {now : T} (hget : get.preclaimed = false)
      (hlive : (liveEntry requests exprId now).isSome = true) :
      QueueStep b requests (.notBuffered exprId get) b (.returned true)
  | notPending {exprId : Bytes} {get : BufferedGet} (now : T)
      (hlive : get.preclaimed = true ∨ liveEntry requests exprId now = none) :
      QueueStep b requests (.notBuffered exprId get) b (.notPending exprId get)
  | nowhere {exprId : Bytes} {get : BufferedGet} :
      QueueStep b requests (.notPending exprId get) b (.returned false)
  | route {exprId : Bytes} {get : BufferedGet} (r : Resolved) :
      QueueStep b requests (.notPending exprId get) b (.routed exprId get r)
  | put {exprId : Bytes} {get : BufferedGet} {r : Resolved} :
      QueueStep b requests (.routed exprId get r) (b.put budget exprId get r) (.returned true)

/-- A step of a flush: the claim of an entry, the send of a chunk or the pop of a request. -/
inductive FlushStep (requests : ExprRequests T) : Flush → ExprRequests T → Flush → Prop
  | next {d : Destination} {destinations : List Destination} {claimed : List GetEntry}
      {chunked queued : List (List GetEntry)} :
      FlushStep requests ⟨.next, d :: destinations, claimed, chunked, queued⟩ requests
        ⟨.claiming d.entries.pairs [], destinations, claimed, chunked, queued⟩
  | claim {exprId : Bytes} {get : BufferedGet} {rest : List (Bytes × BufferedGet)}
      {destinations : List Destination} {live claimed : List GetEntry}
      {chunked queued : List (List GetEntry)} {requests' : ExprRequests T} (now : T)
      (hget : get.preclaimed = false)
      (hclaim : claimExprReq ttl exprId (some get.resolution) get.blockHash get.shape now requests =
        (true, requests')) :
      FlushStep requests ⟨.claiming ((exprId, get) :: rest) live, destinations, claimed, chunked,
          queued⟩ requests'
        ⟨.claiming rest (live ++ [get.entry exprId]), destinations, claimed ++ [get.entry exprId],
          chunked, queued⟩
  | keep {exprId : Bytes} {get : BufferedGet} {rest : List (Bytes × BufferedGet)}
      {destinations : List Destination} {live claimed : List GetEntry}
      {chunked queued : List (List GetEntry)} {now : T} (hget : get.preclaimed = true)
      (hlive : (liveEntry requests exprId now).isSome = true) :
      FlushStep requests ⟨.claiming ((exprId, get) :: rest) live, destinations, claimed, chunked,
          queued⟩ requests
        ⟨.claiming rest (live ++ [get.entry exprId]), destinations, claimed ++ [get.entry exprId],
          chunked, queued⟩
  | skip {exprId : Bytes} {get : BufferedGet} {rest : List (Bytes × BufferedGet)}
      {destinations : List Destination} {live claimed : List GetEntry}
      {chunked queued : List (List GetEntry)} {now : T}
      (hlive : if get.preclaimed = true then liveEntry requests exprId now = none
        else (claimExprReq ttl exprId (some get.resolution) get.blockHash get.shape now
          requests).1 = false) :
      FlushStep requests ⟨.claiming ((exprId, get) :: rest) live, destinations, claimed, chunked,
          queued⟩ requests
        ⟨.claiming rest live, destinations, claimed, chunked, queued⟩
  | chunk {live claimed : List GetEntry} {destinations : List Destination}
      {chunked queued : List (List GetEntry)} :
      FlushStep requests ⟨.claiming [] live, destinations, claimed, chunked, queued⟩ requests
        ⟨.sending (chunks budget live), destinations, claimed, chunked ++ chunks budget live,
          queued⟩
  | queued {c : List GetEntry} {cs : List (List GetEntry)} {destinations : List Destination}
      {claimed : List GetEntry} {chunked queued : List (List GetEntry)} :
      FlushStep requests ⟨.sending (c :: cs), destinations, claimed, chunked, queued⟩ requests
        ⟨.sending cs, destinations, claimed, chunked, queued ++ [c]⟩
  | failed {c : List GetEntry} {cs : List (List GetEntry)} {destinations : List Destination}
      {claimed : List GetEntry} {chunked queued : List (List GetEntry)} :
      FlushStep requests ⟨.sending (c :: cs), destinations, claimed, chunked, queued⟩ requests
        ⟨.popping c cs, destinations, claimed, chunked, queued⟩
  | pop {e : GetEntry} {c : List GetEntry} {cs : List (List GetEntry)}
      {destinations : List Destination} {claimed : List GetEntry}
      {chunked queued : List (List GetEntry)} {now : T} :
      FlushStep requests ⟨.popping (e :: c) cs, destinations, claimed, chunked, queued⟩
        (popExprReq e.exprId now requests).2
        ⟨.popping c cs, destinations, claimed, chunked, queued⟩
  | popped {cs : List (List GetEntry)} {destinations : List Destination}
      {claimed : List GetEntry} {chunked queued : List (List GetEntry)} :
      FlushStep requests ⟨.popping [] cs, destinations, claimed, chunked, queued⟩ requests
        ⟨.sending cs, destinations, claimed, chunked, queued⟩
  | sent {destinations : List Destination} {claimed : List GetEntry}
      {chunked queued : List (List GetEntry)} :
      FlushStep requests ⟨.sending [], destinations, claimed, chunked, queued⟩ requests
        ⟨.next, destinations, claimed, chunked, queued⟩

/-- The buffer, the registry of pending requests, the threads that queue, and the flush of the
worker if it is in one. -/
structure System (T : Type) where
  buffer : Buffer
  requests : ExprRequests T
  threads : Nat → QueuePhase
  flush : Option Flush

/-- A step of a thread or of the worker. The other calls on the registry may come at any time; only
a flush claims. -/
inductive Step (s : System T) : System T → Prop
  | queue {i : Nat} {b : Buffer} {phase : QueuePhase}
      (h : QueueStep budget shapeMaxBytes radixKeyMaxBytes s.buffer s.requests (s.threads i) b
        phase) :
      Step s { s with buffer := b, threads := Function.update s.threads i phase }
  | wake : Step s { s with buffer := { s.buffer with flushEvent := false } }
  | start (hidle : s.flush = none) :
      Step s { s with
        buffer := { Buffer.empty with flushEvent := s.buffer.flushEvent }
        flush := some (Flush.start s.buffer) }
  | flush {f f' : Flush} {requests : ExprRequests T} (hflush : s.flush = some f)
      (h : FlushStep ttl budget s.requests f requests f') :
      Step s { s with requests, flush := some f' }
  | finish {f : Flush} (hflush : s.flush = some f) (hfinished : f.finished) :
      Step s { s with flush := none }
  | other (call : Requests.Call) (now : T)
      (hcall : ∀ exprId resolution blockHash shape,
        call ≠ .claim exprId resolution blockHash shape) :
      Step s { s with requests := (Requests.perform ttl maxPages call now s.requests).2 }

/-- The states of a run that starts with an empty buffer, whatever requests are pending. -/
inductive Reachable : System T → Prop
  | start (requests : ExprRequests T) : Reachable ⟨Buffer.empty, requests, fun _ => .idle, none⟩
  | step {s s' : System T} (hs : Reachable s)
      (h : Step ttl maxPages budget shapeMaxBytes radixKeyMaxBytes s s') : Reachable s'

end Model

/-- An expr is buffered for at most one destination, the set has the exprs that are buffered, and a
size is that of the entries. -/
structure Consistent (b : Buffer) : Prop where
  once : ∀ k k' d d' exprId, b.destinations.get? k = some d → b.destinations.get? k' = some d' →
    exprId ∈ d.entries.keys → exprId ∈ d'.entries.keys → k = k'
  buffered : ∀ exprId, exprId ∈ b.buffered ↔
    ∃ k d, b.destinations.get? k = some d ∧ exprId ∈ d.entries.keys
  size : ∀ k d, b.destinations.get? k = some d →
    d.size = d.entries.sum fun exprId get => getEntrySize (get.entry exprId)

/-- A chunk within the budget, or of a single entry. -/
def Fits (budget : Int) (chunk : List GetEntry) : Prop :=
  chunk ≠ [] ∧ ((((chunk.map getEntrySize).sum : Nat) : Int) ≤ budget ∨ ∃ e, chunk = [e])

section Chunks

variable {budget : Int}

theorem flatten_chunksFrom (entries chunk : List GetEntry) (used : Nat) :
    (chunksFrom budget entries chunk used).flatten = chunk ++ entries := by
  induction entries generalizing chunk used with
  | nil => simp [chunksFrom]
  | cons e entries ih =>
    rw [chunksFrom]
    split
    · rw [List.flatten_cons, ih]
      rfl
    · rw [ih, List.append_assoc]
      rfl

theorem fits_single (e : GetEntry) : Fits budget [e] := ⟨List.cons_ne_nil _ _, .inr ⟨e, rfl⟩⟩

theorem fits_chunksFrom (entries : List GetEntry) {chunk : List GetEntry}
    (hfits : Fits budget chunk) :
    ∀ c ∈ chunksFrom budget entries chunk (chunk.map getEntrySize).sum, Fits budget c := by
  induction entries generalizing chunk with
  | nil =>
    intro c hc
    rw [List.mem_singleton.mp hc]
    exact hfits
  | cons e entries ih =>
    intro c hc
    rw [chunksFrom] at hc
    have hsum : ((chunk ++ [e]).map getEntrySize).sum =
        (chunk.map getEntrySize).sum + getEntrySize e := by simp
    split at hc
    · rcases List.mem_cons.mp hc with rfl | hc
      · exact hfits
      · exact ih (fits_single e) c (by simpa using hc)
    · rename_i hroom
      rw [← hsum] at hc hroom
      refine ih ⟨?_, .inl (not_lt.mp hroom)⟩ c hc
      exact List.append_ne_nil_of_right_ne_nil _ (List.cons_ne_nil _ _)

/-- All entries are in the chunks, in order. -/
theorem flatten_chunks (entries : List GetEntry) : (chunks budget entries).flatten = entries := by
  cases entries with
  | nil => rfl
  | cons e entries => exact flatten_chunksFrom entries [e] _

theorem fits_chunks (entries : List GetEntry) : ∀ c ∈ chunks budget entries, Fits budget c := by
  cases entries with
  | nil => exact fun _ hc => absurd hc List.not_mem_nil
  | cons e entries =>
    have hsingle : Fits budget [e] := fits_single e
    have hfits := fits_chunksFrom entries hsingle
    simpa [chunks] using hfits

end Chunks

section Registry

variable {T : Type} [LinearOrder T] [Add T] {ttl : T} {maxPages : Int} {requests : ExprRequests T}

/-- Only a claim makes a request pending. -/
theorem get?_of_other {call : Requests.Call} {now : T} (hcall : ∀ exprId resolution blockHash shape,
    call ≠ .claim exprId resolution blockHash shape) {exprId : Bytes}
    (hnone : requests.get? exprId = none) :
    (Requests.perform ttl maxPages call now requests).2.get? exprId = none := by
  have hmoves := @Requests.perform_moves T _ _ ttl maxPages call now requests exprId
  rw [hnone] at hmoves
  generalize (Requests.perform ttl maxPages call now requests).2.get? exprId = after at hmoves
  cases hmoves with
  | stays => rfl
  | removed => rfl
  | claimed hclaim =>
    cases call with
    | claim exprId resolution blockHash shape => exact absurd rfl (hcall _ _ _ _)
    | _ => cases hclaim

theorem get?_of_claim {exprId exprId' : Bytes} {resolution : Option Int}
    {blockHash : Option Bytes} {shape : Bytes} {now : T} {requests' : ExprRequests T}
    (hclaim : claimExprReq ttl exprId resolution blockHash shape now requests = (true, requests'))
    (hne : exprId ≠ exprId') : requests'.get? exprId' = requests.get? exprId' := by
  rw [claimExprReq] at hclaim
  split at hclaim
  · cases hclaim
  · obtain rfl := (Prod.mk.inj hclaim).2
    exact Dict.get?_insert_of_ne _ _ hne

end Registry

section Buffering

variable {b : Buffer} {budget : Int} {exprId : Bytes} {get : BufferedGet} {r : Resolved}

theorem consistent_empty (flushEvent : Bool) : Consistent { Buffer.empty with flushEvent } where
  once _ _ _ _ _ h := by cases h
  buffered exprId := by
    constructor
    · intro h
      cases h
    · rintro ⟨k, d, h, -⟩
      cases h
  size _ _ h := by cases h

/-- An expr that stands in the buffer after a put was put, or stood there before. -/
theorem mem_put (hnew : exprId ∉ b.buffered) {k : DestinationKey} {d : Destination}
    (hd : (b.put budget exprId get r).destinations.get? k = some d) {x : Bytes}
    (hx : x ∈ d.entries.keys) :
    k = r.key ∧ x = exprId ∨ ∃ d₀, b.destinations.get? k = some d₀ ∧ x ∈ d₀.entries.keys := by
  rw [Buffer.put, if_neg hnew] at hd
  dsimp only at hd
  rw [Dict.get?_insert] at hd
  split at hd
  · rename_i hkey
    obtain rfl := Option.some.inj hd
    rcases Dict.mem_keys_insert.mp hx with rfl | hx
    · exact .inl ⟨hkey.symm, rfl⟩
    · rcases hold : b.destinations.get? r.key with - | d₀
      · rw [hold] at hx
        cases hx
      · rw [hold] at hx
        exact .inr ⟨d₀, hkey ▸ hold, hx⟩
  · exact .inr ⟨d, hd, hx⟩

/-- What stood in the buffer stands there after a put. -/
theorem mem_put_of_mem (hnew : exprId ∉ b.buffered) {k : DestinationKey} {d₀ : Destination}
    (hd : b.destinations.get? k = some d₀) {x : Bytes} (hx : x ∈ d₀.entries.keys) :
    ∃ d, (b.put budget exprId get r).destinations.get? k = some d ∧ x ∈ d.entries.keys := by
  rw [Buffer.put, if_neg hnew]
  dsimp only
  rw [Dict.get?_insert]
  split
  · rename_i hkey
    refine ⟨_, rfl, ?_⟩
    rw [hkey, hd]
    exact Dict.mem_keys_insert.mpr (.inr hx)
  · exact ⟨d₀, hd, hx⟩

theorem consistent_put (h : Consistent b) : Consistent (b.put budget exprId get r) := by
  by_cases hin : exprId ∈ b.buffered
  · rw [Buffer.put, if_pos hin]
    exact h
  constructor
  · intro k k' d d' x hd hd' hx hx'
    rcases mem_put hin hd hx with ⟨rfl, hexpr⟩ | ⟨d₀, hd₀, hx₀⟩
    · rcases mem_put hin hd' hx' with ⟨rfl, -⟩ | ⟨d₀, hd₀, hx₀⟩
      · rfl
      · exact absurd ((h.buffered x).mpr ⟨k', d₀, hd₀, hx₀⟩) (hexpr ▸ hin)
    · rcases mem_put hin hd' hx' with ⟨-, hexpr⟩ | ⟨d₁, hd₁, hx₁⟩
      · exact absurd ((h.buffered x).mpr ⟨k, d₀, hd₀, hx₀⟩) (hexpr ▸ hin)
      · exact h.once k k' d₀ d₁ x hd₀ hd₁ hx₀ hx₁
  · intro x
    have hbuffered : (b.put budget exprId get r).buffered = b.buffered ++ [exprId] := by
      rw [Buffer.put, if_neg hin]
    rw [hbuffered, List.mem_append, List.mem_singleton]
    constructor
    · rintro (hx | rfl)
      · obtain ⟨k, d₀, hd₀, hx₀⟩ := (h.buffered x).mp hx
        exact ⟨k, mem_put_of_mem hin hd₀ hx₀⟩
      · refine ⟨r.key, ?_⟩
        rw [Buffer.put, if_neg hin]
        exact ⟨_, Dict.get?_insert_self _ _ _, Dict.mem_keys_insert.mpr (.inl rfl)⟩
    · rintro ⟨k, d, hd, hx⟩
      rcases mem_put hin hd hx with ⟨-, rfl⟩ | ⟨d₀, hd₀, hx₀⟩
      · exact .inr rfl
      · exact .inl ((h.buffered x).mpr ⟨k, d₀, hd₀, hx₀⟩)
  · intro k d hd
    rw [Buffer.put, if_neg hin] at hd
    dsimp only at hd
    rw [Dict.get?_insert] at hd
    split at hd
    swap
    · exact h.size k d hd
    obtain rfl := Option.some.inj hd
    rcases hold : b.destinations.get? r.key with - | d₀
    · change _ = ((Dict.empty : Dict Bytes BufferedGet).insert exprId get).sum _
      rw [Dict.sum_insert]
      simp [Dict.sum, Dict.empty, Dict.get?, lookupPair]
    · have hnone : d₀.entries.get? exprId = none := Dict.get?_eq_none.mpr fun hx =>
        hin ((h.buffered exprId).mpr ⟨r.key, d₀, hold, hx⟩)
      simp [Dict.sum_insert, hnone, h.size r.key d₀ hold]

end Buffering

section Flushing

def FlushPhase.todo : FlushPhase → List Bytes
  | .claiming rest _ => rest.map Prod.fst
  | _ => []

/-- The exprs that a flush has not come to yet. -/
def Flush.todo (f : Flush) : List Bytes :=
  f.phase.todo ++ f.destinations.flatMap fun d => d.entries.keys

def FlushPhase.live : FlushPhase → List GetEntry
  | .claiming _ live => live
  | _ => []

/-- The entries that are claimed and neither queued nor given up yet. -/
def FlushPhase.waiting : FlushPhase → List GetEntry
  | .next => []
  | .claiming _ live => live
  | .sending chunks => chunks.flatten
  | .popping chunk chunks => chunk ++ chunks.flatten

/-- The chunks that are still to be sent. -/
def FlushPhase.unsent : FlushPhase → List (List GetEntry)
  | .sending chunks => chunks
  | .popping _ chunks => chunks
  | _ => []

variable {T : Type} [LinearOrder T] [Add T]

/-- What holds of a flush at each of its steps. -/
structure Orderly (budget : Int) (requests : ExprRequests T) (f : Flush) : Prop where
  apart : (f.claimed.map GetEntry.exprId ++ f.todo).Nodup
  chunked : f.chunked.flatten ++ f.phase.live = f.claimed
  fits : ∀ c ∈ f.chunked, Fits budget c
  made : f.queued ++ f.phase.unsent ⊆ f.chunked
  settled : ∀ e ∈ f.claimed, (∃ c ∈ f.queued, e ∈ c) ∨ requests.get? e.exprId = none ∨
    e ∈ f.phase.waiting

variable {ttl : T} {maxPages budget : Int} {requests requests' : ExprRequests T} {f f' : Flush}

omit [LinearOrder T] [Add T] in
theorem orderly_start {b : Buffer} (h : Consistent b) :
    Orderly budget requests (Flush.start b) where
  apart := by
    have hperm : (Flush.start b).destinations.Perm (b.destinations.pairs.map Prod.snd) :=
      List.mergeSort_perm _ _
    change ((Flush.start b).destinations.flatMap fun d => d.entries.keys).Nodup
    rw [(hperm.flatMap_right _).nodup_iff, List.flatMap_map]
    refine List.nodup_flatMap.mpr ⟨fun p _ => p.2.entries.nodup, ?_⟩
    have hkeys : b.destinations.pairs.Pairwise fun p q => p.1 ≠ q.1 :=
      List.pairwise_map.mp b.destinations.nodup
    refine hkeys.imp_of_mem fun {p q} hp hq hne => ?_
    intro x hxp hxq
    exact hne (h.once p.1 q.1 p.2 q.2 x (Dict.get?_eq_some.mpr hp) (Dict.get?_eq_some.mpr hq)
      hxp hxq)
  chunked := rfl
  fits _ hc := absurd hc List.not_mem_nil
  made := List.nil_subset _
  settled _ he := absurd he List.not_mem_nil

omit [LinearOrder T] [Add T] in
/-- The next entry is taken into the live ones. -/
theorem Orderly.take {exprId : Bytes} {get : BufferedGet} {rest : List (Bytes × BufferedGet)}
    {destinations : List Destination} {live claimed : List GetEntry}
    {chunked queued : List (List GetEntry)}
    (h : Orderly budget requests
      ⟨.claiming ((exprId, get) :: rest) live, destinations, claimed, chunked, queued⟩)
    (hothers : ∀ x, x ≠ exprId → requests.get? x = none → requests'.get? x = none) :
    Orderly budget requests' ⟨.claiming rest (live ++ [get.entry exprId]), destinations,
      claimed ++ [get.entry exprId], chunked, queued⟩ where
  apart := by
    have hapart := h.apart
    simp only [Flush.todo, FlushPhase.todo, List.map_cons, List.cons_append] at hapart
    simpa [Flush.todo, FlushPhase.todo, BufferedGet.entry] using hapart
  chunked := by
    have hchunked := h.chunked
    simp only [FlushPhase.live] at hchunked ⊢
    rw [← hchunked, List.append_assoc]
  fits := h.fits
  made := h.made
  settled e he := by
    rcases List.mem_append.mp he with he | he
    · have hne : e.exprId ≠ exprId := by
        intro heq
        have hdisjoint := (List.nodup_append.mp h.apart).2.2
        exact hdisjoint _ (List.mem_map_of_mem he) _ List.mem_cons_self heq
      refine (h.settled e he).imp_right fun hrest => ?_
      exact hrest.imp (hothers _ hne) fun hlive => List.mem_append_left _ hlive
    · exact .inr (.inr (List.mem_append_right _ he))

/-- Each step of a flush keeps it orderly. -/
theorem orderly_step (h : Orderly budget requests f)
    (hstep : FlushStep ttl budget requests f requests' f') : Orderly budget requests' f' := by
  cases hstep with
  | next =>
    refine ⟨?_, h.chunked, h.fits, h.made, h.settled⟩
    have hapart := h.apart
    simpa [Flush.todo, FlushPhase.todo, Dict.keys] using hapart
  | claim _ _ hclaim =>
    exact h.take fun x hne hnone => (get?_of_claim hclaim hne.symm).trans hnone
  | keep => exact h.take fun _ _ hnone => hnone
  | skip =>
    refine ⟨?_, h.chunked, h.fits, h.made, h.settled⟩
    refine h.apart.sublist (List.Sublist.append_left ?_ _)
    exact (List.sublist_cons_self _ _)
  | chunk =>
    rename_i live claimed destinations chunked queued
    refine ⟨h.apart, ?_, fun c hc => ?_, ?_, fun e he => ?_⟩
    · have hchunked := h.chunked
      simp only [FlushPhase.live, List.append_nil] at hchunked ⊢
      rw [List.flatten_append, flatten_chunks, hchunked]
    · rcases List.mem_append.mp hc with hc | hc
      · exact h.fits c hc
      · exact fits_chunks live c hc
    · have hmade : queued ++ [] ⊆ chunked := h.made
      rw [List.append_nil] at hmade
      exact List.append_subset.mpr ⟨List.subset_append_of_subset_left _ hmade,
        List.subset_append_right _ _⟩
    · refine (h.settled e he).imp_right fun hrest => hrest.imp_right fun hlive => ?_
      change e ∈ (chunks budget live).flatten
      rw [flatten_chunks]
      exact hlive
  | queued =>
    refine ⟨h.apart, h.chunked, h.fits, ?_, fun e he => ?_⟩
    · have hmade := h.made
      simpa [FlushPhase.unsent] using hmade
    rcases h.settled e he with ⟨c, hc, hin⟩ | hnone | hwaiting
    · exact .inl ⟨c, List.mem_append_left _ hc, hin⟩
    · exact .inr (.inl hnone)
    · rcases List.mem_append.mp hwaiting with hin | hin
      · exact .inl ⟨_, List.mem_append_right _ (List.mem_singleton_self _), hin⟩
      · exact .inr (.inr hin)
  | failed =>
    refine ⟨h.apart, h.chunked, h.fits, fun c hc => h.made ?_, h.settled⟩
    rcases List.mem_append.mp hc with hc | hc
    · exact List.mem_append_left _ hc
    · exact List.mem_append_right _ (List.mem_cons_of_mem _ hc)
  | pop =>
    rename_i e₀ c cs destinations claimed chunked queued now
    have herase : ∀ x, requests.get? x = none ∨ x = e₀.exprId →
        (popExprReq e₀.exprId now requests).2.get? x = none := by
      intro x hx
      change (requests.erase e₀.exprId).get? x = none
      rw [Dict.get?_erase]
      split
      · rfl
      · rename_i hne
        exact hx.resolve_right hne
    refine ⟨h.apart, h.chunked, h.fits, h.made, fun e he => ?_⟩
    rcases h.settled e he with hqueued | hnone | hwaiting
    · exact .inl hqueued
    · exact .inr (.inl (herase _ (.inl hnone)))
    · rcases List.mem_cons.mp hwaiting with rfl | hwaiting
      · exact .inr (.inl (herase _ (.inr rfl)))
      · exact .inr (.inr hwaiting)
  | popped => exact ⟨h.apart, h.chunked, h.fits, h.made, h.settled⟩
  | sent => exact ⟨h.apart, h.chunked, h.fits, h.made, h.settled⟩

end Flushing

section Results

variable {T : Type} [LinearOrder T] [Add T] {ttl : T} {maxPages budget : Int}
  {shapeMaxBytes radixKeyMaxBytes : Int} {s s' : System T}

theorem orderly_of_step (hbuffer : Consistent s.buffer)
    (hflush : ∀ f, s.flush = some f → Orderly budget s.requests f)
    (h : Step ttl maxPages budget shapeMaxBytes radixKeyMaxBytes s s') :
    Consistent s'.buffer ∧ ∀ f, s'.flush = some f → Orderly budget s'.requests f := by
  cases h with
  | queue h =>
    refine ⟨?_, hflush⟩
    rename_i i b phase
    generalize s.threads i = before at h
    cases h with
    | put => exact consistent_put hbuffer
    | _ => exact hbuffer
  | wake => exact ⟨⟨hbuffer.once, hbuffer.buffered, hbuffer.size⟩, hflush⟩
  | start =>
    refine ⟨consistent_empty _, fun f hf => ?_⟩
    obtain rfl := Option.some.inj hf
    exact orderly_start hbuffer
  | flush hsome h =>
    refine ⟨hbuffer, fun f hf => ?_⟩
    obtain rfl := Option.some.inj hf
    exact orderly_step (hflush _ hsome) h
  | finish => exact ⟨hbuffer, fun _ hf => by cases hf⟩
  | other call now hcall =>
    refine ⟨hbuffer, fun f hf => ?_⟩
    have horderly := hflush f hf
    refine ⟨horderly.apart, horderly.chunked, horderly.fits, horderly.made, fun e he => ?_⟩
    exact (horderly.settled e he).imp_right fun hrest =>
      hrest.imp_left fun hnone => get?_of_other hcall hnone

theorem orderly_of_reachable
    (h : Reachable ttl maxPages budget shapeMaxBytes radixKeyMaxBytes s) :
    Consistent s.buffer ∧ ∀ f, s.flush = some f → Orderly budget s.requests f := by
  induction h with
  | start => exact ⟨consistent_empty false, fun _ hf => by cases hf⟩
  | step _ hstep ih => exact orderly_of_step ih.1 ih.2 hstep

/-- What is promised of a flush that has ended: it made all that it claimed into chunks, each expr
once and in order, and what it claimed was queued or is not pending any more. -/
structure Flushed (budget : Int) (requests : ExprRequests T) (f : Flush) : Prop where
  once : (f.claimed.map GetEntry.exprId).Nodup
  chunked : f.chunked.flatten = f.claimed
  fits : ∀ c ∈ f.chunked, Fits budget c
  made : f.queued ⊆ f.chunked
  settled : ∀ e ∈ f.claimed, (∃ c ∈ f.queued, e ∈ c) ∨
    ∀ now, liveEntry requests e.exprId now = none

/-- In every run of the threads that queue and the worker that flushes, the buffer is consistent and
every flush ends with nothing that is claimed and was not sent. -/
theorem request_buffer_is_safe
    (h : Reachable ttl maxPages budget shapeMaxBytes radixKeyMaxBytes s) :
    Consistent s.buffer ∧
      ∀ f, s.flush = some f → f.finished → Flushed budget s.requests f := by
  obtain ⟨hbuffer, hflush⟩ := orderly_of_reachable h
  refine ⟨hbuffer, fun f hf hfinished => ?_⟩
  have hphase := hfinished.1
  obtain ⟨hapart, hchunked, hfits, hmade, hsettled⟩ := hflush f hf
  rw [hphase] at hchunked hmade hsettled
  refine ⟨(List.nodup_append.mp hapart).1, ?_, hfits, ?_, fun e he => ?_⟩
  · simpa [FlushPhase.live] using hchunked
  · simpa [FlushPhase.unsent] using hmade
  · rcases hsettled e he with hqueued | hnone | hwaiting
    · exact .inl hqueued
    · refine .inr fun now => ?_
      rw [liveEntry, hnone]
    · cases hwaiting

def sampleGet : BufferedGet := ⟨1, false, none, []⟩

def sampleProvider : Resolved := ⟨.provider [3] "10.0.0.1" 7373, ("10.0.0.1", 7373), [4], 1⟩

def sampleDestination : Destination :=
  ⟨("10.0.0.1", 7373), [4], 1, Dict.empty.insert [7] sampleGet, getEntrySize (sampleGet.entry [7])⟩

/-- Only the first thread has called. -/
def firstThread (phase : QueuePhase) : Nat → QueuePhase := Function.update (fun _ => .idle) 0 phase

theorem Reachable.queue {b b' : Buffer} {requests : ExprRequests T} {flush : Option Flush}
    {phase phase' : QueuePhase}
    (h : Reachable ttl maxPages budget shapeMaxBytes radixKeyMaxBytes
      ⟨b, requests, firstThread phase, flush⟩)
    (hstep : QueueStep budget shapeMaxBytes radixKeyMaxBytes b requests phase b' phase') :
    Reachable ttl maxPages budget shapeMaxBytes radixKeyMaxBytes
      ⟨b', requests, firstThread phase', flush⟩ := by
  have hthread : firstThread phase 0 = phase := Function.update_self _ _ _
  rw [← hthread] at hstep
  have hnext := h.step (.queue (i := 0) hstep)
  simpa [firstThread] using hnext

/-- One expr is queued for a provider, claimed by a flush and sent. -/
theorem sample_flush_is_safe : ∃ (s : System Nat) (f : Flush), s.flush = some f ∧
    f.queued = [[sampleGet.entry [7]]] ∧ Consistent s.buffer ∧ Flushed 400 s.requests f := by
  have hstart : Reachable 5 9 400 100 100
      (⟨Buffer.empty, Dict.empty, firstThread .idle, none⟩ : System Nat) := by
    rw [firstThread, Function.update_eq_self]
    exact .start _
  have hcalled := hstart.queue (.call [7] sampleGet (.inl rfl) rfl)
  have hunbuffered := hcalled.queue (.notBuffered (by decide))
  have hunpending := hunbuffered.queue (.notPending 0 (.inr rfl))
  have hput := (hunpending.queue (.route sampleProvider)).queue .put
  have hflush := hput.step (.start rfl)
  have hpairs : (Buffer.empty.put 400 [7] sampleGet sampleProvider).destinations.pairs =
    [(sampleProvider.key, sampleDestination)] := rfl
  simp only [Flush.start, hpairs, List.map_cons, List.map_nil, List.mergeSort_singleton] at hflush
  have hclaimed := (hflush.step (.flush rfl .next)).step (.flush rfl (.claim 0 rfl rfl))
  have hchunked := hclaimed.step (.flush rfl .chunk)
  have hsent := (hchunked.step (.flush rfl .queued)).step (.flush rfl .sent)
  have hsafe := request_buffer_is_safe hsent
  exact ⟨_, _, rfl, rfl, hsafe.1, hsafe.2 _ rfl ⟨rfl, rfl⟩⟩

end Results

end RequestBuffer

end Astreum
