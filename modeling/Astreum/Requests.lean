import Astreum.Dict
import Astreum.Expr
import Mathlib.Data.Int.Interval

namespace Astreum

structure RelayEndpoint where
  relayKey : Bytes
  address : String × Int

/-- A request on the network, with the pages of the reply that came so far. The clock is any linear
order. -/
structure PendingExprRequest (T : Type) where
  payloadType : Option Int
  expiresAt : T
  blockHash : Option Bytes := none
  shape : Bytes := []
  sender : Option Bytes := none
  total : Option Int := none
  pages : Dict Int (List Expr) := Dict.empty
  nextContact : Option RelayEndpoint := none

inductive StageResult where
  | ignored
  | staged
  | complete
  deriving DecidableEq

/-- `node.expr_requests`. -/
abbrev ExprRequests (T : Type) := Dict Bytes (PendingExprRequest T)

section Operations

variable {T : Type} [LinearOrder T] [Add T] (ttl : T) (maxPages : Int)

/-- `_live_entry`. -/
def liveEntry (requests : ExprRequests T) (exprId : Bytes) (now : T) :
    Option (PendingExprRequest T) :=
  match requests.get? exprId with
  | none => none
  | some entry => if entry.expiresAt ≤ now then none else some entry

/-- `claim_expr_req`. -/
def claimExprReq (exprId : Bytes) (resolution : Option Int) (blockHash : Option Bytes)
    (shape : Bytes) (now : T) (requests : ExprRequests T) : Bool × ExprRequests T :=
  match liveEntry requests exprId now with
  | some _ => (false, requests)
  | none => (true, requests.insert exprId
      { payloadType := resolution, expiresAt := now + ttl, blockHash, shape })

/-- The checks of `stage_found_page` on a live request. The first page that is accepted binds the
sender and the number of pages. -/
def bindPage (entry : PendingExprRequest T) (peerKey : Bytes) (page total : Int) :
    Option (PendingExprRequest T) :=
  match entry.sender with
  | none =>
    if maxPages < total then none
    else some { entry with sender := some peerKey, total := some total }
  | some sender =>
    if peerKey ≠ sender ∨ some total ≠ entry.total then none
    else if page ∈ entry.pages.keys then none
    else some entry

/-- `stage_found_page`. -/
def stageFoundPage (exprId peerKey : Bytes) (page total : Int) (exprs : List Expr) (now : T)
    (requests : ExprRequests T) :
    (StageResult × Option (PendingExprRequest T)) × ExprRequests T :=
  if total < 1 ∨ page < 1 ∨ total < page then ((.ignored, none), requests)
  else match (liveEntry requests exprId now).bind fun entry =>
      bindPage maxPages entry peerKey page total with
    | none => ((.ignored, none), requests)
    | some entry =>
      let entry := { entry with pages := entry.pages.insert page exprs, expiresAt := now + ttl }
      if some (entry.pages.pairs.length : Int) = entry.total then
        ((.complete, some entry), requests.erase exprId)
      else ((.staged, none), requests.insert exprId entry)

/-- `pop_expr_req`. -/
def popExprReq (exprId : Bytes) (now : T) (requests : ExprRequests T) :
    Option Int × ExprRequests T :=
  ((liveEntry requests exprId now).bind PendingExprRequest.payloadType, requests.erase exprId)

/-- `prune_expired_expr_reqs`. -/
def pruneExpiredExprReqs (now : T) (requests : ExprRequests T) : Nat × ExprRequests T :=
  let expired := (requests.pairs.filter fun p => p.2.expiresAt ≤ now).map Prod.fst
  (expired.length, expired.foldl Dict.erase requests)

/-- `set_next_contact`. -/
def setNextContact (exprId : Bytes) (contact : RelayEndpoint) (now : T)
    (requests : ExprRequests T) : Bool × ExprRequests T :=
  match liveEntry requests exprId now with
  | none => (false, requests)
  | some entry => (true, requests.insert exprId { entry with nextContact := some contact })

/-- `take_next_contact`. -/
def takeNextContact (exprId : Bytes) (now : T) (requests : ExprRequests T) :
    Option RelayEndpoint × ExprRequests T :=
  match liveEntry requests exprId now with
  | none => (none, requests)
  | some entry => (entry.nextContact, requests.insert exprId { entry with nextContact := none })

/-- `rearm_expr_req`. -/
def rearmExprReq (exprId : Bytes) (now : T) (requests : ExprRequests T) :
    Bool × ExprRequests T :=
  match liveEntry requests exprId now with
  | none => (false, requests)
  | some entry => (true, requests.insert exprId { entry with expiresAt := now + ttl })

end Operations

namespace Requests

/-- A call of a thread. Each one is atomic, under `expr_requests_lock`. -/
inductive Call where
  | claim (exprId : Bytes) (resolution : Option Int) (blockHash : Option Bytes) (shape : Bytes)
  | stage (exprId peerKey : Bytes) (page total : Int) (exprs : List Expr)
  | rearm (exprId : Bytes)
  | setNext (exprId : Bytes) (contact : RelayEndpoint)
  | takeNext (exprId : Bytes)
  | pop (exprId : Bytes)
  | prune

inductive Reply (T : Type) where
  | claimed (ok : Bool)
  | staged (result : StageResult) (request : Option (PendingExprRequest T))
  | rearmed (ok : Bool)
  | saved (ok : Bool)
  | taken (contact : Option RelayEndpoint)
  | popped (payloadType : Option Int)
  | pruned (count : Nat)

/-- A call that was made, the clock it read and what it returned. -/
structure Event (T : Type) where
  call : Call
  now : T
  reply : Reply T

namespace Event

variable {T : Type} (exprId : Bytes)

/-- A successful claim. -/
def isClaim (e : Event T) : Bool :=
  match e.call, e.reply with
  | .claim claimed _ _ _, .claimed ok => decide (claimed = exprId) && ok
  | _, _ => false

def isComplete (e : Event T) : Bool :=
  match e.call, e.reply with
  | .stage found _ _ _ _, .staged result _ => decide (found = exprId) && decide (result = .complete)
  | _, _ => false

/-- A page that was not ignored: who sent it, its number, the total it declared and its exprs. -/
def accepted (e : Event T) : Option (Bytes × Int × Int × List Expr) :=
  match e.call, e.reply with
  | .stage found peerKey page total exprs, .staged result _ =>
    if found = exprId ∧ result ≠ .ignored then some (peerKey, page, total, exprs) else none
  | _, _ => none

/-- A contact that was saved. -/
def saved (e : Event T) : Option RelayEndpoint :=
  match e.call, e.reply with
  | .setNext asked contact, .saved ok => if asked = exprId ∧ ok = true then some contact else none
  | _, _ => none

/-- A contact that was taken. -/
def taken (e : Event T) : Option RelayEndpoint :=
  match e.call, e.reply with
  | .takeNext asked, .taken contact => if asked = exprId then contact else none
  | _, _ => none

end Event

/-- What happened since the last successful claim, the last event first. -/
def sinceClaim {T : Type} (exprId : Bytes) : List (Event T) → Option (List (Event T))
  | [] => none
  | e :: history =>
    if e.isClaim exprId then some [] else (sinceClaim exprId history).map fun since => e :: since

section Runs

variable {T : Type} [LinearOrder T] [Add T] (ttl : T) (maxPages : Int)

/-- What an event does to the deadline of a request. -/
def Event.deadline (exprId : Bytes) (e : Event T) (deadline : Option T) : Option T :=
  match e.call, e.reply with
  | .claim asked _ _ _, .claimed true => if asked = exprId then some (e.now + ttl) else deadline
  | .stage found _ _ _ _, .staged .staged _ =>
    if found = exprId then some (e.now + ttl) else deadline
  | .stage found _ _ _ _, .staged .complete _ => if found = exprId then none else deadline
  | .rearm asked, .rearmed true => if asked = exprId then some (e.now + ttl) else deadline
  | .pop asked, _ => if asked = exprId then none else deadline
  | .prune, _ => deadline.filter fun time => e.now < time
  | _, _ => deadline

/-- The deadline of the request for an expr as the history gives it. -/
def deadlineOf (exprId : Bytes) (history : List (Event T)) : Option T :=
  history.foldr (Event.deadline ttl exprId) none

/-- A request for the expr waits for its reply. -/
def Live (exprId : Bytes) (history : List (Event T)) (now : T) : Prop :=
  ∃ deadline, deadlineOf ttl exprId history = some deadline ∧ now < deadline

def perform (call : Call) (now : T) (requests : ExprRequests T) : Reply T × ExprRequests T :=
  match call with
  | .claim exprId resolution blockHash shape =>
    let r := claimExprReq ttl exprId resolution blockHash shape now requests
    (.claimed r.1, r.2)
  | .stage exprId peerKey page total exprs =>
    let r := stageFoundPage ttl maxPages exprId peerKey page total exprs now requests
    (.staged r.1.1 r.1.2, r.2)
  | .rearm exprId =>
    let r := rearmExprReq ttl exprId now requests
    (.rearmed r.1, r.2)
  | .setNext exprId contact =>
    let r := setNextContact exprId contact now requests
    (.saved r.1, r.2)
  | .takeNext exprId =>
    let r := takeNextContact exprId now requests
    (.taken r.1, r.2)
  | .pop exprId =>
    let r := popExprReq exprId now requests
    (.popped r.1, r.2)
  | .prune =>
    let r := pruneExpiredExprReqs now requests
    (.pruned r.1, r.2)

/-- The runs from an empty registry, the last event first. -/
inductive Run : ExprRequests T → List (Event T) → Prop
  | start : Run Dict.empty []
  | step {requests : ExprRequests T} {history : List (Event T)} (hrun : Run requests history)
      (call : Call) (now : T) :
      Run (perform ttl maxPages call now requests).2
        (⟨call, now, (perform ttl maxPages call now requests).1⟩ :: history)

/-- A request whose pages are all there: the pages of one sender, who declared one number of pages,
and each of them came in one of the events. -/
def Gathered (exprId : Bytes) (events : List (Event T)) (request : PendingExprRequest T) : Prop :=
  ∃ peer total, request.sender = some peer ∧ request.total = some total ∧
    1 ≤ total ∧ total ≤ maxPages ∧ (∀ page, page ∈ request.pages.keys ↔ 1 ≤ page ∧ page ≤ total) ∧
    ∀ page exprs, request.pages.get? page = some exprs →
      ∃ e ∈ events, e.accepted exprId = some (peer, page, total, exprs)

/-- The contact was saved, and not taken since. -/
def SavedIn (exprId : Bytes) (contact : RelayEndpoint) (history : List (Event T)) : Prop :=
  ∃ later save earlier, history = later ++ save :: earlier ∧
    save.saved exprId = some contact ∧ ∀ e ∈ later, e.taken exprId = none

/-- What is promised of an event that comes after a history. -/
structure SafeEvent (history : List (Event T)) (before after : ExprRequests T) (e : Event T) :
    Prop where
  /-- The first completion since the claim, of pages that came since the claim. -/
  complete : ∀ exprId, e.isComplete exprId = true → ∃ since request,
    sinceClaim exprId history = some since ∧ (∀ e' ∈ since, e'.isComplete exprId = false) ∧
    e.reply = .staged .complete (some request) ∧ Gathered maxPages exprId (e :: since) request
  ignored : ∀ request, e.reply = .staged .ignored request → after = before
  claim : ∀ exprId, e.isClaim exprId = true → ¬Live ttl exprId history e.now
  taken : ∀ exprId contact, e.taken exprId = some contact → SavedIn exprId contact history

/-- What an event does to the request for one expr. -/
inductive Moves (exprId : Bytes) (e : Event T) :
    Option (PendingExprRequest T) → Option (PendingExprRequest T) → Prop
  | stays {entry : Option (PendingExprRequest T)} (hclaim : e.isClaim exprId = false)
      (hcomplete : e.isComplete exprId = false) (htaken : e.taken exprId = none) :
      Moves exprId e entry entry
  | removed {entry : Option (PendingExprRequest T)} (hclaim : e.isClaim exprId = false)
      (hcomplete : e.isComplete exprId = false) (htaken : e.taken exprId = none) :
      Moves exprId e entry none
  | claimed {entry : Option (PendingExprRequest T)} {payloadType : Option Int} {expiresAt : T}
      {blockHash : Option Bytes} {shape : Bytes} (hclaim : e.isClaim exprId = true)
      (hcomplete : e.isComplete exprId = false) (htaken : e.taken exprId = none) :
      Moves exprId e entry (some { payloadType, expiresAt, blockHash, shape })
  | staged {entry bound : PendingExprRequest T} {peerKey : Bytes} {page total : Int}
      {exprs : List Expr} {expiresAt : T}
      (haccepted : e.accepted exprId = some (peerKey, page, total, exprs))
      (hclaim : e.isClaim exprId = false) (hcomplete : e.isComplete exprId = false)
      (htaken : e.taken exprId = none) (hpage : 1 ≤ page ∧ page ≤ total)
      (hbind : bindPage maxPages entry peerKey page total = some bound) :
      Moves exprId e (some entry)
        (some { bound with pages := bound.pages.insert page exprs, expiresAt })
  | completed {entry bound request : PendingExprRequest T} {peerKey : Bytes} {page total : Int}
      {exprs : List Expr} {expiresAt : T}
      (haccepted : e.accepted exprId = some (peerKey, page, total, exprs))
      (hclaim : e.isClaim exprId = false) (htaken : e.taken exprId = none)
      (hpage : 1 ≤ page ∧ page ≤ total)
      (hbind : bindPage maxPages entry peerKey page total = some bound)
      (hrequest : request = { bound with pages := bound.pages.insert page exprs, expiresAt })
      (hreply : e.reply = .staged .complete (some request))
      (hall : some (request.pages.pairs.length : Int) = request.total) :
      Moves exprId e (some entry) none
  | rearmed {entry : PendingExprRequest T} {expiresAt : T} (hclaim : e.isClaim exprId = false)
      (hcomplete : e.isComplete exprId = false) (htaken : e.taken exprId = none) :
      Moves exprId e (some entry) (some { entry with expiresAt })
  | saved {entry : PendingExprRequest T} {contact : RelayEndpoint}
      (hsaved : e.saved exprId = some contact) (hclaim : e.isClaim exprId = false)
      (hcomplete : e.isComplete exprId = false) (htaken : e.taken exprId = none) :
      Moves exprId e (some entry) (some { entry with nextContact := some contact })
  | taken {entry : PendingExprRequest T} (hclaim : e.isClaim exprId = false)
      (hcomplete : e.isComplete exprId = false) (htaken : e.taken exprId = entry.nextContact) :
      Moves exprId e (some entry) (some { entry with nextContact := none })

/-- The pages of a request came since its claim, all from the sender it is bound to. -/
structure Collected (exprId : Bytes) (since : List (Event T)) (entry : PendingExprRequest T) :
    Prop where
  unbound : entry.sender = none → entry.pages = Dict.empty
  bound : ∀ peer, entry.sender = some peer → ∃ total, entry.total = some total ∧
    total ≤ maxPages ∧ ∀ page exprs, entry.pages.get? page = some exprs →
      (1 ≤ page ∧ page ≤ total) ∧ ∃ e ∈ since, e.accepted exprId = some (peer, page, total, exprs)

/-- What is known of the request for an expr after a history. -/
structure Held (exprId : Bytes) (history : List (Event T)) (entry : PendingExprRequest T) :
    Prop where
  since : ∃ since, sinceClaim exprId history = some since ∧
    (∀ e ∈ since, e.isComplete exprId = false) ∧ Collected maxPages exprId since entry
  contact : ∀ contact, entry.nextContact = some contact → SavedIn exprId contact history

section Steps

variable {ttl maxPages}

omit [Add T] in
theorem liveEntry_eq_some {requests : ExprRequests T} {exprId : Bytes} {now : T}
    {entry : PendingExprRequest T} : liveEntry requests exprId now = some entry ↔
      requests.get? exprId = some entry ∧ now < entry.expiresAt := by
  rw [liveEntry]
  rcases requests.get? exprId with _ | found
  · simp
  · by_cases hlate : found.expiresAt ≤ now
    · simp only [if_pos hlate, Option.some.injEq]
      constructor
      · rintro ⟨⟩
      · rintro ⟨rfl, hlt⟩
        exact absurd hlate (not_le.mpr hlt)
    · simp only [if_neg hlate, Option.some.injEq]
      constructor
      · rintro rfl
        exact ⟨rfl, not_le.mp hlate⟩
      · exact And.left

omit [LinearOrder T] [Add T] in
theorem get?_foldl_erase (keys : List Bytes) (requests : ExprRequests T) (exprId : Bytes) :
    (keys.foldl Dict.erase requests).get? exprId =
      if exprId ∈ keys then none else requests.get? exprId := by
  induction keys generalizing requests with
  | nil => simp
  | cons k keys ih =>
    rw [List.foldl_cons, ih, Dict.get?_erase]
    by_cases hk : exprId = k <;> by_cases hm : exprId ∈ keys <;> simp [hk, hm]

omit [Add T] in
/-- A pass over the registry removes what has expired. -/
theorem get?_prune (requests : ExprRequests T) (exprId : Bytes) (now : T) :
    (pruneExpiredExprReqs now requests).2.get? exprId =
      (requests.get? exprId).filter fun entry => now < entry.expiresAt := by
  rw [pruneExpiredExprReqs, get?_foldl_erase]
  have hmem : exprId ∈ (requests.pairs.filter fun p => decide (p.2.expiresAt ≤ now)).map Prod.fst ↔
      ∃ entry, requests.get? exprId = some entry ∧ entry.expiresAt ≤ now := by
    simp only [List.mem_map, List.mem_filter, decide_eq_true_eq, Dict.get?_eq_some]
    constructor
    · rintro ⟨p, ⟨hp, hlate⟩, rfl⟩
      exact ⟨p.2, hp, hlate⟩
    · rintro ⟨entry, hp, hlate⟩
      exact ⟨(exprId, entry), ⟨hp, hlate⟩, rfl⟩
  rcases hget : requests.get? exprId with _ | entry
  · exact ite_self none
  · rw [hget] at hmem
    rw [Option.filter_some]
    by_cases hlate : entry.expiresAt ≤ now
    · rw [if_pos (hmem.mpr ⟨entry, rfl, hlate⟩), if_neg (by simpa using hlate)]
    · rw [if_neg, if_pos (by simpa using hlate)]
      rw [hmem]
      rintro ⟨_, ⟨⟩, h⟩
      exact hlate h

variable (ttl maxPages) in
/-- A page is ignored, or it is put with the others. -/
theorem stageFoundPage_cases (exprId peerKey : Bytes) (page total : Int) (exprs : List Expr)
    (now : T) (requests : ExprRequests T) :
    stageFoundPage ttl maxPages exprId peerKey page total exprs now requests =
        ((.ignored, none), requests) ∨
      ∃ entry bound request, requests.get? exprId = some entry ∧ (1 ≤ page ∧ page ≤ total) ∧
        bindPage maxPages entry peerKey page total = some bound ∧
        request = { bound with pages := bound.pages.insert page exprs, expiresAt := now + ttl } ∧
        ((some (request.pages.pairs.length : Int) = request.total ∧
            stageFoundPage ttl maxPages exprId peerKey page total exprs now requests =
              ((.complete, some request), requests.erase exprId)) ∨
          stageFoundPage ttl maxPages exprId peerKey page total exprs now requests =
            ((.staged, none), requests.insert exprId request)) := by
  rw [stageFoundPage]
  by_cases hrange : total < 1 ∨ page < 1 ∨ total < page
  · exact .inl (if_pos hrange)
  rw [if_neg hrange]
  rcases hlive : liveEntry requests exprId now with _ | entry
  · exact .inl rfl
  rw [Option.bind_some]
  rcases hbind : bindPage maxPages entry peerKey page total with _ | bound
  · exact .inl rfl
  refine .inr ⟨entry, bound, _, (liveEntry_eq_some.mp hlive).1, by omega, hbind, rfl, ?_⟩
  dsimp only
  by_cases hall : some ((bound.pages.insert page exprs).pairs.length : Int) = bound.total
  · exact .inl ⟨hall, if_pos hall⟩
  · exact .inr (if_neg hall)

theorem moves_claim (asked : Bytes) (resolution : Option Int) (blockHash : Option Bytes)
    (shape : Bytes) (now : T) (requests : ExprRequests T) (exprId : Bytes) :
    Moves maxPages exprId
      ⟨.claim asked resolution blockHash shape, now,
        (perform ttl maxPages (.claim asked resolution blockHash shape) now requests).1⟩
      (requests.get? exprId)
      ((perform ttl maxPages (.claim asked resolution blockHash shape) now requests).2.get?
        exprId) := by
  simp only [perform, claimExprReq]
  rcases liveEntry requests asked now with _ | entry
  · by_cases hsame : asked = exprId
    · subst hsame
      rw [Dict.get?_insert_self]
      exact .claimed (by simp [Event.isClaim]) rfl rfl
    · rw [Dict.get?_insert_of_ne _ _ hsame]
      exact .stays (by simp [Event.isClaim, hsame]) rfl rfl
  · exact .stays (by simp [Event.isClaim]) rfl rfl

theorem moves_stage (found peerKey : Bytes) (page total : Int) (exprs : List Expr) (now : T)
    (requests : ExprRequests T) (exprId : Bytes) :
    Moves maxPages exprId
      ⟨.stage found peerKey page total exprs, now,
        (perform ttl maxPages (.stage found peerKey page total exprs) now requests).1⟩
      (requests.get? exprId)
      ((perform ttl maxPages (.stage found peerKey page total exprs) now requests).2.get?
        exprId) := by
  simp only [perform]
  rcases stageFoundPage_cases ttl maxPages found peerKey page total exprs
    now requests with heq | ⟨entry, bound, request, hget, hpage, hbind, hrequest, hcases⟩
  · rw [heq]
    exact .stays rfl (by simp [Event.isComplete]) rfl
  by_cases hsame : found = exprId
  · subst hsame
    rw [hget]
    rcases hcases with ⟨hall, heq⟩ | heq
    · rw [heq, Dict.get?_erase_self]
      exact .completed (by simp [Event.accepted]) rfl rfl hpage hbind hrequest rfl hall
    · rw [heq, Dict.get?_insert_self, hrequest]
      exact .staged (by simp [Event.accepted]) rfl (by simp [Event.isComplete]) rfl hpage hbind
  · rcases hcases with ⟨-, heq⟩ | heq
    · rw [heq, Dict.get?_erase_of_ne _ (Ne.symm hsame)]
      exact .stays rfl (by simp [Event.isComplete, hsame]) rfl
    · rw [heq, Dict.get?_insert_of_ne _ _ hsame]
      exact .stays rfl (by simp [Event.isComplete, hsame]) rfl

theorem perform_moves (call : Call) (now : T) (requests : ExprRequests T) (exprId : Bytes) :
    Moves maxPages exprId ⟨call, now, (perform ttl maxPages call now requests).1⟩
      (requests.get? exprId) ((perform ttl maxPages call now requests).2.get? exprId) := by
  cases call with
  | claim asked resolution blockHash shape =>
    exact moves_claim asked resolution blockHash shape now requests exprId
  | stage found peerKey page total exprs =>
    exact moves_stage found peerKey page total exprs now requests exprId
  | rearm asked =>
    simp only [perform, rearmExprReq]
    rcases hlive : liveEntry requests asked now with _ | entry
    · exact .stays rfl rfl rfl
    · by_cases hsame : asked = exprId
      · subst hsame
        rw [Dict.get?_insert_self, (liveEntry_eq_some.mp hlive).1]
        exact .rearmed rfl rfl rfl
      · rw [Dict.get?_insert_of_ne _ _ hsame]
        exact .stays rfl rfl rfl
  | setNext asked contact =>
    simp only [perform, setNextContact]
    rcases hlive : liveEntry requests asked now with _ | entry
    · exact .stays rfl rfl rfl
    · by_cases hsame : asked = exprId
      · subst hsame
        rw [Dict.get?_insert_self, (liveEntry_eq_some.mp hlive).1]
        exact .saved (by simp [Event.saved]) rfl rfl rfl
      · rw [Dict.get?_insert_of_ne _ _ hsame]
        exact .stays rfl rfl rfl
  | takeNext asked =>
    simp only [perform, takeNextContact]
    rcases hlive : liveEntry requests asked now with _ | entry
    · exact .stays rfl rfl (by simp [Event.taken])
    · by_cases hsame : asked = exprId
      · subst hsame
        rw [Dict.get?_insert_self, (liveEntry_eq_some.mp hlive).1]
        exact .taken rfl rfl (by simp [Event.taken])
      · rw [Dict.get?_insert_of_ne _ _ hsame]
        exact .stays rfl rfl (by simp [Event.taken, hsame])
  | pop asked =>
    simp only [perform, popExprReq]
    by_cases hsame : asked = exprId
    · subst hsame
      rw [Dict.get?_erase_self]
      exact .removed rfl rfl rfl
    · rw [Dict.get?_erase_of_ne _ (Ne.symm hsame)]
      exact .stays rfl rfl rfl
  | prune =>
    simp only [perform]
    rw [get?_prune]
    rcases requests.get? exprId with _ | entry
    · exact .stays rfl rfl rfl
    · rw [Option.filter_some]
      by_cases hlive : now < entry.expiresAt
      · rw [if_pos (by simpa using hlive)]
        exact .stays rfl rfl rfl
      · rw [if_neg (by simpa using hlive)]
        exact .removed rfl rfl rfl

omit [Add T] in
/-- A live request that is put back with the same deadline keeps the deadline of every expr. -/
theorem deadline_insert_live {requests : ExprRequests T} {asked exprId : Bytes} {now : T}
    {entry entry' : PendingExprRequest T} (hlive : liveEntry requests asked now = some entry)
    (hsame : entry'.expiresAt = entry.expiresAt) :
    ((requests.insert asked entry').get? exprId).map PendingExprRequest.expiresAt =
      (requests.get? exprId).map PendingExprRequest.expiresAt := by
  rw [Dict.get?_insert]
  by_cases hasked : asked = exprId
  · rw [if_pos hasked, ← hasked, (liveEntry_eq_some.mp hlive).1, Option.map_some, Option.map_some,
      hsame]
  · rw [if_neg hasked]

/-- The deadline of a request follows the events. -/
theorem deadline_perform (call : Call) (now : T) (requests : ExprRequests T) (exprId : Bytes) :
    ((perform ttl maxPages call now requests).2.get? exprId).map PendingExprRequest.expiresAt =
      Event.deadline ttl exprId ⟨call, now, (perform ttl maxPages call now requests).1⟩
        ((requests.get? exprId).map PendingExprRequest.expiresAt) := by
  cases call with
  | claim asked resolution blockHash shape =>
    simp only [perform, claimExprReq]
    rcases liveEntry requests asked now with _ | entry
    · rw [Dict.get?_insert]
      simp only [Event.deadline]
      by_cases hsame : asked = exprId
      · rw [if_pos hsame, if_pos hsame]
        rfl
      · rw [if_neg hsame, if_neg hsame]
    · rfl
  | stage found peerKey page total exprs =>
    simp only [perform]
    rcases stageFoundPage_cases ttl maxPages found peerKey page total exprs
      now requests with heq | ⟨entry, bound, request, -, -, -, hrequest, ⟨-, heq⟩ | heq⟩
    · rw [heq]
      rfl
    · rw [heq, Dict.get?_erase]
      simp only [Event.deadline]
      by_cases hsame : found = exprId
      · rw [if_pos hsame, if_pos hsame.symm]
        rfl
      · rw [if_neg hsame, if_neg (Ne.symm hsame)]
    · rw [heq, Dict.get?_insert, hrequest]
      simp only [Event.deadline]
      by_cases hsame : found = exprId
      · rw [if_pos hsame, if_pos hsame]
        rfl
      · rw [if_neg hsame, if_neg hsame]
  | rearm asked =>
    simp only [perform, rearmExprReq]
    rcases liveEntry requests asked now with _ | entry
    · rfl
    · rw [Dict.get?_insert]
      simp only [Event.deadline]
      by_cases hsame : asked = exprId
      · rw [if_pos hsame, if_pos hsame]
        rfl
      · rw [if_neg hsame, if_neg hsame]
  | setNext asked contact =>
    simp only [perform, setNextContact, Event.deadline]
    rcases hlive : liveEntry requests asked now with _ | entry
    · rfl
    · exact deadline_insert_live hlive rfl
  | takeNext asked =>
    simp only [perform, takeNextContact, Event.deadline]
    rcases hlive : liveEntry requests asked now with _ | entry
    · rfl
    · exact deadline_insert_live hlive rfl
  | pop asked =>
    simp only [perform, popExprReq, Event.deadline]
    rw [Dict.get?_erase]
    by_cases hsame : asked = exprId
    · rw [if_pos hsame, if_pos hsame.symm]
      rfl
    · rw [if_neg hsame, if_neg (Ne.symm hsame)]
  | prune =>
    simp only [perform, Event.deadline]
    rw [get?_prune]
    rcases requests.get? exprId with _ | entry
    · rfl
    · rw [Option.filter_some, Option.map_some, Option.filter_some]
      by_cases hlive : now < entry.expiresAt
      · rw [if_pos (by simpa using hlive), if_pos (by simpa using hlive)]
        rfl
      · rw [if_neg (by simpa using hlive), if_neg (by simpa using hlive)]
        rfl

/-- The registry has the deadlines that the history gives. -/
theorem deadline_of_run {requests : ExprRequests T} {history : List (Event T)}
    (h : Run ttl maxPages requests history) (exprId : Bytes) :
    (requests.get? exprId).map PendingExprRequest.expiresAt = deadlineOf ttl exprId history := by
  induction h with
  | start => rfl
  | step hrun call now ih =>
    rw [deadline_perform, ih]
    rfl

omit [LinearOrder T] [Add T] in
theorem Collected.mono {exprId : Bytes} {since since' : List (Event T)}
    {entry : PendingExprRequest T} (hsub : since ⊆ since')
    (h : Collected maxPages exprId since entry) : Collected maxPages exprId since' entry := by
  refine ⟨h.unbound, fun peer hpeer => ?_⟩
  obtain ⟨total, htotal, hle, hpages⟩ := h.bound peer hpeer
  refine ⟨total, htotal, hle, fun page exprs hpage => ?_⟩
  obtain ⟨hrange, e, he, haccepted⟩ := hpages page exprs hpage
  exact ⟨hrange, e, hsub he, haccepted⟩

omit [LinearOrder T] [Add T] in
/-- A page is bound to a sender within the limit, and the pages so far are its pages. -/
theorem Collected.bindPage {exprId : Bytes} {since : List (Event T)}
    {entry bound : PendingExprRequest T} {peerKey : Bytes} {page total : Int}
    (h : Collected maxPages exprId since entry)
    (hbind : Astreum.bindPage maxPages entry peerKey page total = some bound) :
    bound.sender = some peerKey ∧ bound.total = some total ∧
      bound.nextContact = entry.nextContact ∧ Collected maxPages exprId since bound := by
  rw [Astreum.bindPage.eq_def] at hbind
  rcases hsender : entry.sender with _ | sender
  · rw [hsender] at hbind
    dsimp only at hbind
    by_cases hlimit : maxPages < total
    · rw [if_pos hlimit] at hbind
      cases hbind
    rw [if_neg hlimit] at hbind
    cases hbind
    refine ⟨rfl, rfl, rfl, nofun, ?_⟩
    rintro _ ⟨⟩
    refine ⟨total, rfl, not_lt.mp hlimit, fun page exprs hpage => ?_⟩
    rw [show Dict.get? _ page = none by rw [h.unbound hsender]; rfl] at hpage
    cases hpage
  · rw [hsender] at hbind
    dsimp only at hbind
    by_cases hother : peerKey ≠ sender ∨ some total ≠ entry.total
    · rw [if_pos hother] at hbind
      cases hbind
    rw [if_neg hother] at hbind
    by_cases hagain : page ∈ entry.pages.keys
    · rw [if_pos hagain] at hbind
      cases hbind
    rw [if_neg hagain] at hbind
    cases hbind
    rw [not_or, not_not, not_not] at hother
    exact ⟨by rw [hsender, hother.1], hother.2.symm, rfl, h⟩

omit [LinearOrder T] [Add T] in
theorem Collected.insert {exprId : Bytes} {since : List (Event T)} {e : Event T}
    {bound : PendingExprRequest T} {peerKey : Bytes} {page total : Int} {exprs : List Expr}
    {expiresAt : T} (h : Collected maxPages exprId since bound)
    (hsender : bound.sender = some peerKey) (htotal : bound.total = some total)
    (hpage : 1 ≤ page ∧ page ≤ total)
    (haccepted : e.accepted exprId = some (peerKey, page, total, exprs)) :
    Collected maxPages exprId (e :: since)
      { bound with pages := bound.pages.insert page exprs, expiresAt } := by
  constructor
  · intro hnone
    cases hsender.symm.trans hnone
  · intro peer hpeer
    obtain rfl : peerKey = peer := Option.some.inj (hsender.symm.trans hpeer)
    obtain ⟨total', htotal', hle, hpages⟩ := h.bound peerKey hsender
    obtain rfl : total = total' := Option.some.inj (htotal.symm.trans htotal')
    refine ⟨total, htotal, hle, fun other exprs' hother => ?_⟩
    have hget : (bound.pages.insert page exprs).get? other = some exprs' := hother
    rw [Dict.get?_insert] at hget
    by_cases hsame : page = other
    · rw [if_pos hsame] at hget
      cases hget
      subst hsame
      exact ⟨hpage, e, List.mem_cons_self, haccepted⟩
    · rw [if_neg hsame] at hget
      obtain ⟨hrange, e', he', haccepted'⟩ := hpages other exprs' hget
      exact ⟨hrange, e', List.mem_cons_of_mem e he', haccepted'⟩

omit [LinearOrder T] [Add T] in
/-- As many different pages as there are page numbers are all the pages. -/
theorem Collected.gathered {exprId : Bytes} {since : List (Event T)}
    {request : PendingExprRequest T} {peerKey : Bytes}
    (h : Collected maxPages exprId since request) (hsender : request.sender = some peerKey)
    (hall : some (request.pages.pairs.length : Int) = request.total)
    (hsome : request.pages.keys ≠ []) : Gathered maxPages exprId since request := by
  obtain ⟨total, htotal, hle, hpages⟩ := h.bound peerKey hsender
  have hlength : (request.pages.keys.length : Int) = total := by
    rw [Dict.keys, List.length_map]
    exact Option.some.inj (hall.trans htotal)
  have hrange : ∀ page ∈ request.pages.keys, 1 ≤ page ∧ page ≤ total := by
    intro page hpage
    obtain ⟨exprs, hexprs⟩ := Option.ne_none_iff_exists'.mp
      (mt Dict.get?_eq_none.mp (not_not_intro hpage))
    exact (hpages page exprs hexprs).1
  have hsubset : request.pages.keys.toFinset ⊆ Finset.Icc 1 total := by
    intro page hpage
    exact Finset.mem_Icc.mpr (hrange page (List.mem_toFinset.mp hpage))
  have hcard : (Finset.Icc 1 total).card ≤ request.pages.keys.toFinset.card := by
    have hnodup : request.pages.keys.Nodup := request.pages.nodup
    rw [List.toFinset_card_of_nodup hnodup, Int.card_Icc]
    omega
  have heq := Finset.eq_of_subset_of_card_le hsubset hcard
  have hpos : 0 < request.pages.keys.length := List.length_pos_iff.mpr hsome
  refine ⟨peerKey, total, hsender, htotal, by omega, hle, fun page => ?_,
    fun page exprs hpage => ?_⟩
  · rw [← List.mem_toFinset, heq, Finset.mem_Icc]
  · exact (hpages page exprs hpage).2

omit [LinearOrder T] [Add T] in
theorem SavedIn.cons {exprId : Bytes} {contact : RelayEndpoint} {history : List (Event T)}
    {e : Event T} (htaken : e.taken exprId = none) (h : SavedIn exprId contact history) :
    SavedIn exprId contact (e :: history) := by
  obtain ⟨later, save, earlier, rfl, hsaved, hlater⟩ := h
  exact ⟨e :: later, save, earlier, rfl, hsaved, List.forall_mem_cons.mpr ⟨htaken, hlater⟩⟩

omit [LinearOrder T] [Add T] in
/-- A request that keeps its pages and its contact stays held. -/
theorem Held.keep {exprId : Bytes} {history : List (Event T)} {e : Event T}
    {entry entry' : PendingExprRequest T} (h : Held maxPages exprId history entry)
    (hclaim : e.isClaim exprId = false) (hcomplete : e.isComplete exprId = false)
    (hpages : ∀ since, Collected maxPages exprId since entry →
      Collected maxPages exprId (e :: since) entry')
    (hcontact : ∀ contact, entry'.nextContact = some contact →
      SavedIn exprId contact (e :: history)) :
    Held maxPages exprId (e :: history) entry' := by
  obtain ⟨since, hsince, hopen, hcollected⟩ := h.since
  refine ⟨⟨e :: since, ?_, List.forall_mem_cons.mpr ⟨hcomplete, hopen⟩, hpages since hcollected⟩,
    hcontact⟩
  rw [sinceClaim, hclaim, if_neg Bool.false_ne_true, hsince]
  rfl

omit [LinearOrder T] [Add T] in
theorem held_moves {exprId : Bytes} {history : List (Event T)} {e : Event T}
    {before after : Option (PendingExprRequest T)}
    (hbefore : ∀ entry, before = some entry → Held maxPages exprId history entry)
    (h : Moves maxPages exprId e before after) :
    ∀ entry, after = some entry → Held maxPages exprId (e :: history) entry := by
  intro entry' hentry'
  cases h with
  | stays hclaim hcomplete htaken =>
    have hheld := hbefore entry' hentry'
    exact hheld.keep hclaim hcomplete (fun since => Collected.mono (List.subset_cons_self e since))
      fun contact hcontact => (hheld.contact contact hcontact).cons htaken
  | removed => cases hentry'
  | claimed hclaim =>
    cases hentry'
    refine ⟨⟨[], if_pos hclaim, fun e' he' => absurd he' List.not_mem_nil, ?_⟩, ?_⟩
    · refine ⟨fun _ => rfl, fun peer hpeer => ?_⟩
      cases hpeer
    · intro contact hcontact
      cases hcontact
  | staged haccepted hclaim hcomplete htaken hpage hbind =>
    cases hentry'
    have hheld := hbefore _ rfl
    refine hheld.keep hclaim hcomplete (fun since hcollected => ?_) fun contact hcontact => ?_
    · obtain ⟨hsender, htotal, -, hbound⟩ := hcollected.bindPage hbind
      exact hbound.insert hsender htotal hpage haccepted
    · obtain ⟨_, -, -, hcollected⟩ := hheld.since
      obtain ⟨-, -, hsame, -⟩ := hcollected.bindPage hbind
      exact (hheld.contact contact (hsame.symm.trans hcontact)).cons htaken
  | completed => cases hentry'
  | rearmed hclaim hcomplete htaken =>
    cases hentry'
    have hheld := hbefore _ rfl
    refine hheld.keep hclaim hcomplete (fun since hcollected => ?_)
      fun contact hcontact => (hheld.contact contact hcontact).cons htaken
    have hmono := hcollected.mono (List.subset_cons_self e since)
    exact ⟨hmono.unbound, hmono.bound⟩
  | saved hsaved hclaim hcomplete htaken =>
    cases hentry'
    have hheld := hbefore _ rfl
    refine hheld.keep hclaim hcomplete (fun since hcollected => ?_) ?_
    · have hmono := hcollected.mono (List.subset_cons_self e since)
      exact ⟨hmono.unbound, hmono.bound⟩
    · intro contact hcontact
      cases hcontact
      exact ⟨[], e, history, rfl, hsaved, fun e' he' => absurd he' List.not_mem_nil⟩
  | taken hclaim hcomplete htaken =>
    cases hentry'
    have hheld := hbefore _ rfl
    refine hheld.keep hclaim hcomplete (fun since hcollected => ?_) fun contact hcontact => ?_
    · have hmono := hcollected.mono (List.subset_cons_self e since)
      exact ⟨hmono.unbound, hmono.bound⟩
    · cases hcontact

/-- In every run each request of the registry is held. -/
theorem held_of_run {requests : ExprRequests T} {history : List (Event T)}
    (h : Run ttl maxPages requests history) (exprId : Bytes) :
    ∀ entry, requests.get? exprId = some entry → Held maxPages exprId history entry := by
  induction h with
  | start => exact nofun
  | step hrun call now ih => exact held_moves ih (perform_moves call now _ exprId)

omit [LinearOrder T] [Add T] in
/-- A completion gathers the pages. -/
theorem Moves.gathered {exprId : Bytes} {history : List (Event T)} {e : Event T}
    {before after : Option (PendingExprRequest T)}
    (hbefore : ∀ entry, before = some entry → Held maxPages exprId history entry)
    (h : Moves maxPages exprId e before after) (hcomplete : e.isComplete exprId = true) :
    ∃ since request, sinceClaim exprId history = some since ∧
      (∀ e' ∈ since, e'.isComplete exprId = false) ∧
      e.reply = .staged .complete (some request) ∧
      Gathered maxPages exprId (e :: since) request := by
  have hno : e.isComplete exprId ≠ false := by rw [hcomplete]; exact Bool.noConfusion
  cases h with
  | @completed entry bound _ _ page _ exprs _ haccepted _ _ hpage hbind hrequest hreply hall =>
    obtain ⟨since, hsince, hopen, hcollected⟩ := (hbefore entry rfl).since
    obtain ⟨hsender, htotal, -, hbound⟩ := hcollected.bindPage hbind
    refine ⟨since, _, hsince, hopen, hreply, ?_⟩
    subst hrequest
    refine (hbound.insert hsender htotal hpage haccepted).gathered hsender hall ?_
    intro hnil
    have hmem : page ∉ (bound.pages.insert page exprs).keys := by
      rw [hnil]
      exact List.not_mem_nil
    have hnone := Dict.get?_eq_none.mpr hmem
    rw [Dict.get?_insert_self] at hnone
    cases hnone
  | stays _ hfalse => exact absurd hfalse hno
  | removed _ hfalse => exact absurd hfalse hno
  | claimed _ hfalse => exact absurd hfalse hno
  | staged _ _ hfalse => exact absurd hfalse hno
  | rearmed _ hfalse => exact absurd hfalse hno
  | saved _ _ hfalse => exact absurd hfalse hno
  | taken _ hfalse => exact absurd hfalse hno

omit [LinearOrder T] [Add T] in
theorem Moves.contact {exprId : Bytes} {e : Event T} {contact : RelayEndpoint}
    {before after : Option (PendingExprRequest T)} (h : Moves maxPages exprId e before after)
    (htaken : e.taken exprId = some contact) :
    ∃ entry, before = some entry ∧ entry.nextContact = some contact := by
  have hno : e.taken exprId ≠ none := by rw [htaken]; exact Option.some_ne_none contact
  cases h with
  | taken _ _ hcontact => exact ⟨_, rfl, hcontact.symm.trans htaken⟩
  | stays _ _ hnone => exact absurd hnone hno
  | removed _ _ hnone => exact absurd hnone hno
  | claimed _ _ hnone => exact absurd hnone hno
  | staged _ _ _ hnone => exact absurd hnone hno
  | completed _ _ hnone => exact absurd hnone hno
  | rearmed _ _ hnone => exact absurd hnone hno
  | saved _ _ _ hnone => exact absurd hnone hno

/-- An ignored page leaves the registry as it was. -/
theorem ignored_perform {call : Call} {now : T} {requests : ExprRequests T}
    {request : Option (PendingExprRequest T)}
    (h : (perform ttl maxPages call now requests).1 = .staged .ignored request) :
    (perform ttl maxPages call now requests).2 = requests := by
  cases call with
  | stage found peerKey page total exprs =>
    simp only [perform] at h ⊢
    rcases stageFoundPage_cases ttl maxPages found peerKey page total exprs
      now requests with heq | ⟨_, _, _, -, -, -, -, ⟨-, heq⟩ | heq⟩
    · rw [heq]
    · rw [heq] at h
      cases h
    · rw [heq] at h
      cases h
  | _ => cases h

/-- A claim succeeds only where no live request stands. -/
theorem claim_perform {call : Call} {now : T} {requests : ExprRequests T} {exprId : Bytes}
    (h : Event.isClaim exprId ⟨call, now, (perform ttl maxPages call now requests).1⟩ = true) :
    liveEntry requests exprId now = none := by
  cases call with
  | claim asked resolution blockHash shape =>
    simp only [perform, claimExprReq] at h
    rcases hlive : liveEntry requests asked now with _ | entry
    · rw [hlive] at h
      have hsame : asked = exprId := by simpa [Event.isClaim] using h
      rwa [← hsame]
    · rw [hlive] at h
      simp [Event.isClaim] at h
  | _ => cases h

end Steps

variable {ttl maxPages}

/-- In every run each event is safe: a request is completed at most once for each claim and with
all its pages, an ignored page changes nothing, no claim succeeds beside a live request, and a saved
contact is taken at most once. -/
theorem reply_staging_is_safe {requests : ExprRequests T} {history : List (Event T)}
    (hrun : Run ttl maxPages requests history) (call : Call) (now : T) :
    SafeEvent ttl maxPages history requests (perform ttl maxPages call now requests).2
      ⟨call, now, (perform ttl maxPages call now requests).1⟩ := by
  have hmoves := fun exprId => @perform_moves T _ _ ttl maxPages call now requests exprId
  constructor
  · intro exprId hcomplete
    exact (hmoves exprId).gathered (held_of_run hrun exprId) hcomplete
  · intro request hreply
    exact ignored_perform hreply
  · rintro exprId hclaim ⟨deadline, hdeadline, hlt⟩
    rw [← deadline_of_run hrun exprId, Option.map_eq_some_iff] at hdeadline
    obtain ⟨entry, hentry, rfl⟩ := hdeadline
    have hlive := liveEntry_eq_some.mpr ⟨hentry, hlt⟩
    cases hlive.symm.trans (claim_perform hclaim)
  · intro exprId contact htaken
    obtain ⟨entry, hentry, hcontact⟩ := (hmoves exprId).contact htaken
    exact (held_of_run hrun exprId entry hentry).contact contact hcontact

end Runs

/-- A reply of two pages whose second page comes first. -/
theorem second_page_completes : ∃ (history : List (Event Int)) (before after : ExprRequests Int)
    (e : Event Int), SafeEvent 10 5 history before after e ∧ e.isComplete [1] = true := by
  have hstart : Run (10 : Int) 5 Dict.empty [] := .start
  have hclaimed := hstart.step (.claim [1] none none []) 0
  have hstaged := hclaimed.step (.stage [1] [7] 2 2 []) 1
  exact ⟨_, _, _, _, reply_staging_is_safe hstaged (.stage [1] [7] 1 2 []) 2, by decide⟩

end Requests

end Astreum
