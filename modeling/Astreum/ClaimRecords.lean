import Astreum.ClaimLoop

namespace Astreum

namespace Eff

variable {ε σ α β : Type}

/-- From a state with `P`, a return of `m` meets `Q` and a raise of `m` leaves a state with `E`. -/
def Meets (P : σ → Prop) (m : Eff ε σ α) (Q : α → σ → Prop) (E : σ → Prop) : Prop :=
  ∀ s, P s → match m s with
    | (.ok a, s') => Q a s'
    | (.error _, s') => E s'

namespace Meets

variable {P : σ → Prop} {Q : α → σ → Prop} {R : β → σ → Prop} {E : σ → Prop}

theorem bind {x : Eff ε σ α} {f : α → Eff ε σ β} (hx : Meets P x Q E)
    (hf : ∀ a, Meets (Q a) (f a) R E) : Meets P (x >>= f) R E := by
  intro s hs
  have h := hx s hs
  rcases hr : x s with ⟨e | a, t⟩
  · rw [hr] at h
    rw [bind_of_error hr]
    exact h
  · rw [hr] at h
    rw [bind_of_ok hr]
    exact hf a t h

theorem weaken {m : Eff ε σ α} (P' : σ → Prop) (h : Meets P' m Q E) (himp : ∀ s, P s → P' s) :
    Meets P m Q E :=
  fun s hs => h s (himp s hs)

theorem pure {a : α} (h : ∀ s, P s → Q a s) : Meets P (Pure.pure a : Eff ε σ α) Q E :=
  fun s hs => h s hs

theorem raise {e : ε} (h : ∀ s, P s → E s) : Meets P (Eff.raise e : Eff ε σ α) Q E :=
  fun s hs => h s hs

theorem update {f : σ → σ} {Q : Unit → σ → Prop} (h : ∀ s, P s → Q () (f s)) :
    Meets P (Eff.update f : Eff ε σ Unit) Q E :=
  fun s hs => h s hs

theorem read : Meets P (Eff.read : Eff ε σ σ) (fun a s => a = s ∧ P s) E :=
  fun _ hs => ⟨rfl, hs⟩

theorem ofExcept {x : Except ε α} (hok : ∀ a s, x = .ok a → P s → Q a s) (herr : ∀ s, P s → E s) :
    Meets P (Eff.ofExcept x) Q E := by
  intro s hs
  rw [ofExcept_apply]
  cases x with
  | error e => exact herr s hs
  | ok a => exact hok a s rfl hs

end Meets

end Eff

namespace ClaimLoop

section Accounts

variable {w w' : Worker} {hand hand' : List Bytes}

theorem heappush_perm (due : Due) (heap : List Due) :
    (heappush due heap).Perm (due :: heap) := by
  induction heap with
  | nil => rfl
  | cons next heap ih =>
    rw [heappush]
    split
    · exact (ih.cons next).trans (List.Perm.swap due next heap)
    · rfl

/-- Every record that is known and not released is in one place of the worker or in hand, once,
and no other record is in any. What is in hand was popped in this pass. -/
structure Account (w : Worker) (hand : List Bytes) : Prop where
  once : ∀ id, (w.ids ++ hand).count id ≤ if id ∈ w.queue.known then 1 else 0
  kept : ∀ id, id ∉ w.queue.released →
    (w.ids ++ hand).count id = if id ∈ w.queue.known then 1 else 0
  popped : ∀ id ∈ hand, id ∈ w.popped
  fresh : ∀ id ∈ w.popped, id ∈ w.queue.known ∧ id ∉ w.queue.released
  nodup : w.popped.Nodup

/-- A record that is known and not released is in one place of the worker, once. -/
def Whole (w : Worker) : Prop :=
  (∀ id, w.ids.count id ≤ if id ∈ w.queue.known then 1 else 0) ∧
    ∀ id, id ∉ w.queue.released → w.ids.count id = if id ∈ w.queue.known then 1 else 0

theorem place_le_one (w : Worker) (id : Bytes) : (if id ∈ w.queue.known then 1 else 0) ≤ 1 := by
  split
  · exact le_rfl
  · exact Nat.zero_le 1

/-- Records may change places. -/
theorem Account.perm (h : Account w hand) (hperm : (w'.ids ++ hand').Perm (w.ids ++ hand))
    (hknown : w'.queue.known = w.queue.known) (hreleased : w'.queue.released = w.queue.released)
    (hpopped : w'.popped = w.popped) (hhand : ∀ id ∈ hand', id ∈ w.popped) :
    Account w' hand' where
  once id := by
    rw [hperm.count_eq, hknown]
    exact h.once id
  kept id hid := by
    rw [hperm.count_eq, hknown]
    rw [hreleased] at hid
    exact h.kept id hid
  popped id hid := hpopped ▸ hhand id hid
  fresh id hid := by
    rw [hknown, hreleased]
    exact h.fresh id (hpopped ▸ hid)
  nodup := hpopped ▸ h.nodup

theorem Account.reorder (h : Account w hand) (hperm : hand'.Perm hand) : Account w hand' :=
  h.perm (hperm.append_left _) rfl rfl rfl fun id hid => h.popped id (hperm.subset hid)

theorem Account.hand_nodup (h : Account w hand) : hand.Nodup := by
  refine List.nodup_iff_count_le_one.mpr fun id => ?_
  have hone := (h.once id).trans (place_le_one w id)
  rw [List.count_append] at hone
  omega

theorem ids_push (id : Bytes) (due : Int) (w : Worker) :
    (push id due w).ids.Perm (id :: w.ids) := by
  have h := ((heappush_perm (due, id) w.queue.heap).map Prod.snd).append_right
    ((w.inFlight.elim [] InFlight.entries).map (·.claim.storageId))
  exact h.append_right (w.pending.map (·.claim.storageId))

theorem pushAll_spec (due : Int) (queue : ClaimQueue) (ids : List Bytes) :
    ((queue.pushAll due ids).heap.map Prod.snd).Perm (ids ++ queue.heap.map Prod.snd) ∧
      (queue.pushAll due ids).known = queue.known ∧
        (queue.pushAll due ids).released = queue.released := by
  induction ids generalizing queue with
  | nil => exact ⟨.rfl, rfl, rfl⟩
  | cons id ids ih =>
    obtain ⟨hperm, hknown, hreleased⟩ := ih (queue.push id due)
    refine ⟨hperm.trans ?_, hknown, hreleased⟩
    have hpush := (heappush_perm (due, id) queue.heap).map Prod.snd
    exact (hpush.append_left ids).trans List.perm_middle

/-- A record that is put back leaves the hand. -/
theorem Account.push {id : Bytes} (h : Account w (id :: hand)) (due : Int) :
    Account (ClaimLoop.push id due w) hand := by
  refine h.perm ?_ rfl rfl rfl fun i hi => h.popped i (List.mem_cons_of_mem _ hi)
  exact ((ids_push id due w).append_right hand).trans List.perm_middle.symm

theorem Account.held (h : Account w hand) (held : Dict Bytes (Int × Int)) :
    Account { w with held := held } hand :=
  h.perm .rfl rfl rfl rfl h.popped

theorem Account.add {id : Bytes} {queue : ClaimQueue} (h : Account w [])
    (hqueue : w.queue = queue) (hpopped : w.popped = []) (due : Int) :
    Account { w with queue := queue.add id due } [] := by
  subst hqueue
  rw [ClaimQueue.add]
  split
  · exact h
  · rename_i hnew
    have hperm : ({ w with queue := { w.queue.push id due with
        known := id :: w.queue.known } } : Worker).ids.Perm (id :: w.ids) := ids_push id due w
    -- the record is counted once more just if its place is new
    have hcount : ∀ i, (({ w with queue := { w.queue.push id due with
        known := id :: w.queue.known } } : Worker).ids ++ []).count i =
          (w.ids ++ []).count i + if i = id then 1 else 0 := by
      intro i
      rw [List.append_nil, List.append_nil, hperm.count_eq, List.count_cons]
      simp only [beq_iff_eq, eq_comm (a := id)]
    have hplace : ∀ i, (if i ∈ id :: w.queue.known then 1 else 0) =
        (if i ∈ w.queue.known then 1 else 0) + if i = id then 1 else 0 := by
      intro i
      by_cases hid : i = id
      · subst hid
        simp [hnew]
      · simp [hid]
    refine ⟨fun i => ?_, fun i hi => ?_, nofun, fun i hi => ?_, h.nodup⟩
    · rw [hcount, hplace]
      exact Nat.add_le_add_right (h.once i) _
    · rw [hcount, hplace, h.kept i hi]
    · rw [hpopped] at hi
      cases hi

theorem Account.addAll {ids : List Bytes} (h : Account w []) (hpopped : w.popped = [])
    (due : Int) : Account { w with queue := w.queue.addAll due ids } [] := by
  induction ids generalizing w with
  | nil => exact h
  | cons id ids ih => exact ih (h.add rfl hpopped due) hpopped

theorem popFrom_spec (released : List Bytes) (headHeight : Int) (limit : Nat) (heap : List Due) :
    (∀ id, id ∉ released → (ClaimQueue.popFrom released headHeight limit heap).1.count id +
        ((ClaimQueue.popFrom released headHeight limit heap).2.map Prod.snd).count id =
          (heap.map Prod.snd).count id) ∧
      (∀ id, (ClaimQueue.popFrom released headHeight limit heap).1.count id +
        ((ClaimQueue.popFrom released headHeight limit heap).2.map Prod.snd).count id ≤
          (heap.map Prod.snd).count id) ∧
      ∀ id ∈ (ClaimQueue.popFrom released headHeight limit heap).1, id ∉ released := by
  induction heap generalizing limit with
  | nil => exact ⟨fun _ _ => rfl, fun _ => le_rfl, nofun⟩
  | cons next heap ih =>
    obtain ⟨due, storageId⟩ := next
    rw [ClaimQueue.popFrom]
    split
    · split
      · rename_i hreleased
        obtain ⟨heq, hle, hfresh⟩ := ih limit
        refine ⟨fun id hid => ?_, fun id => ?_, hfresh⟩
        · have hne : storageId ≠ id := fun hcon => hid (hcon ▸ hreleased)
          rw [List.map_cons, List.count_cons_of_ne hne]
          exact heq id hid
        · rw [List.map_cons]
          exact (hle id).trans List.count_le_count_cons
      · rename_i hreleased
        obtain ⟨heq, hle, hfresh⟩ := ih (limit - 1)
        refine ⟨fun id hid => ?_, fun id => ?_, fun id hid => ?_⟩
        · have := heq id hid
          simp only [List.map_cons, List.count_cons]
          omega
        · have := hle id
          simp only [List.map_cons, List.count_cons]
          omega
        · rcases List.mem_cons.mp hid with rfl | hid
          · exact hreleased
          · exact hfresh id hid
    · exact ⟨fun id _ => by simp, fun id => by simp, nofun⟩

/-- What is popped is in hand. -/
theorem Account.pop (h : Account w []) (headHeight : Int) (limit : Nat)
    {popped : List Bytes × List Due}
    (hpop : popped = ClaimQueue.popFrom w.queue.released headHeight limit w.queue.heap) :
    Account { w with popped := popped.1, queue := { w.queue with heap := popped.2 } }
      popped.1 := by
  obtain ⟨heq, hle, hfresh⟩ := popFrom_spec w.queue.released headHeight limit w.queue.heap
  rw [← hpop] at heq hle hfresh
  have honce : ∀ id, ({ w with popped := popped.1, queue := { w.queue with heap := popped.2 } } :
      Worker).ids.count id + popped.1.count id ≤ w.ids.count id := fun id => by
    have := hle id
    simp only [Worker.ids, List.count_append]
    omega
  have hknown : ∀ id, 0 < w.ids.count id → id ∈ w.queue.known := fun id hpos => by
    have := h.once id
    rw [List.append_nil] at this
    by_contra hcon
    rw [if_neg hcon] at this
    omega
  refine ⟨fun id => ?_, fun id hid => ?_, fun id hid => hid, fun id hid => ⟨?_, hfresh id hid⟩, ?_⟩
  · have := h.once id
    rw [List.append_nil] at this
    rw [List.count_append]
    exact (honce id).trans this
  · have hkept := h.kept id hid
    have := heq id hid
    rw [List.append_nil] at hkept
    rw [List.count_append]
    refine Eq.trans ?_ hkept
    simp only [Worker.ids, List.count_append]
    omega
  · have := honce id
    have hpos : 0 < popped.1.count id := List.count_pos_iff.mpr hid
    exact hknown id (by omega)
  · refine List.nodup_iff_count_le_one.mpr fun id => ?_
    have := honce id
    have hone := (h.once id).trans (place_le_one w id)
    rw [List.append_nil] at hone
    change popped.1.count id ≤ 1
    omega

theorem Account.release (h : Account w []) (hpopped : w.popped = []) (id : Bytes) :
    Account { w with queue := { w.queue with released := id :: w.queue.released } } [] where
  once := h.once
  kept i hi := h.kept i fun hcon => hi (List.mem_cons_of_mem _ hcon)
  popped := nofun
  fresh i hi := by
    rw [hpopped] at hi
    cases hi
  nodup := h.nodup

theorem Account.filterPending (h : Account w []) (hpopped : w.popped = []) :
    Account { w with
      pending := w.pending.filter fun entry => entry.claim.storageId ∉ w.queue.released } [] := by
  have hcount : ∀ id entries, (((entries : List ClaimEntry).filter fun entry =>
      entry.claim.storageId ∉ w.queue.released).map (·.claim.storageId)).count id ≤
        (entries.map (·.claim.storageId)).count id := fun id entries =>
    (List.filter_sublist.map _).count_le id
  have hsame : ∀ id, id ∉ w.queue.released → ∀ entries,
      (((entries : List ClaimEntry).filter fun entry =>
        entry.claim.storageId ∉ w.queue.released).map (·.claim.storageId)).count id =
        (entries.map (·.claim.storageId)).count id := by
    intro id hid entries
    induction entries with
    | nil => rfl
    | cons entry entries ih =>
      by_cases hentry : entry.claim.storageId ∈ w.queue.released
      · have hne : entry.claim.storageId ≠ id := fun hcon => hid (hcon ▸ hentry)
        rw [List.filter_cons_of_neg (by simpa using hentry), List.map_cons,
          List.count_cons_of_ne hne, ih]
      · rw [List.filter_cons_of_pos (by simpa using hentry), List.map_cons, List.map_cons,
          List.count_cons, List.count_cons, ih]
  refine ⟨fun id => ?_, fun id hid => ?_, nofun, fun id hid => ?_, h.nodup⟩
  · refine le_trans ?_ (h.once id)
    have := hcount id w.pending
    simp only [Worker.ids, List.count_append, List.append_nil]
    omega
  · refine Eq.trans ?_ (h.kept id hid)
    have := hsame id hid w.pending
    simp only [Worker.ids, List.count_append, List.append_nil]
    omega
  · rw [hpopped] at hid
    cases hid

/-- The handler brings back what is in hand. -/
theorem Account.recover (h : Account w hand) (head : Head) : Whole (recover head w) := by
  obtain ⟨hperm, hknown, hreleased⟩ := pushAll_spec (head.height + orOne w.fair) w.queue
    (w.popped.filter (· ∉ w.ids))
  have hids : (ClaimLoop.recover head w).ids.Perm (w.popped.filter (· ∉ w.ids) ++ w.ids) := by
    have hrest := (hperm.append_right
      ((w.inFlight.elim [] InFlight.entries).map (·.claim.storageId))).append_right
        (w.pending.map (·.claim.storageId))
    refine List.Perm.trans hrest ?_
    rw [List.append_assoc, List.append_assoc, Worker.ids, List.append_assoc]
  have hcount : ∀ id, (ClaimLoop.recover head w).ids.count id =
      (w.popped.filter (· ∉ w.ids)).count id + w.ids.count id := fun id => by
    rw [hids.count_eq, List.count_append]
  have hpopped : ∀ id, id ∈ w.popped →
      (ClaimLoop.recover head w).ids.count id = if id ∈ w.queue.known then 1 else 0 := by
    intro id hid
    have hkept := h.kept id (h.fresh id hid).2
    rw [if_pos (h.fresh id hid).1, List.count_append] at hkept
    rw [if_pos (h.fresh id hid).1, hcount]
    by_cases hin : id ∈ w.ids
    · have hpos := List.count_pos_iff.mpr hin
      have hnot : (w.popped.filter (· ∉ w.ids)).count id = 0 :=
        List.count_eq_zero.mpr fun hcon => by simp [hin] at hcon
      omega
    · have hzero := List.count_eq_zero.mpr hin
      rw [List.count_filter (by simpa using hin), hzero,
        List.count_eq_one_of_mem h.nodup hid]
  have hother : ∀ id, id ∉ w.popped →
      (ClaimLoop.recover head w).ids.count id = (w.ids ++ hand).count id := by
    intro id hid
    have hnot : (w.popped.filter (· ∉ w.ids)).count id = 0 :=
      List.count_eq_zero.mpr fun hcon => hid (List.mem_filter.mp hcon).1
    have hhand : hand.count id = 0 := List.count_eq_zero.mpr fun hcon => hid (h.popped id hcon)
    rw [hcount, List.count_append, hnot, hhand, Nat.zero_add, Nat.add_zero]
  have hk : (ClaimLoop.recover head w).queue.known = w.queue.known := hknown
  have hr : (ClaimLoop.recover head w).queue.released = w.queue.released := hreleased
  refine ⟨fun id => ?_, fun id hid => ?_⟩
  · rw [hk]
    by_cases hin : id ∈ w.popped
    · exact (hpopped id hin).le
    · exact (hother id hin).le.trans (h.once id)
  · rw [hk]
    rw [hr] at hid
    by_cases hin : id ∈ w.popped
    · exact hpopped id hin
    · exact (hother id hin).trans (h.kept id hid)

theorem Account.whole (h : Account w []) : Whole w :=
  ⟨fun id => by simpa using h.once id, fun id hid => by simpa using h.kept id hid⟩

theorem Whole.account (h : Whole w) (hpopped : w.popped = []) : Account w [] where
  once id := by simpa using h.1 id
  kept id hid := by simpa using h.2 id hid
  popped := nofun
  fresh id hid := by
    rw [hpopped] at hid
    cases hid
  nodup := hpopped ▸ List.nodup_nil

end Accounts

section Steps

open Eff

variable (me : Bytes) (head : Head)

/-- A state that the handler can put right. -/
def Recoverable (w : Worker) : Prop := ∃ hand, Account w hand

/-- The records in hand, with the batches that are in flight and pending. -/
def Holding (hand : List Bytes) (flight : Option InFlight) (pending : List ClaimEntry)
    (w : Worker) : Prop :=
  Account w hand ∧ w.inFlight = flight ∧ w.pending = pending

variable {flight : Option InFlight} {pending : List ClaimEntry}

theorem Holding.recoverable {hand : List Bytes} {w : Worker} (h : Holding hand flight pending w) :
    Recoverable w := ⟨hand, h.1⟩

theorem readRecords_meets (retry : Int) (record : Bytes → Py (Option StorageRecord))
    (ids hand : List Bytes) :
    Meets (Holding (ids ++ hand) flight pending) (readRecords me retry record ids)
      (fun records => Holding (records.map Prod.fst ++ hand) flight pending) Recoverable := by
  induction ids generalizing hand with
  | nil => exact .pure fun w hw => hw
  | cons id ids ih =>
    rw [readRecords]
    split
    · exact .bind (.update fun w hw => ⟨(hw.1.push retry).held (w.held.erase id), hw.2⟩)
        fun _ => ih hand
    · exact .bind (.update fun w hw => ⟨(hw.1.push retry).held (w.held.erase id), hw.2⟩)
        fun _ => ih hand
    · split
      · exact .bind (.update fun w hw => ⟨hw.1.push retry, hw.2⟩) fun _ => ih hand
      · refine .bind (Q := fun _ => Holding (ids ++ id :: hand) flight pending)
          (.update fun w hw => ⟨?_, hw.2⟩) fun _ => .bind (ih (id :: hand)) fun records => ?_
        · exact (hw.1.reorder List.perm_middle).held _
        · exact .pure fun w hw => ⟨hw.1.reorder List.perm_middle.symm, hw.2⟩

theorem planRecords_meets (plan : Bytes → StorageRecord → Py (Option LaneChoice × Int))
    (records : List (Bytes × StorageRecord)) (hand : List Bytes) :
    Meets (Holding (records.map Prod.fst ++ hand) flight pending) (planRecords plan records)
      (fun plans => Holding (plans.map ClaimPlan.storageId ++ hand) flight pending)
      Recoverable := by
  induction records generalizing hand with
  | nil => exact .pure fun w hw => hw
  | cons first records ih =>
    obtain ⟨id, r⟩ := first
    rw [planRecords]
    refine .bind (Q := fun _ => Holding (id :: (records.map Prod.fst ++ hand)) flight pending)
      (.ofExcept (fun _ w _ hw => hw) fun w hw => hw.recoverable) fun answer => ?_
    split
    · exact .bind (.update fun w hw => ⟨hw.1.push _, hw.2⟩) fun _ => ih hand
    · exact .weaken (Holding (records.map Prod.fst ++ id :: hand) flight pending)
        (.bind (ih (id :: hand)) fun plans =>
          .pure fun w hw => ⟨hw.1.reorder List.perm_middle.symm, hw.2⟩)
        fun w hw => ⟨hw.1.reorder List.perm_middle, hw.2⟩

theorem readyPlans_sublist {c : Ctx} {blobs : Bytes → Option Bytes} {plans : List ClaimPlan}
    {readies : List ReadyPlan} (h : readyPlans c blobs plans = .ok readies) :
    (readies.map (·.plan.storageId)).Sublist (plans.map ClaimPlan.storageId) := by
  induction plans generalizing readies with
  | nil =>
    obtain rfl := Except.ok.inj h
    exact List.Sublist.slnil
  | cons plan plans ih =>
    obtain ⟨ready, hready, h⟩ := except_bind_eq_ok.mp h
    obtain ⟨rest, hrest, h⟩ := except_bind_eq_ok.mp h
    obtain rfl := Except.ok.inj h
    cases ready with
    | none => exact (ih hrest).cons _
    | some ready =>
      have hplan : ready.plan = plan := (readyPlan_spec hready).same
      rw [Option.toList_some, List.singleton_append, List.map_cons, List.map_cons, hplan]
      exact (ih hrest).cons_cons _

theorem buildEntries_sublist {c : Ctx} {paces : Nat → Pace} {maxNonces n : Nat}
    {readies : List ReadyPlan} {entries : List ClaimEntry}
    (h : buildEntries c me paces maxNonces n readies = .ok (some entries)) :
    (entries.map (·.claim.storageId)).Sublist (readies.map (·.plan.storageId)) := by
  induction readies generalizing n entries with
  | nil =>
    obtain rfl := Option.some.inj (Except.ok.inj h)
    exact List.Sublist.slnil
  | cons ready readies ih =>
    obtain ⟨first, hfirst, h⟩ := except_bind_eq_ok.mp h
    cases first with
    | none => cases h
    | some first =>
      dsimp only at h
      obtain ⟨rest, hrest, h⟩ := except_bind_eq_ok.mp h
      cases rest with
      | none => cases h
      | some rest =>
        obtain rfl := Option.some.inj (Except.ok.inj h)
        cases first with
        | none => exact (ih hrest).cons _
        | some entry =>
          obtain ⟨_, _, _, _, _, _, _, _, hentry⟩ := buildEntry_spec hfirst
          rw [Option.toList_some, List.singleton_append, List.map_cons, List.map_cons, hentry]
          exact (ih hrest).cons_cons _

theorem perm_of_sublist {built ids : List Bytes} (hids : ids.Nodup) (h : built.Sublist ids) :
    ids.Perm (ids.filter (· ∉ built) ++ built) := by
  refine (List.perm_ext_iff_of_nodup hids ?_).mpr fun id => ?_
  · refine (hids.filter _).append (hids.sublist h) fun id hid hbuilt => ?_
    simp [hbuilt] at hid
  · rw [List.mem_append, List.mem_filter]
    refine ⟨fun hid => ?_, fun hid => hid.elim And.left fun hid => h.subset hid⟩
    by_cases hbuilt : id ∈ built
    · exact .inr hbuilt
    · exact .inl ⟨hid, by simpa using hbuilt⟩

/-- What the step hands on is what it took, less what it queued again. -/
theorem claimStep_meets (a : StepAnswers) (ids : List Bytes) :
    Meets (Holding ids flight pending) (claimStep me head a ids)
      (fun entries => Holding (entries.map (·.claim.storageId)) flight pending) Recoverable := by
  have hsame : ∀ {α : Type} {hand : List Bytes} (x : Py α),
      Meets (Holding hand flight pending) (Eff.ofExcept x) (fun _ => Holding hand flight pending)
        Recoverable := fun x => .ofExcept (fun _ w _ hw => hw) fun w hw => hw.recoverable
  rw [claimStep]
  refine .bind (hsame a.interval) fun interval => .bind (hsame a.cost) fun _ => ?_
  refine .bind (Q := fun records => Holding (records.map Prod.fst) flight pending) ?_ fun records =>
    .bind (hsame a.budget) fun budget => ?_
  · have h : Meets (Holding (ids ++ []) flight pending)
        (readRecords me (head.height + orOne interval) a.record ids)
        (fun records => Holding (records.map Prod.fst ++ []) flight pending) Recoverable :=
      readRecords_meets me _ a.record ids []
    simpa only [List.append_nil] using h
  refine .bind (Q := fun plans => Holding (plans.map ClaimPlan.storageId) flight pending) ?_
    fun plans => ?_
  · have h : Meets (Holding (records.map Prod.fst ++ []) flight pending)
        (planRecords a.plan records)
        (fun plans => Holding (plans.map ClaimPlan.storageId ++ []) flight pending) Recoverable :=
      planRecords_meets a.plan records []
    simpa only [List.append_nil] using h
  split
  · rename_i hnone
    rw [hnone]
    exact .pure fun w hw => hw
  refine .bind (hsame a.blobs) fun blobs => .bind
    (Q := fun built w => buildClaims a.context me blobs a.paces budget plans = .ok built ∧
      Holding (plans.map ClaimPlan.storageId) flight pending w)
    (.ofExcept (fun _ w hx hw => ⟨hx, hw⟩) fun w hw => hw.recoverable) fun built => ?_
  split
  · exact .raise fun w hw => hw.2.recoverable
  · rename_i entries
    refine .bind (Q := fun _ => Holding (entries.map (·.claim.storageId)) flight pending)
      (.update fun w hw => ?_) fun _ => .pure fun w hw => hw
    obtain ⟨hbuilt, haccount, hflight, hpending⟩ := hw
    obtain ⟨readies, hready, hentries⟩ := except_bind_eq_ok.mp hbuilt
    have hsub := (buildEntries_sublist me hentries).trans (readyPlans_sublist hready)
    obtain ⟨hperm, hknown, hreleased⟩ := pushAll_spec (head.height + orOne interval) w.queue
      ((plans.map ClaimPlan.storageId).filter (· ∉ entries.map (·.claim.storageId)))
    refine ⟨haccount.perm ?_ hknown hreleased rfl fun id hid => ?_, hflight, hpending⟩
    · have hrest := (((hperm.append_right
        ((w.inFlight.elim [] InFlight.entries).map (·.claim.storageId))).append_right
          (w.pending.map (·.claim.storageId))).append_right (entries.map (·.claim.storageId)))
      refine List.Perm.trans hrest ?_
      have hall := perm_of_sublist haccount.hand_nodup hsub
      refine List.Perm.trans ?_ (hall.append_left w.ids).symm
      rw [Worker.ids]
      simp only [List.append_assoc]
      refine (List.perm_append_comm_assoc _ _ _).trans ?_
      refine List.Perm.append_left _ ?_
      refine (List.perm_append_comm_assoc _ _ _).trans ?_
      exact List.Perm.append_left _ (List.perm_append_comm_assoc _ _ _)
    · exact haccount.popped id (hsub.subset hid)

theorem splitFrom_flatten {claimBytes : ClaimEntry → Py Int} {current : List ClaimEntry}
    {size : Int} {entries : List ClaimEntry} {groups : List (List ClaimEntry)}
    (h : splitFrom claimBytes current size entries = .ok groups) :
    groups.flatten = current ++ entries := by
  induction entries generalizing current size groups with
  | nil =>
    rw [splitFrom] at h
    obtain rfl := Except.ok.inj h
    split
    · rename_i hnil
      rw [hnil]
      rfl
    · simp
  | cons entry entries ih =>
    obtain ⟨entrySize, -, h⟩ := except_bind_eq_ok.mp h
    split at h
    · obtain ⟨rest, hrest, h⟩ := except_bind_eq_ok.mp h
      obtain rfl := Except.ok.inj h
      rw [List.flatten_cons, ih hrest, List.singleton_append]
    · rw [ih h, List.append_assoc, List.singleton_append]

/-- A batch that is sent is in flight or queued again. -/
theorem sendEntries_ids (a : SendAnswers) (entries : List ClaimEntry) (counter : Option Int)
    (w : Worker) :
    (sendEntries head a entries counter w).ids.Perm
        (w.queue.heap.map Prod.snd ++ entries.map (·.claim.storageId) ++
          w.pending.map (·.claim.storageId)) ∧
      (sendEntries head a entries counter w).queue.known = w.queue.known ∧
      (sendEntries head a entries counter w).queue.released = w.queue.released ∧
      (sendEntries head a entries counter w).popped = w.popped := by
  have hflight : ∀ f, (sendBatch a entries counter).1 = some f → f.entries = entries := by
    intro f hf
    rw [sendBatch] at hf
    split at hf
    · cases hf
    split at hf
    · split at hf
      · cases hf
      · obtain rfl := Option.some.inj hf
        rfl
    · cases hf
  rcases hsend : sendBatch a entries counter with ⟨flight, txBytes⟩
  rw [hsend] at hflight
  cases flight with
  | some flight =>
    have hentries := hflight flight rfl
    simp only [sendEntries, hsend, Worker.ids, Option.elim_some, hentries]
    exact ⟨.rfl, trivial, trivial, trivial⟩
  | none =>
    obtain ⟨hperm, hknown, hreleased⟩ := pushAll_spec (head.height + orOne w.fair) w.queue
      (entries.map (·.claim.storageId))
    simp only [sendEntries, hsend, Worker.ids, Option.elim_none, List.map_nil, List.append_nil]
    exact ⟨(hperm.trans List.perm_append_comm).append_right _, hknown, hreleased, trivial⟩

/-- A state between two steps of a pass, before any record is popped. -/
def Idle (flight : Option InFlight) (w : Worker) : Prop :=
  Account w [] ∧ w.popped = [] ∧ w.inFlight = flight

theorem Idle.recoverable {w : Worker} (h : Idle flight w) : Recoverable w := ⟨[], h.1⟩

theorem release_meets (ids : List Bytes) :
    Meets (Idle flight) (release ids) (fun _ => Idle flight) Recoverable := by
  induction ids with
  | nil => exact .pure fun w hw => hw
  | cons id ids ih =>
    rw [release]
    refine .bind (Q := fun _ => Idle flight)
      (.update fun w hw => ⟨hw.1.release hw.2.1 id, hw.2⟩) fun _ => .bind .read fun w => ?_
    split
    · exact .raise fun w hw => hw.2.recoverable
    · exact .bind (Q := fun _ => Idle flight)
        (.update fun w hw => ⟨hw.2.1.held _, hw.2.2⟩) fun _ => ih

/-- Entries that are pending still, or in hand. -/
def Ready (entries : List ClaimEntry) (w : Worker) : Prop :=
  ∃ hand pending, Holding hand none pending w ∧
    pending.map (·.claim.storageId) ++ hand = entries.map (·.claim.storageId)

theorem Ready.recoverable {entries : List ClaimEntry} {w : Worker} (h : Ready entries w) :
    Recoverable w := by
  obtain ⟨hand, pending, hholding, -⟩ := h
  exact hholding.recoverable

theorem nextEntries_meets (a : PassAnswers) :
    Meets (Idle none) (nextEntries me head a) Ready Recoverable := by
  rw [nextEntries]
  refine .bind .read fun w => ?_
  split
  · refine .pure fun w' hw => ?_
    obtain ⟨rfl, haccount, -, hflight⟩ := hw
    exact ⟨[], _, ⟨haccount, hflight, rfl⟩, List.append_nil _⟩
  · rename_i hpending
    have hpending := not_not.mp hpending
    generalize hpop : ClaimQueue.popFrom w.queue.released head.height w.band.toNat
      w.queue.heap = popped
    refine .bind (Q := fun _ => Holding popped.1 none []) ?_ fun _ s hs => ?_
    · rintro w' ⟨rfl, haccount, -, hflight⟩
      exact ⟨haccount.pop head.height w.band.toNat hpop.symm, hflight, hpending⟩
    · have h := claimStep_meets me head a.step popped.1 s hs
      rcases hr : claimStep me head a.step popped.1 s with ⟨e | entries, t⟩
      · rw [hr] at h
        exact h
      · rw [hr] at h
        exact ⟨_, [], h, rfl⟩

theorem serve_meets (a : PassAnswers) :
    Meets (Idle none) (serve me head a) (fun _ => Whole) Recoverable := by
  rw [serve]
  refine .bind (Q := fun _ => Idle none)
    (.ofExcept (fun _ w _ hw => hw) fun w hw => hw.recoverable) fun released =>
    .bind (release_meets released) fun _ => .bind (Q := fun _ => Idle none)
      (.update fun w hw => ⟨hw.1.filterPending hw.2.1, hw.2⟩) fun _ =>
      .bind (nextEntries_meets me head a) fun entries => ?_
  refine .bind (Q := fun groups w => groups.flatten = entries ∧ Ready entries w)
    (.ofExcept (fun groups w hgroups hw => ⟨splitFrom_flatten hgroups, hw⟩)
      fun w hw => hw.recoverable) fun groups => ?_
  split
  · refine .pure fun w' hw => ?_
    obtain ⟨rfl, hand, pending, hholding, heq⟩ := hw
    obtain ⟨-, hhand⟩ := List.append_eq_nil_iff.mp heq
    rw [hhand] at hholding
    exact hholding.1.whole
  · rename_i group groups
    refine .update fun w' hw => ?_
    obtain ⟨hflatten, hand, pending, ⟨haccount, hflight, hpending⟩, heq⟩ := hw
    obtain ⟨hperm, hknown, hreleased, hpopped⟩ := sendEntries_ids head a.send group none
      { w' with pending := groups.flatten }
    refine Account.whole (haccount.perm ?_ hknown hreleased hpopped nofun)
    rw [List.append_nil]
    refine hperm.trans ?_
    simp only [Worker.ids, hflight, hpending, Option.elim_none, List.map_nil, List.append_nil,
      List.append_assoc]
    rw [heq, ← hflatten, List.flatten_cons, List.map_append]

theorem resolve_meets (a : PassAnswers) (flight : Option InFlight) :
    Meets (Idle flight) (resolve me head a) (fun _ => Whole) Recoverable := by
  rw [resolve]
  refine .bind .read fun w => ?_
  split
  · rename_i hnone
    refine .weaken (Idle none) (serve_meets me head a) fun w' hw => ?_
    obtain ⟨rfl, haccount, hpopped, -⟩ := hw
    exact ⟨haccount, hpopped, hnone⟩
  · rename_i f hsome
    split
    · exact .pure fun w' hw => hw.2.1.whole
    · refine .update fun w' hw => ?_
      obtain ⟨rfl, haccount, -, -⟩ := hw
      obtain ⟨hperm, hknown, hreleased, hpopped⟩ := sendEntries_ids head a.send f.entries
        (some f.counter) { w with band := bandAfterLoss w.band }
      refine Account.whole (haccount.perm ?_ hknown hreleased hpopped nofun)
      rw [List.append_nil, List.append_nil]
      refine hperm.trans ?_
      rw [Worker.ids, hsome]
      rfl
    · refine .bind (Q := fun _ => Idle (some f)) (.update fun w' hw => ?_) fun _ =>
        .bind (Q := fun _ => Idle (some f))
          (.ofExcept (fun _ w' _ hw => hw) fun w' hw => hw.recoverable) fun _ =>
          .bind (Q := fun _ => Idle none) (.update fun w' hw => ?_) fun _ => serve_meets me head a
      · obtain ⟨rfl, haccount, hpopped, -⟩ := hw
        exact ⟨haccount.perm .rfl rfl rfl rfl nofun, hpopped, hsome⟩
      · obtain ⟨haccount, hpopped, hflight⟩ := hw
        obtain ⟨hperm, hknown, hreleased⟩ := pushAll_spec head.height w'.queue
          (f.entries.map (·.claim.storageId))
        refine ⟨haccount.perm ?_ hknown hreleased rfl nofun, hpopped, rfl⟩
        rw [List.append_nil, List.append_nil, Worker.ids, Worker.ids, hflight]
        simp only [Option.elim_none, Option.elim_some, List.map_nil, List.append_nil]
        exact (hperm.trans List.perm_append_comm).append_right _

theorem passBody_meets (a : PassAnswers) (flight : Option InFlight) :
    Meets (Idle flight) (passBody me head a) (fun _ => Whole) Recoverable := by
  have hsame : ∀ {α : Type} (x : Py α),
      Meets (Idle flight) (Eff.ofExcept x) (fun _ => Idle flight) Recoverable :=
    fun x => .ofExcept (fun _ w _ hw => hw) fun w hw => hw.recoverable
  rw [passBody]
  refine .bind .read fun w => .weaken (Idle flight) ?_ fun w' hw => hw.2
  refine .bind (Q := fun _ => Idle flight) ?_ fun _ => .bind .read fun w =>
    .weaken (Idle flight) ?_ fun w' hw => hw.2
  · rw [Eff.when]
    split
    · refine .bind (hsame a.account) fun _ => ?_
      split
      · exact .update fun w hw => ⟨hw.1.perm .rfl rfl rfl rfl nofun, hw.2⟩
      · exact .update fun w hw => ⟨hw.1.perm .rfl rfl rfl rfl nofun, hw.2⟩
      · exact .raise fun w hw => hw.recoverable
    · exact .pure fun w hw => hw
  split
  · exact .pure fun w hw => hw.1.whole
  · refine .bind (Q := fun _ => Idle flight) (.update fun w hw => ?_) fun _ =>
      .bind (hsame a.fair) fun fair => .bind (Q := fun _ => Idle flight) (.update fun w hw => ?_)
        fun _ => resolve_meets me head a flight
    · exact ⟨(hw.1.addAll hw.2.1 head.height).addAll hw.2.1 head.height, hw.2⟩
    · exact ⟨hw.1.perm .rfl rfl rfl rfl nofun, hw.2⟩

/-- A pass keeps every record, whatever it meets. -/
theorem Whole.pass {w : Worker} (h : Whole w) (a : PassAnswers) : Whole (pass me a w) := by
  rw [ClaimLoop.pass]
  split
  · exact h
  · rename_i head hhead
    have hidle : Idle w.inFlight { w with popped := [], fair := none } :=
      ⟨Whole.account h rfl, rfl, rfl⟩
    have hbody := passBody_meets me head a w.inFlight _ hidle
    rcases hr : passBody me head a { w with popped := [], fair := none } with ⟨e | _, w'⟩
    · rw [hr] at hbody
      obtain ⟨hand, haccount⟩ := hbody
      exact haccount.recover head
    · rw [hr] at hbody
      exact hbody

end Steps

section Results

/-- The places of a record: how often it is queued, in flight and pending. -/
structure Places (w : Worker) (id : Bytes) (queued flying waiting : Nat) : Prop where
  queued : (w.queue.heap.map Prod.snd).count id = queued
  flying : ((w.inFlight.elim [] InFlight.entries).map (·.claim.storageId)).count id = flying
  waiting : (w.pending.map (·.claim.storageId)).count id = waiting

theorem whole_claimStorage (me : Bytes) (band inclusionDelay : Int) (answers : List PassAnswers) :
    Whole (claimStorage me band inclusionDelay answers) := by
  induction answers with
  | nil => exact ⟨fun id => Nat.zero_le _, fun id _ => rfl⟩
  | cons a answers ih => exact ih.pass me a

/-- Before every pass, whatever the passes before it met, a record that was added and not released
is queued, in flight or pending, and only one of these and once; and no record is in a transaction
twice. -/
theorem every_record_has_one_place (me : Bytes) (band inclusionDelay : Int)
    (answers : List PassAnswers) :
    (∀ id ∈ (claimStorage me band inclusionDelay answers).queue.known,
      id ∉ (claimStorage me band inclusionDelay answers).queue.released →
        Places (claimStorage me band inclusionDelay answers) id 1 0 0 ∨
          Places (claimStorage me band inclusionDelay answers) id 0 1 0 ∨
            Places (claimStorage me band inclusionDelay answers) id 0 0 1) ∧
      ∀ flight, (claimStorage me band inclusionDelay answers).inFlight = some flight →
        (flight.entries.map (·.claim.storageId)).Nodup := by
  obtain ⟨honce, hkept⟩ := whole_claimStorage me band inclusionDelay answers
  generalize claimStorage me band inclusionDelay answers = w at honce hkept
  constructor
  · intro id hknown hreleased
    have hone := hkept id hreleased
    rw [if_pos hknown, Worker.ids, List.count_append, List.count_append] at hone
    have hcases : ∀ q f p : Nat, q + f + p = 1 →
        q = 1 ∧ f = 0 ∧ p = 0 ∨ q = 0 ∧ f = 1 ∧ p = 0 ∨ q = 0 ∧ f = 0 ∧ p = 1 := by omega
    refine (hcases _ _ _ hone).imp ?_ (Or.imp ?_ ?_)
    all_goals exact fun ⟨hq, hf, hp⟩ => ⟨hq, hf, hp⟩
  · intro flight hflight
    refine List.nodup_iff_count_le_one.mpr fun id => ?_
    have hone := (honce id).trans (place_le_one w id)
    rw [Worker.ids, hflight, List.count_append, List.count_append] at hone
    simp only [Option.elim_some] at hone
    omega

end Results

end ClaimLoop

end Astreum
