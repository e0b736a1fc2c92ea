import Astreum.Apply

namespace Astreum

open Eff

variable {bad : PyError → Prop} {R : Ledger → Ledger → Prop} [IsPreorder Ledger R] {α : Type}

/-- Nested transactions that succeed are within `R`, and what the others do is taken back, unless
they end in a `bad` error that is not caught. -/
def NestedApply.Within (apply : NestedApply) (bad : PyError → Prop) (R : Ledger → Ledger → Prop) :
    Prop :=
  ∀ t hash l, match apply t hash l with
    | (.ok o, l') => o.status = .success → R l l'
    | (.error e, l') => e.isException ∨ bad e ∨ R l l'

/-- What a machine can do to the ledger, one kind of step at a time, is within `R`, unless it ends
in a `bad` error. No operator catches these. -/
structure Call.Within (call : Call) (apply : NestedApply) (bad : PyError → Prop)
    (R : Ledger → Ledger → Prop) : Prop where
  uncaught : ∀ e, bad e → errorValue e = none
  read : ∀ a, KeepsUnless bad R (getAccount call.ctx a)
  put : ∀ key value e, KeepsUnless bad R (accPut call key value e)
  counter : KeepsUnless bad R (takeCounter call)
  apply : apply.Within bad R

theorem within_onCore (x : Stateful Core α) : KeepsUnless bad (Along Machine.ledger R) (onCore x) :=
  Keeps.unless fun m => refl_of R m.ledger

omit [IsPreorder Ledger R] in
theorem within_onMachineLedger {x : Stateful Ledger α} (hx : KeepsUnless bad R x) :
    KeepsUnless bad (Along Machine.ledger R) (onMachineLedger x) :=
  KeepsUnless.zoom (fun _ _ => rfl) hx

theorem within_update {f : Machine → Machine} (hf : ∀ m, (f m).ledger = m.ledger) :
    KeepsUnless bad (Along Machine.ledger R) (Eff.update f : MachineOp) := by
  refine Keeps.unless fun m => ?_
  rw [update_apply, Along, hf]
  exact refl_of R m.ledger

section Operators

variable {call : Call} {apply : NestedApply}

/-- Whatever a nested transaction does, it stays or is taken back. -/
theorem within_applyOrRestore (h : apply.Within bad R) (t : Transaction) (hash : Bytes) :
    KeepsUnless bad R (applyOrRestore apply t hash) := by
  intro l
  rw [applyOrRestore, read_bind]
  have ht := h t hash l
  rcases hr : apply t hash l with ⟨e | outcome, l'⟩ <;> rw [hr] at ht
  · -- what an exception leaves is taken back, and nothing else is caught
    have hx : (some <$> apply t hash) l = (.error e, l') := bind_of_error hr _
    by_cases he : e.isException
    · have hcaught : exceptException (some <$> apply t hash) (pure none) l = (.ok none, l') := by
        simp [exceptException, Eff.handle, hx, he]
      rw [bind_of_ok hcaught]
      exact refl_of R l
    · have hraised : exceptException (some <$> apply t hash) (pure none) l = (.error e, l') := by
        simp [exceptException, Eff.handle, hx, he]
      rw [bind_of_error hraised]
      exact ht.resolve_left he
  · have hx : (some <$> apply t hash) l = (.ok (some outcome), l') := bind_of_ok hr _
    have hcaught : exceptException (some <$> apply t hash) (pure none) l =
        (.ok (some outcome), l') := by
      simp [exceptException, Eff.handle, hx]
    rw [bind_of_ok hcaught]
    by_cases hs : outcome.status = .success
    · simp only [hs, if_true]
      exact ht hs
    · simp only [hs, if_false]
      exact refl_of R l

variable (hw : call.Within apply bad R)

include hw

omit [IsPreorder Ledger R] in
theorem within_contractAccount : KeepsUnless bad (Along Machine.ledger R) (contractAccount call) :=
  within_onMachineLedger (hw.read _)

theorem within_handleStackAccBalance :
    KeepsUnless bad (Along Machine.ledger R) (handleStackAccBalance call) := by
  refine (within_contractAccount hw).bind fun account => ?_
  rcases account with _ | account
  · exact .raise _
  · exact within_onCore _

theorem within_handleStackAccGet : KeepsUnless bad (Along Machine.ledger R) (handleStackAccGet call) := by
  refine (within_onCore _).bind fun _ => (within_contractAccount hw).bind fun account => ?_
  rcases account with _ | account
  · exact .raise _
  · exact within_onCore _

theorem within_handleStackAccPut : KeepsUnless bad (Along Machine.ledger R) (handleStackAccPut call) :=
  (within_onCore _).bind fun _ => (within_onMachineLedger (hw.put _ _ _)).bind fun _ =>
    within_onCore _

omit hw in
theorem within_handleStackBlockBloomInsert :
    KeepsUnless bad (Along Machine.ledger R) (handleStackBlockBloomInsert call) := by
  refine (within_onCore _).bind fun _ => (within_onCore _).bind fun _ => ?_
  refine (KeepsUnless.ofExcept _).bind fun _ => .ite (.pure _) (KeepsUnless.read.bind fun _ => ?_)
  refine .ite (.pure _) (KeepsUnless.bind (within_update fun _ => ?_) fun _ => within_onCore _)
  rfl

theorem within_checkLogPayment (value : Expr) :
    KeepsUnless bad (Along Machine.ledger R) (checkLogPayment call value) := by
  refine .ite (.pure _) ((within_onMachineLedger (hw.read _)).bind fun sender => ?_)
  refine KeepsUnless.read.bind fun _ => (KeepsUnless.ofExcept _).bind fun fee => ?_
  rcases fee with _ | fee
  · exact .raise _
  rcases sender with _ | sender
  · exact .raise _
  · exact KeepsUnless.read.bind fun _ => .when (.raise _)

theorem within_handleStackTxLog : KeepsUnless bad (Along Machine.ledger R) (handleStackTxLog call) := by
  refine (within_onCore _).bind fun _ => (within_checkLogPayment hw _).bind fun _ => ?_
  refine (KeepsUnless.ofExcept _).bind fun fee => ?_
  rcases fee with _ | fee
  · exact .raise _
  · exact (within_onCore _).bind fun _ => within_update fun _ => rfl

theorem within_handleStackTxNew : KeepsUnless bad (Along Machine.ledger R) (handleStackTxNew call apply) := by
  refine (within_onCore _).bind fun _ => KeepsUnless.read.bind fun _ => ?_
  refine (within_onMachineLedger hw.counter).bind fun _ => (KeepsUnless.ofExcept _).bind fun _ => ?_
  refine (within_onCore _).bind fun _ => ?_
  refine (within_onMachineLedger (within_applyOrRestore hw.apply _ _)).bind fun outcome => ?_
  rcases outcome with _ | outcome
  · exact within_onCore _
  · refine KeepsUnless.bind (within_update fun _ => ?_) fun _ => ?_
    · rfl
    · exact (KeepsUnless.when (within_onCore _)).bind fun _ =>
        (KeepsUnless.when (within_onCore _)).bind fun _ => within_onCore _

theorem within_checkBlock (name : String) (blockId : Bytes) :
    KeepsUnless bad (Along Machine.ledger R) (checkBlock call name blockId) :=
  (within_onCore _).bind fun _ => (within_onMachineLedger (hw.read _)).bind fun _ =>
    .when (within_onCore _)

theorem within_followStoredRef (name : String) (blockId : Bytes) (cell : Expr) :
    KeepsUnless bad (Along Machine.ledger R) (followStoredRef call name blockId cell) := by
  refine (within_onCore _).bind fun target => ?_
  rcases target with _ | ⟨nextBlock, nextId⟩
  · exact .pure _
  · refine (within_checkBlock hw _ _).bind fun _ => .ite (.pure _) ?_
    exact (within_onCore _).bind fun _ => .pure _

theorem within_handleStackRef : KeepsUnless bad (Along Machine.ledger R) (handleStackRef call) := by
  refine (within_onCore _).bind fun _ => .ite ((within_onCore _).bind fun _ => ?_) ?_
  · exact (within_onCore _).bind fun _ => .pure _
  refine (within_checkBlock hw _ _).bind fun _ => (within_onCore _).bind fun _ => ?_
  refine (KeepsUnless.when (within_onCore _)).bind fun _ => KeepsUnless.bind ?_ fun _ => ?_
  · exact .ite (within_followStoredRef hw _ _ _) (.pure _)
  refine .ite (.ite ((within_onCore _).bind fun _ => .pure _) ?_) (within_onCore _)
  exact (KeepsUnless.ofExcept _).bind fun _ => (KeepsUnless.ofExcept _).bind fun _ =>
    (within_onCore _).bind fun _ => within_onCore _

theorem within_resolveCell (n : Nat) (blockId : Bytes) (follow : Bool) (cell : Expr) :
    KeepsUnless bad (Along Machine.ledger R) (resolveCell call n blockId follow cell) := by
  induction n generalizing blockId follow cell with
  | zero => exact .raise _
  | succ n ih =>
    refine .ite (.pure _) (KeepsUnless.bind ?_ fun _ => KeepsUnless.bind ?_ fun _ =>
      .ite (.pure _) ?_)
    -- the head, then the tail
    iterate 2
      · dsimp only
        split
        · exact .pure _
        · exact (ih _ _ _).map _
        · exact .ite (.pure _) ((within_onCore _).bind fun _ => (ih _ _ _).map _)
    refine (within_onCore _).bind fun _ => .ite (.pure _) ?_
    exact (within_followStoredRef hw _ _ _).bind fun _ => .ite (ih _ _ _) (.pure _)

theorem within_handleStackLoad : KeepsUnless bad (Along Machine.ledger R) (handleStackLoad call) := by
  refine (within_onCore _).bind fun _ => .ite ((within_onCore _).bind fun _ => ?_) ?_
  · exact (within_onCore _).bind fun _ => .pure _
  refine (within_checkBlock hw _ _).bind fun _ => (within_onCore _).bind fun _ => ?_
  refine (within_resolveCell hw _ _ _ _).bind fun _ => (KeepsUnless.ofExcept _).bind fun _ => ?_
  exact (within_onCore _).bind fun _ => within_onCore _

end Operators

section Control

variable {node : Node} {ev : Expr → MachineOp} (hev : ∀ e, KeepsUnless bad (Along Machine.ledger R) (ev e))

omit [IsPreorder Ledger R] in
theorem within_onStack (stack : List (Option Expr)) {x : MachineOp}
    (hx : KeepsUnless bad (Along Machine.ledger R) x) : KeepsUnless bad (Along Machine.ledger R) (onStack stack x) := by
  intro m
  have h := hx { m with core := { m.core with stack } }
  rw [onStack]
  rcases hr : x { m with core := { m.core with stack } } with ⟨_ | _, m'⟩ <;> rw [hr] at h <;>
    exact h

omit [IsPreorder Ledger R] in
theorem within_inEnv (env : Env) {x : MachineOp} (hx : KeepsUnless bad (Along Machine.ledger R) x) :
    KeepsUnless bad (Along Machine.ledger R) (inEnv env x) := by
  intro m
  have h := hx { m with core := { m.core with env } }
  rw [inEnv]
  rcases hr : x { m with core := { m.core with env } } with ⟨_ | _, m'⟩ <;> rw [hr] at h <;>
    exact h

include hev

theorem within_handleStackEval : KeepsUnless bad (Along Machine.ledger R) (handleStackEval ev) :=
  KeepsUnless.read.bind fun _ => (KeepsUnless.when (within_onCore _)).bind fun _ =>
    (within_onCore _).bind fun _ => (within_onCore _).bind fun _ => hev _

theorem within_handleStackDip : KeepsUnless bad (Along Machine.ledger R) (handleStackDip ev) :=
  (within_onCore _).bind fun _ => (within_onCore _).bind fun _ => (within_onCore _).bind fun _ =>
    (within_onCore _).bind fun _ => (within_onCore _).bind fun _ => (hev _).bind fun _ =>
      within_onCore _

theorem within_handleStackIf : KeepsUnless bad (Along Machine.ledger R) (handleStackIf node ev) := by
  refine (within_onCore _).bind fun _ => (within_onCore _).bind fun _ => ?_
  refine (within_onCore _).bind fun _ => (within_onCore _).bind fun _ => (hev _).bind fun _ => ?_
  refine (within_onCore _).bind fun _ => (within_onCore _).bind fun _ => ?_
  refine (within_onCore _).bind fun _ => (within_onCore _).bind fun _ => ?_
  exact (within_onCore _).bind fun _ => hev _

theorem within_recDown (pred thenBranch rec1 : Expr) (n count : Nat) :
    KeepsUnless bad (Along Machine.ledger R) (recDown node ev pred thenBranch rec1 n count) := by
  induction n generalizing count with
  | zero => exact .raise _
  | succ n ih =>
    refine (within_onCore _).bind fun _ => (hev _).bind fun _ => (within_onCore _).bind fun _ => ?_
    refine (within_onCore _).bind fun _ => (within_onCore _).bind fun _ => .ite ?_ ?_
    · exact (within_onCore _).bind fun _ => (hev _).bind fun _ => .pure _
    · exact (within_onCore _).bind fun _ => (hev _).bind fun _ => ih _

theorem within_recUp (rec2 : Expr) (n : Nat) :
    KeepsUnless bad (Along Machine.ledger R) (recUp ev rec2 n) := by
  induction n with
  | zero => exact .pure _
  | succ n ih => exact (within_onCore _).bind fun _ => (hev _).bind fun _ => ih

theorem within_handleStackRec (fuel : Nat) :
    KeepsUnless bad (Along Machine.ledger R) (handleStackRec node ev fuel) := by
  refine (within_onCore _).bind fun _ => (within_onCore _).bind fun _ => ?_
  refine (within_onCore _).bind fun _ => (within_onCore _).bind fun _ => ?_
  refine (within_onCore _).bind fun _ => (within_onCore _).bind fun _ => ?_
  refine (within_onCore _).bind fun _ => (within_recDown hev _ _ _ _ _).bind fun _ => ?_
  exact (within_onCore _).bind fun _ => within_recUp hev _ _

theorem within_handleStackMatch : KeepsUnless bad (Along Machine.ledger R) (handleStackMatch node ev) := by
  refine (within_onCore _).bind fun _ => (within_onCore _).bind fun _ => ?_
  refine (within_onCore _).bind fun _ => (within_onCore _).bind fun _ => ?_
  refine (within_onCore _).bind fun _ => (within_onCore _).bind fun _ => ?_
  refine (within_onCore _).bind fun _ => .ite ?_ ?_
  · exact (within_onCore _).bind fun _ => (within_onCore _).bind fun _ => hev _
  · exact (within_onCore _).bind fun _ => (within_onCore _).bind fun _ => hev _

theorem within_handleStackResult :
    KeepsUnless bad (Along Machine.ledger R) (handleStackResult node ev) := by
  refine KeepsUnless.read.bind fun _ => .ite ((within_onCore _).bind fun _ => .pure _) ?_
  refine (within_onCore _).bind fun _ => (within_onCore _).bind fun _ => .ite ?_ ?_
  · refine (within_onCore _).bind fun _ => .ite ?_ ?_
    · exact (within_onCore _).bind fun _ => .pure _
    · exact (within_onCore _).bind fun _ => .pure _
  · refine KeepsUnless.read.bind fun _ => .ite ?_ ?_
    · exact (within_onCore _).bind fun _ => (within_onCore _).bind fun _ => .pure _
    refine (within_onCore _).bind fun _ => (within_onCore _).bind fun _ => .ite ?_ ?_
    · exact (within_onCore _).bind fun _ => (within_onCore _).bind fun _ =>
        (within_onCore _).bind fun _ => .pure _
    · refine (within_onCore _).bind fun _ => .ite (within_onCore _) ?_
      exact (within_onCore _).bind fun _ => hev _

theorem within_handleStackApply : KeepsUnless bad (Along Machine.ledger R) (handleStackApply node ev) := by
  refine (within_onCore _).bind fun _ => (within_onCore _).bind fun _ => ?_
  refine (within_onCore _).bind fun _ => (within_onCore _).bind fun _ => ?_
  refine (within_onCore _).bind fun _ => (within_onCore _).bind fun _ => ?_
  refine (within_onCore _).bind fun _ => (within_onCore _).bind fun body => ?_
  refine (within_onStack _ (within_inEnv _ (hev body))).bind fun result => ?_
  rcases result with _ | ⟨top, rest⟩
  · exact .pure _
  · exact within_onCore _

theorem within_step (fn : Expr) (args : List Expr) :
    KeepsUnless bad (Along Machine.ledger R) (step ev fn args) := by
  refine (KeepsUnless.ofExcept _).bind fun _ => (within_onCore _).bind fun _ => ?_
  refine (within_onStack _ (hev fn)).bind fun result => ?_
  rcases result with _ | ⟨top, rest⟩
  · exact .pure _
  · exact within_onCore _

theorem within_eachItem (tag : String) (fn : Expr) (items : List Expr) :
    KeepsUnless bad (Along Machine.ledger R) (eachItem ev tag fn items) := by
  induction items with
  | nil => exact .pure _
  | cons item items ih =>
    exact (KeepsUnless.ofExcept _).bind fun _ => (within_onCore _).bind fun _ =>
      (within_step hev _ _).bind fun _ => ih

theorem within_handleStackEach : KeepsUnless bad (Along Machine.ledger R) (handleStackEach node ev) :=
  (within_onCore _).bind fun _ => (KeepsUnless.when (within_onCore _)).bind fun _ =>
    (within_onCore _).bind fun _ => (within_onCore _).bind fun _ =>
      (within_eachItem hev _ _ _).bind fun _ => within_onCore _

theorem within_mapItems (tag : String) (fn : Expr) (items : List Expr) :
    KeepsUnless bad (Along Machine.ledger R) (mapItems node ev tag fn items) := by
  induction items with
  | nil => exact .pure _
  | cons item items ih =>
    exact (KeepsUnless.ofExcept _).bind fun _ => (within_onCore _).bind fun _ =>
      (within_step hev _ _).bind fun _ => (within_onCore _).bind fun _ => ih.bind fun _ => .pure _

theorem within_handleStackMap : KeepsUnless bad (Along Machine.ledger R) (handleStackMap node ev) :=
  (within_onCore _).bind fun _ => (KeepsUnless.when (within_onCore _)).bind fun _ =>
    (within_onCore _).bind fun _ => (within_mapItems hev _ _ _).bind fun _ =>
      (within_onCore _).bind fun _ => (within_onCore _).bind fun _ => within_onCore _

theorem within_filterItems (tag : String) (fn : Expr) (items : List Expr) :
    KeepsUnless bad (Along Machine.ledger R) (filterItems node ev tag fn items) := by
  induction items with
  | nil => exact .pure _
  | cons item items ih =>
    refine (KeepsUnless.ofExcept _).bind fun _ => (within_onCore _).bind fun _ => ?_
    refine (within_step hev _ _).bind fun _ => (within_onCore _).bind fun _ => .ite ?_ ih
    exact ih.bind fun _ => .pure _

theorem within_handleStackFilter : KeepsUnless bad (Along Machine.ledger R) (handleStackFilter node ev) :=
  (within_onCore _).bind fun _ => (KeepsUnless.when (within_onCore _)).bind fun _ =>
    (within_onCore _).bind fun _ => (within_filterItems hev _ _ _).bind fun _ =>
      (within_onCore _).bind fun _ => (within_onCore _).bind fun _ => within_onCore _

theorem within_foldItems (tag : String) (fn : Expr) (items : List Expr) (acc : Expr) :
    KeepsUnless bad (Along Machine.ledger R) (foldItems ev tag fn items acc) := by
  induction items generalizing acc with
  | nil => exact .pure _
  | cons item items ih =>
    exact (KeepsUnless.ofExcept _).bind fun _ => (within_onCore _).bind fun _ =>
      (within_step hev _ _).bind fun _ => ih _

theorem within_handleStackFold : KeepsUnless bad (Along Machine.ledger R) (handleStackFold node ev) := by
  refine (within_onCore _).bind fun _ => (within_onCore _).bind fun _ => ?_
  refine (within_onCore _).bind fun _ => (within_onCore _).bind fun _ => ?_
  refine (within_onCore _).bind fun _ => (within_onCore _).bind fun _ => ?_
  refine (within_onCore _).bind fun _ => (within_onCore _).bind fun _ => ?_
  refine (within_onCore _).bind fun _ => (KeepsUnless.when (within_onCore _)).bind fun _ => ?_
  refine (within_onCore _).bind fun _ => (within_onCore _).bind fun _ => ?_
  exact (within_foldItems hev _ _ _ _).bind fun _ => within_onCore _

theorem within_findItem (tag : String) (fn : Expr) (items : List Expr) :
    KeepsUnless bad (Along Machine.ledger R) (findItem node ev tag fn items) := by
  induction items with
  | nil => exact .pure _
  | cons item items ih =>
    refine (KeepsUnless.ofExcept _).bind fun _ => (within_onCore _).bind fun _ => ?_
    refine (within_step hev _ _).bind fun _ => (within_onCore _).bind fun _ => .ite ?_ ih
    exact (within_onCore _).bind fun _ => .pure _

theorem within_handleStackFind : KeepsUnless bad (Along Machine.ledger R) (handleStackFind node ev) := by
  refine (within_onCore _).bind fun _ => (within_onCore _).bind fun _ => ?_
  refine (within_onCore _).bind fun _ => (within_onCore _).bind fun _ => ?_
  refine .ite ((within_onCore _).bind fun _ => .pure _) ((within_onCore _).bind fun _ => ?_)
  refine (within_onCore _).bind fun _ => (KeepsUnless.when (within_onCore _)).bind fun _ => ?_
  refine (within_onCore _).bind fun _ => (within_findItem hev _ _ _).bind fun found => ?_
  rcases found with _ | item
  · exact within_onCore _
  · exact within_onCore _

end Control

section Dispatch

variable (hbad : ∀ e, bad e → errorValue e = none)

include hbad

theorem within_catchErrors {push : Expr → MachineOp} {op : MachineOp}
    (hpush : ∀ e, KeepsUnless bad (Along Machine.ledger R) (push e))
    (hop : KeepsUnless bad (Along Machine.ledger R) op) :
    KeepsUnless bad (Along Machine.ledger R) (catchErrors push op) := by
  refine hop.handle (fun e he => by rw [hbad e he]) fun e => ?_
  split
  · exact hpush _
  · exact .raise _

theorem within_orNil {op : MachineOp} (hop : KeepsUnless bad (Along Machine.ledger R) op) :
    KeepsUnless bad (Along Machine.ledger R) (orNil op) := by
  refine hop.handle (fun e he => by rw [hbad e he]) fun e => ?_
  split
  · exact within_onCore _
  · exact .raise _

theorem within_bothM (name : String) {op : MachineOp} (hop : KeepsUnless bad (Along Machine.ledger R) op) :
    ∀ p ∈ bothM name op, KeepsUnless bad (Along Machine.ledger R) p.2 := by
  intro p hp
  simp only [bothM, List.mem_cons, List.not_mem_nil, or_false] at hp
  rcases hp with rfl | rfl
  · exact hop
  · exact within_catchErrors hbad (fun _ => within_onCore _) (hop.bind fun _ => within_onCore _)

omit hbad

variable {call : Call} {apply : NestedApply} (hw : call.Within apply bad R)

include hw

theorem within_blockOperators :
    ∀ p ∈ blockOperators call apply, KeepsUnless bad (Along Machine.ledger R) p.2 := by
  simp only [blockOperators, List.forall_mem_append, List.forall_mem_cons]
  refine ⟨⟨⟨within_onCore _, within_onCore _, within_onCore _, within_onCore _,
    within_handleStackBlockBloomInsert, ?_, within_handleStackAccBalance hw,
    within_handleStackAccGet hw, within_handleStackAccPut hw, within_onCore _, within_onCore _,
    within_onCore _, within_handleStackTxNew hw, within_handleStackTxLog hw, by simp⟩,
    within_bothM hw.uncaught _ (within_handleStackRef hw)⟩, within_bothM hw.uncaught _ (within_handleStackLoad hw)⟩
  exact within_catchErrors hw.uncaught (fun _ => within_onCore _)
    (within_handleStackBlockBloomInsert.bind fun _ => within_onCore _)

omit hw in
include hbad in
theorem within_controlOperators {node : Node} {ev : Expr → MachineOp}
    (hev : ∀ e, KeepsUnless bad (Along Machine.ledger R) (ev e)) (fuel : Nat) :
    ∀ p ∈ controlOperators node ev fuel, KeepsUnless bad (Along Machine.ledger R) p.2 := by
  simp only [controlOperators, List.forall_mem_append, List.forall_mem_cons]
  exact ⟨⟨⟨⟨⟨⟨⟨⟨⟨⟨within_bothM hbad _ (within_handleStackEval hev),
    within_bothM hbad _ (within_handleStackDip hev)⟩, within_bothM hbad _ (within_handleStackIf hev)⟩,
    within_bothM hbad _ (within_handleStackRec hev fuel)⟩,
    within_bothM hbad _ (within_handleStackApply hev)⟩, within_bothM hbad _ (within_handleStackMap hev)⟩,
    within_bothM hbad _ (within_handleStackFilter hev)⟩, within_bothM hbad _ (within_handleStackEach hev)⟩,
    within_bothM hbad _ (within_handleStackFold hev)⟩, within_bothM hbad _ (within_handleStackFind hev)⟩,
    within_handleStackMatch hev, within_handleStackResult hev, by simp⟩

theorem within_applyOperator {ev : Expr → MachineOp}
    (hev : ∀ e, KeepsUnless bad (Along Machine.ledger R) (ev e)) {fuel : Nat} {name : String}
    {op : MachineOp} (h : applyOperator call apply ev fuel name = some op) :
    KeepsUnless bad (Along Machine.ledger R) op := by
  rw [applyOperator] at h
  split at h
  · obtain rfl := Option.some.inj h
    exact within_onCore _
  · split at h
    · obtain rfl := Option.some.inj h
      exact within_onCore _
    · split at h
      · obtain rfl := Option.some.inj h
        exact within_blockOperators hw _ (mem_of_lookupPair ‹_›)
      · exact within_controlOperators hw.uncaught hev fuel _ (mem_of_lookupPair h)

/-- A run of a machine keeps what each of its steps on the ledger keeps. -/
theorem within_evaluation (n : Nat) (e : Expr) :
    KeepsUnless bad (Along Machine.ledger R) (evaluation call apply n e) := by
  induction n generalizing e with
  | zero => exact .raise _
  | succ n ih =>
    have hchild : ∀ ch, KeepsUnless bad (Along Machine.ledger R) (evalChild (evaluation call apply n) ch) := by
      intro ch
      cases ch with
      | loaded e => exact ih e
      | none => exact .pure _
      | byHash h => exact .pure _
    cases e with
    | nil => exact .pure _
    | symbol s =>
      rw [evaluation]
      split
      · exact within_orNil hw.uncaught (within_applyOperator hw ih ‹_›)
      · exact within_onCore _
    | bytes b => exact within_onCore _
    | bytesOf e => exact within_onCore _
    | link v h t =>
      refine .ite (within_onCore _) (.ite (within_onCore _) ?_)
      exact (hchild h).bind fun _ => hchild t

/-- A run of a contract keeps it too, or the ledger is the snapshot again. -/
theorem within_runContract (program : Expr) (snapshot : Ledger) :
    Spec (R snapshot) (runContract call apply program snapshot) (fun _ => R snapshot)
      fun e l => bad e ∨ R snapshot l := by
  intro l h
  have hrun := within_evaluation hw call.ctx.node.fuel (link call.tx.data program)
    (newMachine l call.tx.costLimit call.tx)
  rw [runContract]
  rcases hr : evaluation call apply call.ctx.node.fuel (link call.tx.data program)
    (newMachine l call.tx.costLimit call.tx) with ⟨e | _, m⟩ <;> rw [hr] at hrun
  · have hm : bad e ∨ R snapshot m.ledger := hrun.imp_right (trans_of R h)
    cases e with
    | meterExceeded => exact refl_of R snapshot
    | runtimeError => exact refl_of R snapshot
    | _ => exact hm
  · exact trans_of R h hrun

end Dispatch

end Astreum
