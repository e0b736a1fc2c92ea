import Astreum.Rollback
import Astreum.Sorted

namespace Astreum

open Core

section Results

/-- The machine with another stack. -/
def Machine.withStack (m : Machine) (stack : List (Option Expr)) : Machine :=
  { m with core := { m.core with stack } }

def Machine.pushed (m : Machine) (e : Expr) : Machine := m.withStack (some e :: m.core.stack)

/-- The result `(v . ok)` of a value. -/
def okResult (v : Option Expr) : Expr := .link .none (childOf v) (.loaded (.symbol "ok"))

variable {op : MachineOp} {m m' : Machine}

theorem withResultM_of_ok {v : Option Expr} {rest : List (Option Expr)}
    (h : op m = (.ok (), m')) (hstack : m'.core.stack = v :: rest) :
    withResultM op m = (.ok (), m'.withStack (some (okResult v) :: rest)) := by
  simp only [withResultM, catchErrors, Eff.handle, bind, Eff.andThen, h]
  simp [onCore, Eff.zoom, popRaw, bind, Eff.andThen, hstack, Machine.withStack, okResult, push,
    pushRaw]

theorem withNilM_of_ok (h : op m = (.ok (), m')) :
    withNilM op m = (.ok (), m'.pushed (link .nil (.symbol "ok"))) := by
  simp only [withNilM, catchErrors, Eff.handle, bind, Eff.andThen, h]
  rfl

theorem catchErrors_of_error {e : PyError} {value : Expr} (h : op m = (.error e, m'))
    (hvalue : errorValue e = some value) :
    catchErrors (fun e => onCore (push e)) op m = (.ok (), m'.pushed value) := by
  simp only [catchErrors, Eff.handle, h, hvalue]
  rfl

theorem catchErrors_of_raise {e : PyError} (h : op m = (.error e, m'))
    (hvalue : errorValue e = none) :
    catchErrors (fun e => onCore (push e)) op m = (.error e, m') := by
  simp only [catchErrors, Eff.handle, h, hvalue]
  rfl

theorem catchErrors_onCore (op : CoreOp) :
    onCore (catchErrors push op) = catchErrors (fun e => onCore (push e)) (onCore op) := by
  funext m
  simp only [onCore, Eff.zoom, catchErrors, Eff.handle]
  rcases op m.core with ⟨- | u, core⟩
  · rename_i e
    simp only
    rcases errorValue e with - | value
    · rfl
    · rfl
  · rfl

theorem onCore_bind {α β : Type} (x : Stateful Core α) (f : α → Stateful Core β) :
    onCore (x >>= f) = (onCore x >>= fun a => onCore (f a)) := by
  funext m
  simp only [onCore, Eff.zoom, bind, Eff.andThen]
  rcases x m.core with ⟨- | a, core⟩
  · rfl
  · rfl

theorem onCore_withResult (op : CoreOp) : onCore (withResult op) = withResultM (onCore op) := by
  rw [withResult, catchErrors_onCore, onCore_bind, withResultM]
  rfl

theorem onCore_withNil (op : CoreOp) : onCore (withNil op) = withNilM (onCore op) := by
  rw [withNil, catchErrors_onCore, onCore_bind, withNilM]

end Results

section Tables

/-- The checked form of an operator, which leaves a value or does not. -/
def checkedForm (op : MachineOp) (value : Bool) : MachineOp :=
  if value then withResultM op else withNilM op

/-- The operators that leave nothing on the stack. -/
def valueless : List String := ["drop", "def", "block.bloom.insert"]

variable (call : Call) (apply : NestedApply) (ev : Expr → MachineOp) (n : Nat)

/-- All the operators that no mode blocks. -/
def operators : List (String × MachineOp) :=
  ((coreOperators call.ctx.node).map fun row => (row.1, onCore row.2)) ++
    (blockOperators call apply ++ controlOperators call.ctx.node ev n)

def coreEntries (node : Node) : List (String × CoreOp × Bool) :=
  [("+", handleStackAdd node, true), ("-", handleStackSub node, true), ("*", handleStackMul
    node, true), ("/", handleStackDiv node, true), ("%", handleStackMod node, true),
    ("sqrt", handleStackSqrt node, true), ("abs", handleStackAbs node, true), ("&",
    handleStackAnd node, true), ("|", handleStackOr node, true), ("^", handleStackXor node,
    true), ("~", handleStackNot node, true), ("<<", handleStackShift node, true), ("<<<",
    handleStackRotate node, true), ("<", handleStackLessThan node, true), (">",
    handleStackGreaterThan node, true), ("<=", handleStackLessThanOrEqual node, true),
    (">=", handleStackGreaterThanOrEqual node, true), ("drop", handleStackDrop, false),
    ("dup", handleStackDup, true), ("swap", handleStackSwap, true), ("rot", handleStackRot,
    true), ("concat", handleStackConcat node, true), ("split", handleStackSplit node, true),
    ("index", handleStackIndex node, true), ("count", handleStackCount node, true),
    ("reverse", handleStackReverse node, true), ("zip", handleStackZip node, true), ("str",
    handleStackStr node, true), ("int", handleStackInt node, true), ("bytes",
    handleStackBytes node, true), ("e4m3", handleStackE4m3 node, true), ("e5m2",
    handleStackE5m2 node, true), ("fp16", handleStackFp16 node, true), ("bf16",
    handleStackBf16 node, true), ("fp32", handleStackFp32 node, true), ("fp64",
    handleStackFp64 node, true), ("def", handleStackDef node, false), ("closure",
    handleStackClosure node, true), ("link", handleStackLink, true), ("head",
    handleStackHead node, true), ("tail", handleStackTail node, true), ("is_eq",
    handleStackIsEq node, true), ("symbol", handleStackSymbol node, true), ("quote",
    handleStackQuote, true), ("type", handleStackType node, true), ("parse",
    handleStackParse node, true), ("init", handleStackInit node, true), ("id", handleStackId
    node, true)]

def coreRows (entry : String × CoreOp × Bool) : List (String × CoreOp) :=
  if entry.2.2 then both entry.1 entry.2.1 else bothNil entry.1 entry.2.1

theorem coreRows_true (name : String) (op : CoreOp) : coreRows (name, op, true) = both name op :=
  rfl

theorem coreRows_false (name : String) (op : CoreOp) :
    coreRows (name, op, false) = bothNil name op := rfl

theorem coreOperators_eq (node : Node) :
    coreOperators node = (coreEntries node).flatMap coreRows ++
      [("is", handleStackIs node), ("ok", handleStackOk), ("err", handleStackErr)] := by
  delta coreOperators
  simp only [coreEntries, List.flatMap_cons, List.flatMap_nil, coreRows_true, coreRows_false,
    List.append_assoc, List.nil_append]

/-- The names of the operators on the stack alone that have a checked form. -/
def coreNames : List String :=
  ["+", "-", "*", "/", "%", "sqrt", "abs", "&", "|", "^", "~", "<<", "<<<", "<", ">", "<=",
    ">=", "drop", "dup", "swap", "rot", "concat", "split", "index", "count", "reverse",
    "zip", "str", "int", "bytes", "e4m3", "e5m2", "fp16", "bf16", "fp32", "fp64", "def",
    "closure", "link", "head", "tail", "is_eq", "symbol", "quote", "type", "parse", "init",
    "id"]

/-- The names of the operators that have a checked form. -/
def checkedNames : List String :=
  coreNames ++ ["block.bloom.insert", "ref", "load", "eval", "dip", "if", "rec", "apply", "map",
    "filter", "each", "fold", "find"]

/-- The names of the operators that have none. -/
def plainNames : List String :=
  ["is", "ok", "err", "block.chain_id", "block.height", "block.previous_block_hash",
    "block.timestamp", "acc.balance", "acc.get", "acc.put", "tx.amount", "tx.recipient",
    "tx.sender", "tx.new", "tx.log", "match", "result"]

theorem coreEntries_names (node : Node) : (coreEntries node).map (fun entry =>
    (entry.1, entry.2.2)) = coreNames.map fun name => (name, decide (name ∉ valueless)) := by
  have hflags : coreNames.map (fun name => (name, decide (name ∉ valueless))) =
      [("+", true), ("-", true), ("*", true), ("/", true), ("%", true), ("sqrt", true),
        ("abs", true), ("&", true), ("|", true), ("^", true), ("~", true), ("<<", true),
        ("<<<", true), ("<", true), (">", true), ("<=", true), (">=", true), ("drop",
        false), ("dup", true), ("swap", true), ("rot", true), ("concat", true), ("split",
        true), ("index", true), ("count", true), ("reverse", true), ("zip", true), ("str",
        true), ("int", true), ("bytes", true), ("e4m3", true), ("e5m2", true), ("fp16",
        true), ("bf16", true), ("fp32", true), ("fp64", true), ("def", false), ("closure",
        true), ("link", true), ("head", true), ("tail", true), ("is_eq", true), ("symbol",
        true), ("quote", true), ("type", true), ("parse", true), ("init", true), ("id",
        true)] := by decide
  exact hflags.symm

def blockNames : List String :=
  ["block.chain_id", "block.height", "block.previous_block_hash", "block.timestamp",
    "block.bloom.insert", "block.bloom.insert?", "acc.balance", "acc.get", "acc.put", "tx.amount",
    "tx.recipient", "tx.sender", "tx.new", "tx.log", "ref", "ref" ++ "?", "load", "load" ++ "?"]

def controlNames : List String :=
  ["eval", "dip", "if", "rec", "apply", "map", "filter", "each", "fold", "find"].flatMap
    (fun name => [name, name ++ "?"]) ++ ["match", "result"]

/-- An operator of the tables under a name without a question mark, or a checked form of one. -/
def Listed (row : String × MachineOp) : Prop :=
  row.1 ∈ plainNames ++ checkedNames ∨
    ∃ name op, (name, op) ∈ operators call apply ev n ∧
      row = (name ++ "?", checkedForm op (decide (name ∉ valueless)))

theorem listed_plain {name : String} (op : MachineOp) (h : name ∈ plainNames ++ checkedNames) :
    Listed call apply ev n (name, op) := .inl h

theorem mem_coreEntries {node : Node} {entry : String × CoreOp × Bool}
    (h : entry ∈ coreEntries node) :
    entry.1 ∈ coreNames ∧ entry.2.2 = decide (entry.1 ∉ valueless) := by
  have hmem : (entry.1, entry.2.2) ∈ (coreEntries node).map fun entry => (entry.1, entry.2.2) :=
    List.mem_map.mpr ⟨entry, h, rfl⟩
  rw [coreEntries_names] at hmem
  obtain ⟨name, hname, heq⟩ := List.mem_map.mp hmem
  obtain ⟨hfst, hsnd⟩ := Prod.mk.inj heq
  subst hfst
  exact ⟨hname, hsnd.symm⟩

theorem mem_operators_core {row : String × CoreOp} (h : row ∈ coreOperators call.ctx.node) :
    (row.1, onCore row.2) ∈ operators call apply ev n :=
  List.mem_append_left _ (List.mem_map.mpr ⟨row, h, rfl⟩)

theorem listed_core {row : String × CoreOp} (h : row ∈ coreOperators call.ctx.node) :
    Listed call apply ev n (row.1, onCore row.2) := by
  rw [coreOperators_eq] at h
  rcases List.mem_append.mp h with h | h
  · obtain ⟨⟨name, op, value⟩, hentry, hrow⟩ := List.mem_flatMap.mp h
    obtain ⟨hname, hvalue⟩ := mem_coreEntries hentry
    have hplain : name ∈ plainNames ++ checkedNames :=
      List.mem_append_right _ (List.mem_append_left _ hname)
    have hop : (name, op) ∈ coreOperators call.ctx.node := by
      rw [coreOperators_eq]
      refine List.mem_append_left _ (List.mem_flatMap.mpr ⟨_, hentry, ?_⟩)
      cases value <;> exact List.mem_cons_self
    have hmem := mem_operators_core call apply ev n hop
    cases value with
    | true =>
      rcases List.mem_cons.mp hrow with rfl | hrow
      · exact .inl hplain
      · rw [List.mem_singleton.mp hrow]
        refine .inr ⟨name, onCore op, hmem, ?_⟩
        rw [← hvalue, onCore_withResult]
        rfl
    | false =>
      rcases List.mem_cons.mp hrow with rfl | hrow
      · exact .inl hplain
      · rw [List.mem_singleton.mp hrow]
        refine .inr ⟨name, onCore op, hmem, ?_⟩
        rw [← hvalue, onCore_withNil]
        rfl
  · have hname : row.1 ∈ ["is", "ok", "err"] := List.mem_map.mpr ⟨row, h, rfl⟩
    exact .inl (List.mem_append_left _ (List.mem_append_left ["block.chain_id", "block.height",
      "block.previous_block_hash", "block.timestamp", "acc.balance", "acc.get", "acc.put",
      "tx.amount", "tx.recipient", "tx.sender", "tx.new", "tx.log", "match", "result"] hname))

/-- The two rows of an operator that leaves a value. -/
theorem listed_bothM {name : String} {op : MachineOp} {row : String × MachineOp}
    (hname : name ∈ checkedNames ∧ name ∉ valueless) (hop : (name, op) ∈ operators call apply ev n)
    (h : row ∈ bothM name op) : Listed call apply ev n row := by
  rcases List.mem_cons.mp h with rfl | h
  · exact .inl (List.mem_append_right _ hname.1)
  · rw [List.mem_singleton.mp h]
    refine .inr ⟨name, op, hop, ?_⟩
    rw [decide_eq_true hname.2]
    rfl

theorem listed_block {row : String × MachineOp} (h : row ∈ blockOperators call apply) :
    Listed call apply ev n row := by
  have hsub : ∀ row ∈ blockOperators call apply, row ∈ operators call apply ev n :=
    fun row hrow => List.mem_append_right _ (List.mem_append_left _ hrow)
  delta blockOperators at h hsub
  rcases List.mem_append.mp h with h | h
  · rcases List.mem_append.mp h with h | h
    · have hinsert := hsub ("block.bloom.insert", handleStackBlockBloomInsert call) (by simp)
      simp only [List.mem_cons, List.not_mem_nil, or_false] at h
      rcases h with rfl | rfl | rfl | rfl | rfl | rfl | h
      iterate 5 exact listed_plain call apply ev n _ (by decide)
      · exact .inr ⟨"block.bloom.insert", handleStackBlockBloomInsert call, hinsert, rfl⟩
      · rcases h with rfl | rfl | rfl | rfl | rfl | rfl | rfl | rfl <;>
          exact listed_plain call apply ev n _ (by decide)
    · refine listed_bothM call apply ev n (by decide) (hsub _ ?_) h
      exact List.mem_append_left _ (List.mem_append_right _ List.mem_cons_self)
  · refine listed_bothM call apply ev n (by decide) (hsub _ ?_) h
    exact List.mem_append_right _ List.mem_cons_self

theorem listed_control {row : String × MachineOp}
    (h : row ∈ controlOperators call.ctx.node ev n) : Listed call apply ev n row := by
  have hsub : ∀ row ∈ controlOperators call.ctx.node ev n, row ∈ operators call apply ev n :=
    fun row hrow => List.mem_append_right _ (List.mem_append_right _ hrow)
  delta controlOperators at h hsub
  have hboth : ∀ name op, name ∈ checkedNames ∧ name ∉ valueless → row ∈ bothM name op →
      (∀ row ∈ bothM name op, row ∈ operators call apply ev n) → Listed call apply ev n row :=
    fun name op hname hrow hop => listed_bothM call apply ev n hname (hop _ List.mem_cons_self) hrow
  simp only [List.forall_mem_append] at hsub
  simp only [List.mem_append] at h
  obtain ⟨⟨⟨⟨⟨⟨⟨⟨⟨⟨heval, hdip⟩, hif⟩, hrec⟩, happly⟩, hmap⟩, hfilter⟩, heach⟩, hfold⟩, hfind⟩,
    -⟩ := hsub
  rcases h with (((((((((h | h) | h) | h) | h) | h) | h) | h) | h) | h) | h
  · exact hboth _ _ (by decide) h heval
  · exact hboth _ _ (by decide) h hdip
  · exact hboth _ _ (by decide) h hif
  · exact hboth _ _ (by decide) h hrec
  · exact hboth _ _ (by decide) h happly
  · exact hboth _ _ (by decide) h hmap
  · exact hboth _ _ (by decide) h hfilter
  · exact hboth _ _ (by decide) h heach
  · exact hboth _ _ (by decide) h hfold
  · exact hboth _ _ (by decide) h hfind
  · simp only [List.mem_cons, List.not_mem_nil, or_false] at h
    rcases h with rfl | rfl <;> exact listed_plain call apply ev n _ (by decide)

theorem nodup_operators : ((operators call apply ev n).map Prod.fst).Nodup := by
  have hcore : (coreOperators call.ctx.node).map Prod.fst =
      coreNames.flatMap (fun name => [name, name ++ "?"]) ++ ["is", "ok", "err"] := by
    have hrows : ∀ entries : List (String × CoreOp × Bool),
        (entries.flatMap coreRows).map Prod.fst =
          (entries.map Prod.fst).flatMap fun name => [name, name ++ "?"] := by
      intro entries
      induction entries with
      | nil => rfl
      | cons entry entries ih =>
        obtain ⟨name, op, value⟩ := entry
        rw [List.flatMap_cons, List.map_append, ih, List.map_cons, List.flatMap_cons]
        cases value <;> rfl
    rw [coreOperators_eq, List.map_append, hrows]
    rfl
  have hfst : ((coreOperators call.ctx.node).map fun row => (row.1, onCore row.2)).map Prod.fst =
      (coreOperators call.ctx.node).map Prod.fst := by
    rw [List.map_map]
    rfl
  rw [operators, List.map_append, hfst, hcore]
  have hclosed : (coreNames.flatMap (fun name => [name, name ++ "?"]) ++ ["is", "ok", "err"] ++
      (blockNames ++ controlNames)).Nodup := by decide +kernel
  exact hclosed

/-- An operator that no mode blocks is in the tables. -/
theorem applyOperator_eq {name : String} (h : name ∉ blockedOperators) :
    applyOperator call apply ev n name = lookupPair name (operators call apply ev n) := by
  rw [applyOperator, if_neg h, operators, lookupPair_append, lookupPair_append,
    lookupPair_map_snd]
  rcases lookupPair name (coreOperators call.ctx.node) with - | op
  · rcases lookupPair name (blockOperators call apply) with - | op
    · rfl
    · rfl
  · rfl

theorem getLast?_checked (name : String) : (name ++ "?").toList.getLast? = some '?' := by
  rw [String.toList_append]
  exact List.getLast?_concat ..

theorem append_left_inj_checked {name name' : String} (h : name ++ "?" = name' ++ "?") :
    name = name' := by
  have hlist := congrArg String.toList h
  rw [String.toList_append, String.toList_append] at hlist
  exact String.toList_inj.mp (List.append_cancel_right hlist)

/-- The operator under a name that ends in a question mark is the checked form of the one
without. -/
theorem lookupPair_checked {name : String} {op op' : MachineOp}
    (hop : lookupPair name (operators call apply ev n) = some op)
    (hop' : lookupPair (name ++ "?") (operators call apply ev n) = some op') :
    op' = checkedForm op (decide (name ∉ valueless)) := by
  have hlisted : Listed call apply ev n (name ++ "?", op') := by
    rcases List.mem_append.mp (mem_of_lookupPair hop') with h | h
    · obtain ⟨row, hrow, heq⟩ := List.mem_map.mp h
      rw [← heq]
      exact listed_core call apply ev n hrow
    rcases List.mem_append.mp h with h | h
    · exact listed_block call apply ev n h
    · exact listed_control call apply ev n h
  rcases hlisted with hplain | ⟨name', op₀, hmem, heq⟩
  · have hall : ∀ name ∈ plainNames ++ checkedNames, name.toList.getLast? ≠ some '?' := by
      decide
    exact absurd (getLast?_checked name) (hall _ hplain)
  · obtain ⟨hname, hform⟩ := Prod.mk.inj heq
    rw [← append_left_inj_checked hname] at hmem hform
    have hsame := lookupPair_of_mem (nodup_operators call apply ev n) hmem
    rw [hop] at hsame
    rw [hform, ← Option.some.inj hsame]

end Tables

section Modes

/-- The text of an error value. -/
def errorMessage : PyError → Option String
  | .opError message => some message
  | .indexError => some "stack underflow"
  | _ => none

theorem errorValue_eq (e : PyError) :
    errorValue e = (errorMessage e).map fun message => link (str_ message) (.symbol "err") := by
  cases e <;> rfl

abbrev Ran := Except PyError Unit × Machine

/-- What the two forms of an operator do on a machine: `plain` is the form without a question mark
as the evaluator runs it. -/
structure FormsAgree (name : String) (op : MachineOp) (m : Machine) (plain checked : Ran) :
    Prop where
  value : name ∉ valueless → ∀ m' v rest, op m = (.ok (), m') → m'.core.stack = v :: rest →
    plain = (.ok (), m') ∧ checked = (.ok (), m'.withStack (some (okResult v) :: rest))
  done : name ∈ valueless → ∀ m', op m = (.ok (), m') →
    plain = (.ok (), m') ∧ checked = (.ok (), m'.pushed (link .nil (.symbol "ok")))
  failed : ∀ e m' message, op m = (.error e, m') → errorMessage e = some message →
    plain = onCore (do chargeBytes 1; push .nil) m' ∧
      checked = (.ok (), m'.pushed (link (str_ message) (.symbol "err")))
  raised : ∀ e m', op m = (.error e, m') → errorMessage e = none →
    plain = (.error e, m') ∧ checked = (.error e, m')

theorem orNil_of_ok {op : MachineOp} {m m' : Machine} (h : op m = (.ok (), m')) :
    orNil op m = (.ok (), m') := by
  simp only [orNil, Eff.handle, h]

theorem orNil_of_error {op : MachineOp} {m m' : Machine} {e : PyError} {value : Expr}
    (h : op m = (.error e, m')) (hvalue : errorValue e = some value) :
    orNil op m = onCore (do chargeBytes 1; push .nil) m' := by
  simp only [orNil, Eff.handle, h, hvalue]

theorem orNil_of_raise {op : MachineOp} {m m' : Machine} {e : PyError}
    (h : op m = (.error e, m')) (hvalue : errorValue e = none) :
    orNil op m = (.error e, m') := by
  simp only [orNil, Eff.handle, h, hvalue]
  rfl

theorem checkedForm_of_error {op : MachineOp} {m m' : Machine} {e : PyError} {value : Expr}
    (h : op m = (.error e, m')) (hvalue : errorValue e = some value) (b : Bool) :
    checkedForm op b m = (.ok (), m'.pushed value) := by
  cases b with
  | true => exact catchErrors_of_error (Eff.bind_of_error h _) hvalue
  | false => exact catchErrors_of_error (Eff.bind_of_error h _) hvalue

theorem checkedForm_of_raise {op : MachineOp} {m m' : Machine} {e : PyError}
    (h : op m = (.error e, m')) (hvalue : errorValue e = none) (b : Bool) :
    checkedForm op b m = (.error e, m') := by
  cases b with
  | true => exact catchErrors_of_raise (Eff.bind_of_error h _) hvalue
  | false => exact catchErrors_of_raise (Eff.bind_of_error h _) hvalue

theorem formsAgree (name : String) (op : MachineOp) (m : Machine) :
    FormsAgree name op m (orNil op m) (orNil (checkedForm op (decide (name ∉ valueless))) m) where
  value := by
    intro hname m' v rest hop hstack
    refine ⟨orNil_of_ok hop, orNil_of_ok ?_⟩
    rw [decide_eq_true hname]
    exact withResultM_of_ok hop hstack
  done := by
    intro hname m' hop
    refine ⟨orNil_of_ok hop, orNil_of_ok ?_⟩
    rw [decide_eq_false (not_not.mpr hname)]
    exact withNilM_of_ok hop
  failed := by
    intro e m' message hop hmessage
    have hvalue : errorValue e = some (link (str_ message) (.symbol "err")) := by
      rw [errorValue_eq, hmessage]
      rfl
    exact ⟨orNil_of_error hop hvalue, orNil_of_ok (checkedForm_of_error hop hvalue _)⟩
  raised := by
    intro e m' hop hmessage
    have hvalue : errorValue e = none := by
      rw [errorValue_eq, hmessage]
      rfl
    exact ⟨orNil_of_raise hop hvalue, orNil_of_raise (checkedForm_of_raise hop hvalue _) hvalue⟩

/-- No checked form is blocked whose plain form is not. -/
theorem checked_not_blocked {name : String} (h : name ∉ blockedOperators) :
    name ++ "?" ∉ blockedOperators := by
  intro hmem
  have hall : ∀ s ∈ blockedOperators, s.toList.getLast? = some '?' →
      String.ofList s.toList.dropLast ∈ blockedOperators := by decide
  have hname := hall _ hmem (getLast?_checked name)
  rw [String.toList_append] at hname
  have hdrop : (name.toList ++ "?".toList).dropLast = name.toList := List.dropLast_concat
  rw [hdrop, String.ofList_toList] at hname
  exact h hname

variable (call : Call) (apply : NestedApply) (host : String → Option MachineOp)

/-- `apply_operator` outside deterministic mode: the actor, console and clock operators are those of
the host. -/
def applyOperatorLocal (ev : Expr → MachineOp) (fuel : Nat) (name : String) : Option MachineOp :=
  if name ∈ blockedOperators then host name else applyOperator call apply ev fuel name

/-- `evaluation` outside deterministic mode, where an operator can be bound to a program. -/
def evaluationLocal : Nat → Expr → MachineOp
  | 0, _ => .raise .outOfFuel
  | n + 1, e =>
    match e with
    | .symbol s => do
      match (← Eff.read).core.env.get s,
          applyOperatorLocal call apply host (evaluationLocal n) n s with
      | some bound, some _ => do
        onCore (chargeSize bound)
        orNil (evaluationLocal n bound)
      | none, some op => orNil op
      | _, none => onCore (lookupSymbol s)
    | .link _ h t =>
      if e.isBuiltinComposite then onCore (pushSized e)
      else if h = .loaded (.symbol "'") then onCore (pushQuoted t)
      else do
        evalChild (evaluationLocal n) h
        evalChild (evaluationLocal n) t
    | .nil => pure ()
    | e => onCore (pushSized e)

variable {call apply host}

theorem evaluation_operator {n : Nat} {name : String} {op : MachineOp}
    (h : applyOperator call apply (evaluation call apply n) n name = some op) :
    evaluation call apply (n + 1) (.symbol name) = orNil op := by
  rw [evaluation]
  simp only [h]

theorem evaluationLocal_operator {n : Nat} {name : String} {op : MachineOp} {m : Machine}
    (h : applyOperatorLocal call apply host (evaluationLocal call apply host n) n name = some op)
    (hfree : m.core.env.get name = none) :
    evaluationLocal call apply host (n + 1) (.symbol name) m = orNil op m := by
  rw [evaluationLocal]
  simp only [Eff.read_bind, h, hfree]

/-- What a blocked operator does fails by the meter only. -/
theorem orNil_blocked (m : Machine) : orNil (onCore (do chargeBytes 1; push .nil)) m =
    onCore (do chargeBytes 1; push .nil) m := by
  by_cases hlimit : m.core.meter.limit < m.core.meter.total + 1
  · have hraise : onCore (do chargeBytes 1; push .nil) m = (.error .meterExceeded, m) := by
      simp [onCore, Eff.zoom, chargeBytes, charge, Eff.when, hlimit, bind, Eff.andThen,
        Eff.raise]
    rw [orNil_of_raise hraise rfl, hraise]
  · have hrun : ∃ m', onCore (do chargeBytes 1; push .nil) m = (.ok (), m') := by
      simp [onCore, Eff.zoom, chargeBytes, charge, Eff.when, hlimit, bind, Eff.andThen,
        Eff.ret, push, pushRaw]
    obtain ⟨m', hrun⟩ := hrun
    rw [orNil_of_ok hrun, hrun]

/-- A call that reads nothing. -/
def idleCall : Call := ⟨⟨bareNode, firstHeader⟩, aliceSends .transfer bobAddress 0, []⟩

def idleApply : NestedApply := fun _ _ => .raise .runtimeError

/-- A machine with the cells given on its stack. -/
def machineOn (cells : List Expr) : Machine :=
  let fresh := newMachine (aliceBlock 0).ledger 100 (aliceSends .transfer bobAddress 0)
  fresh.withStack (cells.map some)

end Modes

end Astreum
