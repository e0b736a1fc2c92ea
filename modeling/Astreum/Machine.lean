import Astreum.Floats
import Astreum.Transaction

namespace Astreum

/-- `Meter`, with a limit, as every machine of a transaction has one. -/
structure Meter where
  limit : Int
  eval : Int
  storage : Int
  deriving DecidableEq

namespace Meter

def total (m : Meter) : Int := m.eval + m.storage

def remaining (m : Meter) : Int := max 0 (m.limit - m.total)

end Meter

abbrev Frame := Dict String Expr

/-- The frames of an environment, innermost first. -/
abbrev Env := List Frame

def Env.get : Env → String → Option Expr
  | [], _ => none
  | frame :: parents, key => (frame.get? key).or (Env.get parents key)

/-- The part of a machine that no operator shares with the block. The top of the stack comes first;
what stands on it is a cell, or the `None` that some operators push for a missing head. -/
structure Core where
  stack : List (Option Expr)
  env : Env
  meter : Meter
  library : Dict Bytes Env

abbrev CoreOp := Stateful Core Unit

namespace Core

def charge (n : Int) (storage : Bool) : CoreOp := do
  let m := (← Eff.read).meter
  let n := max 0 n
  .when (m.limit < m.total + n) (.raise .meterExceeded)
  .update fun s => { s with meter :=
    if storage then { m with storage := m.storage + n } else { m with eval := m.eval + n } }

def chargeBytes (n : Int) : CoreOp := charge n false

def chargeSize (e : Expr) : CoreOp := do
  let n ← .ofExcept e.size
  chargeBytes n

/-- `stack.pop()`. -/
def popRaw : Stateful Core (Option Expr) := do
  match (← Eff.read).stack with
  | [] => .raise .indexError
  | top :: rest =>
    .update fun s => { s with stack := rest }
    return top

/-- The first use of a popped value. -/
def real {α : Type} : Option α → Stateful Core α
  | some e => return e
  | none => .raise .attributeError

def pop : Stateful Core Expr := do real (← popRaw)

/-- The two operands of an operator, the one below first. -/
def popTwo : Stateful Core (Expr × Expr) := do
  let b ← popRaw
  let a ← popRaw
  return (← real a, ← real b)

def pushRaw (e : Option Expr) : CoreOp := .update fun s => { s with stack := e :: s.stack }

def push (e : Expr) : CoreOp := pushRaw (some e)

def opError {α : Type} (message : String) : Stateful Core α := .raise (.opError message)

/-- `if len(stack) < n: raise OpError('stack underflow')`. -/
def require (n : Nat) : CoreOp := do
  .when ((← Eff.read).stack.length < n) (opError "stack underflow")

end Core

/-- The `err` value that stands for an error of an operator, where it is one that operators give. -/
def errorValue : PyError → Option Expr
  | .opError message => some (link (str_ message) (.symbol "err"))
  | .indexError => some (link (str_ "stack underflow") (.symbol "err"))
  | _ => none

section Results

variable {σ : Type}

/-- `except OpError` and `except IndexError` of the operators that end in a question mark. -/
def catchErrors (push : Expr → Stateful σ Unit) (op : Stateful σ Unit) : Stateful σ Unit :=
  Eff.handle op fun e => match errorValue e with
    | some value => push value
    | none => .raise e

end Results

namespace Core

/-- The variant of an operator that wraps what it leaves on top. -/
def withResult (op : CoreOp) : CoreOp :=
  catchErrors push do
    op
    let result ← popRaw
    push (.link .none (match result with
      | some e => .loaded e
      | none => .none) (.loaded (.symbol "ok")))

/-- The variant of an operator that leaves nothing on top. -/
def withNil (op : CoreOp) : CoreOp :=
  catchErrors push do
    op
    push (link .nil (.symbol "ok"))

end Core

/-- What a machine of a transaction reads: the block's fixed part, its transaction, and the bloom
keys that the block holds already. -/
structure Call where
  ctx : Ctx
  tx : Transaction
  blockBloomKeys : List Bytes

/-- A machine on a block. The bloom keys are those of its transaction. -/
structure Machine where
  core : Core
  ledger : Ledger
  logs : List Expr
  bloomKeys : List Bytes
  bloomInserts : List Bytes

abbrev MachineOp := Stateful Machine Unit

def onCore {α : Type} (x : Stateful Core α) : Stateful Machine α :=
  Eff.zoom Machine.core (fun core m => { m with core }) x

def onMachineLedger {α : Type} (x : Stateful Ledger α) : Stateful Machine α :=
  Eff.zoom Machine.ledger (fun ledger m => { m with ledger }) x

/-- `Machine(node, meter_limit=limit)`, about to run. -/
def newMachine (ledger : Ledger) (limit : Int) (tx : Transaction) : Machine where
  core := ⟨[], [.empty], ⟨limit, 0, 0⟩, .empty⟩
  ledger := ledger
  logs := []
  bloomKeys := tx.pendingBloomKeys
  bloomInserts := tx.pendingBloomInserts

end Astreum
