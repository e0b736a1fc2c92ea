import Astreum.Borrow
import Mathlib.Data.List.Sort

namespace Astreum

section StakeReturn

variable (c : Ctx)

/-- The secured loans under a root that are not done, each with its next payment block. -/
def activeLoans (root : Pointer) : Py (List (Int × Bytes × TreasuryLoanRecord)) :=
  let loans := openTree c.node root
  let add (active : List (Int × Bytes × TreasuryLoanRecord)) (key : Bytes) :
      Py (List (Int × Bytes × TreasuryLoanRecord)) := do
    let some loan ← loadLoanRecord c.node loans key | return active
    if loan.loanType ≠ .secured ∨ loan.nextPaymentBlockNumber = 0 then return active
    return active ++ [(loan.nextPaymentBlockNumber, key, loan)]
  loans.keys.foldlM add []

/-- `sorted(active_loans)`: by the next payment block, then by the id. -/
def orderedLoans (active : List (Int × Bytes × TreasuryLoanRecord)) :
    List (Bytes × TreasuryLoanRecord) :=
  (active.mergeSort fun p q => decide (p.1 < q.1 ∨ p.1 = q.1 ∧ p.2.1 ≤ q.2.1)).map Prod.snd

/-- Where the loop over the loans stands. -/
structure LoanPass where
  record : TreasuryUserRecord
  available : Int
  applied : Int
  appliedThisPass : Bool
  nextPass : List (Bytes × TreasuryLoanRecord)

/-- `_apply_treasury_loan_payment` as the loop calls it: without `accounts`, an argument that it
requires. -/
def callApplyTreasuryLoanPayment : Stateful Ledger (Option TreasuryUserRecord) := .raise .typeError

def pointerAfterPayment (loan : TreasuryLoanRecord) : Int :=
  if loan.nextPaymentBlockNumber = loan.finalPaymentBlockNumber then 0
  else loan.nextPaymentBlockNumber + loan.paymentIntervalBlocks

/-- The state of the loop once a loan has taken one payment. -/
def LoanPass.paid (p : LoanPass) (record : TreasuryUserRecord) (loanId : Bytes)
    (loan : TreasuryLoanRecord) : LoanPass where
  record := record
  available := p.available - loan.paymentAmount
  applied := p.applied + loan.paymentAmount
  appliedThisPass := true
  nextPass := if pointerAfterPayment loan = 0 then p.nextPass
    else p.nextPass ++ [(loanId, { loan with nextPaymentBlockNumber := pointerAfterPayment loan })]

/-- One pass over the loans, of one payment for each that what is left can pay. -/
def payPass : List (Bytes × TreasuryLoanRecord) → LoanPass → Stateful Ledger (Option LoanPass)
  | [], p => return some p
  | (loanId, loan) :: rest, p => do
    if loan.paymentAmount ≤ 0 then payPass rest p
    else if p.available < loan.paymentAmount then
      payPass rest { p with nextPass := p.nextPass ++ [(loanId, loan)] }
    else if p.record.balance - loan.paymentAmount < 0 then return none
    else
      let some record ← callApplyTreasuryLoanPayment | return none
      payPass rest (p.paid record loanId loan)

/-- Passes until nothing is left or a pass pays nothing. -/
def payPasses : Nat → List (Bytes × TreasuryLoanRecord) → LoanPass →
    Stateful Ledger (Option LoanPass)
  | 0, _, _ => .raise .outOfFuel
  | n + 1, ordered, p => do
    if p.available ≤ 0 ∨ ordered = [] then return some p
    else
      let some p ← payPass ordered { p with appliedThisPass := false, nextPass := [] } | return none
      if p.appliedThisPass then payPasses n p.nextPass p else return some p

/-- Pay the loans of a record, soonest first, out of what is returned of its stake. -/
def payLoans (record : TreasuryUserRecord) (amount : Int) : Stateful Ledger Bool := do
  let active ← .ofExcept (activeLoans c record.loansRoot)
  let some p ← payPasses (amount.toNat + 1) (orderedLoans active) ⟨record, amount, 0, false, []⟩
    | return false
  .when (p.applied ≠ 0) (involve treasuryAddress)
  return true

/-- `apply_treasury_loan_payments_from_stake_return`. -/
def applyTreasuryLoanPaymentsFromStakeReturn (borrower : Bytes) (amount : Int) :
    Stateful Ledger Bool := do
  if amount ≤ 0 then return false
  if (← getAccount c treasuryAddress).isNone then return false
  let treasury ← held treasuryAddress
  let some record ← .ofExcept (loadUserRecord c.node treasury.data borrower) | return false
  if record.balance < amount then return false
  if record.loansRoot.id = zero32 then return true
  payLoans c record amount

end StakeReturn

/-- `random.Random`: a generator that is seeded and drawn from. -/
structure Random where
  State : Type
  seed : Int → State
  randrange : State → Int → Int × State
  nonneg : ∀ s n, 0 < n → 0 ≤ (randrange s n).1
  lt : ∀ s n, 0 < n → (randrange s n).1 < n

/-- What the draw of a validator goes over: the stakes, their records and the generator. -/
structure Draw (R : Random) where
  stakes : Dict Bytes Int
  records : Dict Bytes TreasuryUserRecord
  rng : R.State

section Draws

variable (R : Random) (c : Ctx)

/-- What is listed of the treasury's tree, in the order of the tree. -/
def stakeEntries (tree : Tree) : List (Bytes × Option Expr) :=
  tree.keys.map fun key => (key, getFromRadixTree c.node tree key)

/-- The user record that a listed cell names, read by the hash of the cell. -/
def stakeRecord (entry : Bytes × Option Expr) : Py (Option TreasuryUserRecord) :=
  match entry with
  | ([], _) => .ok none
  | (_, none) => .ok none
  | (_, some head) => do
    let h ← c.node.hash? head
    TreasuryUserRecord.fromStorage c.node (getExpr c.node h)

def readStakes (rng : R.State) (entries : List (Bytes × Option Expr)) : Py (Draw R) :=
  let add (d : Draw R) (entry : Bytes × Option Expr) : Py (Draw R) := do
    let some record ← stakeRecord c entry | return d
    return { d with
      stakes := d.stakes.insert entry.1 record.balance
      records := d.records.insert entry.1 record }
  entries.foldlM add ⟨.empty, .empty, rng⟩

/-- The first key at which the weights so far exceed the choice. -/
def firstAbove (choice : Int) : Int → List (Bytes × Int) → Option Bytes
  | _, [] => none
  | cumulative, (key, weight) :: rest =>
    if choice < cumulative + weight then some key else firstAbove choice (cumulative + weight) rest

variable {R}

def pickValidator (d : Draw R) : Py (Bytes × Draw R) :=
  let weights := d.stakes.pairs.filter fun p => 0 < p.2
  match weights.getLast? with
  | none => .error .valueError
  | some last =>
    let (choice, rng) := R.randrange d.rng (weights.map Prod.snd).sum
    let key := firstAbove choice 0 (weights.mergeSort fun p q => decide (p.1 ≤ q.1))
    .ok (key.getD last.1, { d with rng := rng })

/-- What halving leaves of a stake, which is 1 at least. -/
def halvedStake (current : Int) : Int := max 1 (Python.floorDiv current 2)

def Draw.put (d : Draw R) (key : Bytes) (record : TreasuryUserRecord) : Draw R :=
  { d with
    stakes := d.stakes.insert key record.balance
    records := d.records.insert key record }

/-- A validator need not have an account yet. -/
def openAccount (key : Bytes) : Stateful Ledger Unit := do
  .when (← getAccount c key).isNone (setAccount key (createAccount 0 zero32))

def payValidator (key : Bytes) (amount : Int) : Stateful Ledger Unit := do
  openAccount c key
  addBalance key amount
  involve key

/-- The half of a stake without loans goes to the account of the validator. -/
def returnStake (key : Bytes) (record : TreasuryUserRecord) (newAmount returned : Int)
    (d : Draw R) : Stateful Ledger (Draw R) := do
  let updated := { record with balance := newAmount }
  putUserRecord key updated
  extendPendingExprs (← innerExprs c updated.expr)
  addBalance treasuryAddress (-returned)
  payValidator c key returned
  return d.put key updated

/-- The half of a stake with loans goes to the loans. -/
def returnStakeToLoans (key : Bytes) (returned : Int) (d : Draw R) :
    Stateful Ledger (Draw R) := do
  if !(← applyTreasuryLoanPaymentsFromStakeReturn c key returned) then .raise .valueError
  else
    let treasury ← held treasuryAddress
    let some record ← .ofExcept (loadUserRecord c.node treasury.data key) | .raise .valueError
    return d.put key record

def halveStake (key : Bytes) (d : Draw R) : Stateful Ledger (Draw R) := do
  let current := (d.stakes.get? key).getD 0
  if current ≤ 0 then .raise .valueError
  else
    let newAmount := halvedStake current
    if current - newAmount ≤ 0 then return d
    else
      let some record := d.records.get? key | .raise .keyError
      let d ← (if record.loansRoot.id = zero32 then
          returnStake c key record newAmount (current - newAmount) d
        else returnStakeToLoans c key (current - newAmount) d)
      involve treasuryAddress
      return d

/-- One slot: a validator is drawn and its stake halved. -/
def drawSlot (d : Draw R) : Stateful Ledger (Bytes × Draw R) := do
  let (key, d) ← .ofExcept (pickValidator d)
  let d ← halveStake c key d
  return (key, d)

/-- The first slot and `n` more. -/
def drawSlots : Nat → Draw R → Stateful Ledger (Bytes × Draw R)
  | 0, d => drawSlot c d
  | n + 1, d => do
    let (_, d) ← drawSlot c d
    drawSlots n d

variable (R)

/-- The slots from the parent block up to a time, the first of them included. -/
def slotsToProcess (blockTimestamp targetTime : Int) : Int :=
  let target := if targetTime ≤ blockTimestamp then blockTimestamp + 1 else targetTime
  max 1 (Python.floorDiv (target - blockTimestamp + 2 - 1) 2)

/-- `current_validator`, on the accounts of the block it draws after. `entries` is what is listed of
the treasury's tree. -/
def currentValidator (entries : List (Bytes × Option Expr)) (blockHash : Bytes)
    (timestamp : Option Int) (targetTime : Int) : Stateful Ledger Bytes := do
  let some blockTimestamp := timestamp | .raise .valueError
  if (← getAccount c treasuryAddress).isNone then .raise .valueError
  else
    let d ← .ofExcept (readStakes R c (R.seed (Python.fromBytesBig blockHash)) entries)
    if d.stakes.pairs = [] then .raise .valueError
    else
      let slots := slotsToProcess blockTimestamp targetTime
      let (key, _) ← drawSlots c (slots.toNat - 1) d
      return key

end Draws

end Astreum
