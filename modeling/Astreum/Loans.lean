import Astreum.Rates
import Astreum.Records

namespace Astreum

/-- `_paid_payment_count`. -/
def paidPaymentCount (loan : TreasuryLoanRecord) : Option Int :=
  if loan.nextPaymentBlockNumber = 0 then some loan.paymentCount
  else if loan.paymentIntervalBlocks ≤ 0 then none
  else
    let paidSpan := loan.nextPaymentBlockNumber - loan.creationBlockNumber
    if paidSpan ≤ 0 ∨ Python.floorMod paidSpan loan.paymentIntervalBlocks ≠ 0 then none
    else some (Python.floorDiv paidSpan loan.paymentIntervalBlocks - 1)

/-- `_remaining_payment_count`. -/
def remainingPaymentCount (loan : TreasuryLoanRecord) : Option Int :=
  match paidPaymentCount loan with
  | none => none
  | some paid => if loan.paymentCount - paid < 0 then none else some (loan.paymentCount - paid)

/-- `_interest_paid_delta`: the share of the interest that falls on the payments in between. -/
def interestPaidDelta (loan : TreasuryLoanRecord) (paidBefore paidAfter totalPaymentCount : Int) :
    Option Int :=
  let totalInterest := loan.paymentAmount * totalPaymentCount - loan.discountedAmount
  if totalInterest < 0 then none
  else some (Python.floorDiv (totalInterest * paidAfter) totalPaymentCount -
    Python.floorDiv (totalInterest * paidBefore) totalPaymentCount)

/-- The payments made once the next one is due at `pointer`. -/
def paidAt (loan : TreasuryLoanRecord) (pointer : Int) : Py Int :=
  if pointer = 0 then .ok loan.paymentCount
  else do
    let n ← Python.floorDiv? (pointer - loan.creationBlockNumber) loan.paymentIntervalBlocks
    return n - 1

/-- The loop over the payments missed before `height`: how many, and where the pointer stops. -/
def writeOff (loan : TreasuryLoanRecord) (height : Int) : Nat → Int → Int → Py (Int × Int)
  | 0, _, _ => .error .outOfFuel
  | n + 1, missed, pointer =>
    if pointer ≠ 0 ∧ pointer < height then
      writeOff loan height n (missed + 1)
        (if pointer = loan.finalPaymentBlockNumber then 0
          else pointer + loan.paymentIntervalBlocks)
    else .ok (missed, pointer)

/-- The loop over the payments due by `height`, which a secured loan catches up when it closes. -/
def catchUp (loan : TreasuryLoanRecord) (height : Int) : Nat → Int → Int → Py (Int × Int)
  | 0, _, _ => .error .outOfFuel
  | n + 1, amount, pointer =>
    if 0 < pointer ∧ pointer ≤ height then
      let next := pointer + loan.paymentIntervalBlocks
      if loan.finalPaymentBlockNumber < next then .ok (amount + loan.paymentAmount, 0)
      else catchUp loan height n (amount + loan.paymentAmount) next
    else .ok (amount, pointer)

/-- Move the pointer over `n` payments. No payment may be left over. -/
def payForward (loan : TreasuryLoanRecord) : Nat → Int → Option Int
  | 0, pointer => some pointer
  | n + 1, pointer =>
    if pointer = 0 then none
    else if pointer = loan.finalPaymentBlockNumber then if n = 0 then some 0 else none
    else if loan.finalPaymentBlockNumber < pointer + loan.paymentIntervalBlocks then none
    else payForward loan n (pointer + loan.paymentIntervalBlocks)

/-- Move the pointer over `n` claimed payments, or to the end of the loan. -/
def claimForward (loan : TreasuryLoanRecord) : Nat → Int → Option Int
  | 0, pointer => some pointer
  | n + 1, pointer =>
    if pointer = loan.finalPaymentBlockNumber then some 0
    else if loan.finalPaymentBlockNumber < pointer + loan.paymentIntervalBlocks then none
    else claimForward loan n (pointer + loan.paymentIntervalBlocks)

/-- The greatest power of two that fits the duration. -/
def rateWindow (duration : Int) : Int := if duration < 2 then 1 else 2 ^ Nat.log2 duration.toNat

/-- The id that names a loan: the 32 bytes at the head of the data. -/
def loanTransactionId (node : Node) (data : Expr) : Option Bytes :=
  if node.tag data ≠ "link" then none
  else match data.head? with
    | some (.bytes b) => if b.length = 32 then some b else none
    | _ => none

def openTree (node : Node) (p : Pointer) : Tree :=
  if p.id = zero32 then .empty else node.openTree p.id

section Writes

variable (c : Ctx)

/-- The record goes into the treasury's tree under its user. -/
def putUserRecord (user : Bytes) (record : TreasuryUserRecord) : Stateful Ledger Unit := do
  let treasury ← held treasuryAddress
  let tree ← .ofExcept (putInRadixTree treasury.data user (.hashOf record.expr))
  setData treasuryAddress tree

def innerExprs (e : Expr) : Stateful Ledger (List Expr) := do
  let (exprs, _) ← .ofExcept (resolveInnerExprs c.node e)
  return exprs

/-- Pay the owner of a loan: the treasury, or the account that bought it. -/
def creditOwner (owner : Bytes) (amount : Int) : Stateful Ledger Bool := do
  if owner = treasuryAddress then
    addBalance treasuryAddress amount
    return true
  if (← getAccount c owner).isNone then return false
  addBalance owner amount
  involve owner
  return true

/-- Pay the owner where the repayment is for the owner. -/
def creditOwnerIf (owed : Bool) (owner : Bytes) (amount : Int) : Stateful Ledger Bool :=
  if owed then creditOwner c owner amount else return true

/-- What the sender is debited too much in the end goes back to it. -/
def returnToSender (sender : Bytes) (amount : Int) : Stateful Ledger Bool := do
  if (← getAccount c sender).isNone then return false
  addBalance sender amount
  involve sender
  return true

/-- What each guarantor of a loan gets back of the guarantees, first come first. -/
def returnedByGuarantor (loan : TreasuryLoanRecord) (paidCount : Int) : Dict Bytes Int :=
  loan.claimedGuarantees.foldl (fun returned (guarantor, _, amount) =>
    returned.insert guarantor ((returned.get? guarantor).getD 0 +
      Python.floorDiv (amount * paidCount) loan.paymentCount)) .empty

/-- `_release_guarantees`, one guarantor after the other. -/
def releaseEach : List (Bytes × Int) → Stateful Ledger (List Expr)
  | [] => return []
  | (guarantor, returned) :: rest => do
    if returned ≤ 0 then releaseEach rest
    else
      let treasury ← held treasuryAddress
      match ← .ofExcept (loadUserRecord c.node treasury.data guarantor) with
      | none => releaseEach rest
      | some record =>
        let updated := { record with guaranteed := max 0 (record.guaranteed - returned) }
        putUserRecord guarantor updated
        let exprs ← innerExprs c updated.expr
        return exprs ++ (← releaseEach rest)

def releaseGuarantees (loan : TreasuryLoanRecord) : Stateful Ledger (List Expr) :=
  if loan.claimedGuarantees = [] ∨ loan.paymentCount ≤ 0 then return []
  else releaseEach c (returnedByGuarantor loan (max 0 (loan.paymentCount - loan.missedCount))).pairs

/-- Only a loan that is done releases its guarantees. -/
def releaseGuaranteesIf (done : Bool) (loan : TreasuryLoanRecord) : Stateful Ledger (List Expr) :=
  if done then releaseGuarantees c loan else return []

def addDefaulted (amount : Int) : Stateful Ledger Unit :=
  .update fun l => { l with globalDefaulted := l.globalDefaulted + amount }

/-- A loan of a user, with the tree and the user record that hold it. -/
structure OpenLoan where
  record : TreasuryUserRecord
  loans : Tree
  loan : TreasuryLoanRecord

/-- The unfinished loan `loanId` of `user`. -/
def openLoan (user loanId : Bytes) : Stateful Ledger (Option OpenLoan) := do
  let treasury ← held treasuryAddress
  let some record ← .ofExcept (loadUserRecord c.node treasury.data user) | return none
  if record.loansRoot.id = zero32 then return none
  let loans := openTree c.node record.loansRoot
  let some loan ← .ofExcept (loadLoanRecord c.node loans loanId) | return none
  if loan.nextPaymentBlockNumber = 0 then return none
  return some ⟨record, loans, loan⟩

end Writes

end Astreum
