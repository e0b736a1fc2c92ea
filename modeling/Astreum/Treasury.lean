import Astreum.Loans

namespace Astreum

variable (c : Ctx)

/-- The loan goes into its tree and the user record with the new root into the treasury's. Gives
the cells of the loan and of the tree. -/
def putLoan (user loanId : Bytes) (o : OpenLoan) (loan : TreasuryLoanRecord)
    (update : TreasuryUserRecord → TreasuryUserRecord) : Stateful Ledger (List Expr) := do
  let loans ← .ofExcept (putInRadixTree o.loans loanId (.hashOf loan.expr))
  let loanExprs ← innerExprs c loan.expr
  putUserRecord user { update o.record with loansRoot := pointerTo c.node loans }
  return loanExprs ++ c.node.treeCells loans

/-- The cells of the user record that `putLoan` wrote. -/
def userExprs (o : OpenLoan) (loanId : Bytes) (loan : TreasuryLoanRecord)
    (update : TreasuryUserRecord → TreasuryUserRecord) : Stateful Ledger (List Expr) :=
  innerExprs c { update o.record with
    loansRoot := pointerTo c.node (o.loans.insert loanId (.hashOf loan.expr)) }.expr

/-- What a repayment comes to: where the pointer stops, how many payments are paid then, and
whether the owner is paid. -/
structure Repayment where
  nextPaymentBlockNumber : Int
  paidAfter : Int
  creditOwner : Bool

/-- The amount covers whole payments, counted from where the write-off stopped. -/
def repayment (loan : TreasuryLoanRecord) (amount pointer : Int) : Py (Option Repayment) := do
  let some next := payForward loan (Python.floorDiv amount loan.paymentAmount).toNat pointer
    | return none
  let paidAfter ← paidAt loan next
  if loan.paymentCount < paidAfter then return none
  return some ⟨next, paidAfter, true⟩

/-- When the whole loan is written off the amount goes back to the sender, who is debited it in the
end. -/
def repayOrReturn (t : Transaction) (loan : TreasuryLoanRecord) (pointer paidAfterWriteOff : Int) :
    Stateful Ledger (Option Repayment) := do
  if pointer = 0 then
    if !(← returnToSender c t.sender t.amount) then return none
    return some ⟨0, paidAfterWriteOff, false⟩
  .ofExcept (repayment loan t.amount pointer)

/-- Only an unsecured loan is written off. -/
def missedPayments (loan : TreasuryLoanRecord) : Py (Int × Int) :=
  match loan.loanType with
  | .unsecured => writeOff loan c.header.height c.node.fuel 0 loan.nextPaymentBlockNumber
  | .secured => .ok (0, loan.nextPaymentBlockNumber)

def handleTreasuryRepay (t : Transaction) : Stateful Ledger Status := do
  if t.recipient ≠ treasuryAddress ∨ t.sender = treasuryAddress ∨ t.amount ≤ 0 then return .failed
  if (← getAccount c treasuryAddress).isNone then return .failed
  let some loanId := loanTransactionId c.node t.data | return .failed
  let some o ← openLoan c t.sender loanId | return .failed
  let loan := o.loan
  if loan.paymentAmount ≤ 0 ∨ Python.floorMod t.amount loan.paymentAmount ≠ 0 then return .failed
  let some paidBefore := paidPaymentCount loan | return .failed
  if loan.paymentCount ≤ 0 ∨ paidBefore < 0 ∨ loan.paymentCount ≤ paidBefore then return .failed
  let (missedDelta, pointer) ← .ofExcept (missedPayments c loan)
  let paidAfterWriteOff ← .ofExcept (paidAt loan pointer)
  let some repaid ← repayOrReturn c t loan pointer paidAfterWriteOff | return .failed
  let some interest := interestPaidDelta loan paidAfterWriteOff repaid.paidAfter loan.paymentCount
    | return .failed
  let updatedLoan := { loan with
    nextPaymentBlockNumber := repaid.nextPaymentBlockNumber
    missedCount := loan.missedCount + missedDelta }
  let writeOffAmount := missedDelta * loan.paymentAmount
  let update := fun r : TreasuryUserRecord => { r with
    totalInterestPaid := r.totalInterestPaid + interest
    defaulted := r.defaulted + writeOffAmount }
  let loanExprs ← putLoan c t.sender loanId o updatedLoan update
  if !(← creditOwnerIf c repaid.creditOwner loan.owner t.amount) then return .failed
  let userExprs ← userExprs c o loanId updatedLoan update
  .when (writeOffAmount ≠ 0) (addDefaulted writeOffAmount)
  let released ← releaseGuaranteesIf c (repaid.nextPaymentBlockNumber = 0) updatedLoan
  extendPendingExprs (loanExprs ++ userExprs ++ released)
  involve treasuryAddress
  return .success

/-- What closing a loan comes to: what it costs, the payments missed, and whether the owner is
paid. -/
structure Closing where
  totalCost : Int
  missedDelta : Int
  creditOwner : Bool

/-- The principal left on the payments after the one due at `pointer`. -/
def remainingPrincipal (loan : TreasuryLoanRecord) (remaining : Int) : Int :=
  Python.floorDiv (loan.discountedAmount * remaining) loan.paymentCount

/-- An unsecured loan closes for its principal, less what is written off. -/
def closeUnsecured (t : Transaction) (loan : TreasuryLoanRecord) :
    Stateful Ledger (Option Closing) := do
  let (missedDelta, next) ← .ofExcept <|
    writeOff loan c.header.height c.node.fuel 0 loan.nextPaymentBlockNumber
  if next ≠ 0 ∧ loan.paymentIntervalBlocks ≤ 0 then return none
  let paidAfter ← .ofExcept (paidAt loan next)
  let remaining := loan.paymentCount - paidAfter
  if remaining ≤ 0 then
    if !(← returnToSender c t.sender t.amount) then return none
    return some ⟨0, missedDelta, false⟩
  let totalCost := remainingPrincipal loan remaining
  if totalCost ≤ 0 ∨ t.amount < totalCost then return none
  return some ⟨totalCost, missedDelta, true⟩

/-- The principal left once the next payment is due at `next`. -/
def principalLeft (loan : TreasuryLoanRecord) (next : Int) : Py (Option Int) := do
  if next ≤ 0 then return some 0
  if loan.paymentIntervalBlocks ≤ 0 then return none
  let paidAfter ← paidAt loan next
  if loan.paymentCount - paidAfter ≤ 0 then return none
  return some (remainingPrincipal loan (loan.paymentCount - paidAfter))

/-- A secured loan closes for the payments due and the principal left after them. -/
def closeSecured (t : Transaction) (loan : TreasuryLoanRecord) : Py (Option Closing) := do
  let (caughtUp, next) ←
    catchUp loan c.header.height c.node.fuel 0 loan.nextPaymentBlockNumber
  let some principal ← principalLeft loan next | return none
  if caughtUp + principal ≤ 0 ∨ t.amount < caughtUp + principal then return none
  return some ⟨caughtUp + principal, 0, true⟩

/-- What the owner of a closed loan gets. -/
def ownerShare (t : Transaction) (loan : TreasuryLoanRecord) (closing : Closing) : Int :=
  match loan.loanType with
  | .unsecured => closing.totalCost
  | .secured => t.amount

/-- What goes back to the sender of a closed loan. -/
def closingRefund (t : Transaction) (loan : TreasuryLoanRecord) (closing : Closing) : Int :=
  match loan.loanType with
  | .unsecured => if closing.creditOwner then t.amount - closing.totalCost else 0
  | .secured => 0

def handleTreasuryClose (t : Transaction) : Stateful Ledger Status := do
  if t.recipient ≠ treasuryAddress ∨ t.sender = treasuryAddress ∨ t.amount ≤ 0 then return .failed
  if (← getAccount c treasuryAddress).isNone then return .failed
  let some loanId := loanTransactionId c.node t.data | return .failed
  let some o ← openLoan c t.sender loanId | return .failed
  let loan := o.loan
  if loan.paymentCount ≤ 0 then return .failed
  let some closing ← (match loan.loanType with
    | .unsecured => closeUnsecured c t loan
    | .secured => .ofExcept (closeSecured c t loan)) | return .failed
  let updatedLoan := { loan with
    nextPaymentBlockNumber := 0
    missedCount := loan.missedCount + closing.missedDelta }
  let writeOffAmount := closing.missedDelta * loan.paymentAmount
  -- what an unsecured loan leaves over goes back, what a secured one leaves over is staked
  let update := fun r : TreasuryUserRecord => match loan.loanType with
    | .unsecured => { r with defaulted := r.defaulted + writeOffAmount }
    | .secured => { r with balance := r.balance + (t.amount - closing.totalCost) }
  let loanExprs ← putLoan c t.sender loanId o updatedLoan update
  if !(← creditOwnerIf c closing.creditOwner loan.owner (ownerShare t loan closing)) then
    return .failed
  let refund := closingRefund t loan closing
  .when (refund ≠ 0) (discard (returnToSender c t.sender refund))
  let userExprs ← userExprs c o loanId updatedLoan update
  .when (writeOffAmount ≠ 0) (addDefaulted writeOffAmount)
  let released ← releaseGuarantees c updatedLoan
  extendPendingExprs (loanExprs ++ userExprs ++ released)
  involve treasuryAddress
  return .success

/-- The loan that a buyer or a claimant names, found through the transaction that made it. -/
def namedLoan (t : Transaction) : Stateful Ledger (Option (Bytes × Bytes × OpenLoan)) := do
  let some loanId := loanTransactionId c.node t.data | return none
  let borrowerTx ← .ofExcept (getTransactionFromStorage c.node loanId)
  if (← getAccount c treasuryAddress).isNone then return none
  let some o ← openLoan c borrowerTx.sender loanId | return none
  return some (loanId, borrowerTx.sender, o)

/-- Debit the owner of a loan: the treasury, or the account that bought it. -/
def debitOwner (owner : Bytes) (price : Int) : Stateful Ledger Bool := do
  if owner = treasuryAddress then
    let treasury ← held treasuryAddress
    if treasury.balance < price then return false
    addBalance treasuryAddress (-price)
    return true
  let some account ← getAccount c owner | return false
  if account.balance < price then return false
  addBalance owner (-price)
  involve owner
  return true

def refundBuyer (buyer : Bytes) (refund : Int) : Stateful Ledger Bool :=
  if 0 < refund then returnToSender c buyer refund else return true

/-- A loan for sale, with what the payments left on it cost. -/
structure BuyQuote where
  loanId : Bytes
  borrower : Bytes
  o : OpenLoan
  price : Int

/-- What the purchase comes to, before anything is written. -/
def buyQuote (t : Transaction) : Stateful Ledger (Option BuyQuote) := do
  let some (loanId, borrower, o) ← namedLoan c t | return none
  let loan := o.loan
  if loan.owner = t.sender then return none
  let some remaining := remainingPaymentCount loan | return none
  if remaining ≤ 0 then return none
  let window := rateWindow (loan.paymentIntervalBlocks * remaining)
  let some (numerator, denominator) ← .ofExcept (windowedRateFraction c.header window)
    | return none
  let some price := calculateDiscountedAmount loan.paymentAmount loan.paymentIntervalBlocks
    remaining numerator denominator | return none
  if price ≤ 0 ∨ t.amount < price then return none
  return some ⟨loanId, borrower, o, price⟩

/-- The owner is debited the price and the buyer is credited what the amount exceeds it by. -/
def handleTreasuryBuy (t : Transaction) : Stateful Ledger Status := do
  if t.recipient ≠ treasuryAddress ∨ t.sender = treasuryAddress ∨ t.amount ≤ 0 then return .failed
  let some ⟨loanId, borrower, o, price⟩ ← buyQuote c t | return .failed
  let loan := o.loan
  let refund := t.amount - price
  if !(← debitOwner c loan.owner price) then return .failed
  if !(← refundBuyer c t.sender refund) then return .failed
  let updatedLoan := { loan with owner := t.sender }
  let loanExprs ← putLoan c borrower loanId o updatedLoan id
  let userExprs ← userExprs c o loanId updatedLoan id
  extendPendingExprs (loanExprs ++ userExprs)
  involve treasuryAddress
  return .success

/-- No more payments can be claimed than remain. -/
def claimable (missed remaining : Int) : Int := if remaining < missed then remaining else missed

def handleTreasuryClaim (t : Transaction) : Stateful Ledger Status := do
  if t.recipient ≠ treasuryAddress ∨ t.sender = treasuryAddress ∨ t.amount ≠ 0 then return .failed
  let some (loanId, borrower, o) ← namedLoan c t | return .failed
  let loan := o.loan
  if loan.owner = treasuryAddress ∨ loan.owner ≠ t.sender then return .failed
  let missed ← .ofExcept <|
    if c.header.height < loan.nextPaymentBlockNumber then pure 0
    else do
      let n ← Python.floorDiv? (c.header.height - loan.nextPaymentBlockNumber)
        loan.paymentIntervalBlocks
      pure (n + 1)
  let some paid := paidPaymentCount loan | return .failed
  let remaining := loan.paymentCount - paid
  if remaining < 0 then return .failed
  let missed := claimable missed remaining
  if missed = 0 then return .failed
  let payout := missed * loan.paymentAmount
  let treasury ← held treasuryAddress
  if treasury.balance < payout then return .failed
  addBalance treasuryAddress (-payout)
  if (← getAccount c loan.owner).isNone then return .failed
  addBalance loan.owner payout
  involve loan.owner
  let some next := claimForward loan missed.toNat loan.nextPaymentBlockNumber | return .failed
  let updatedLoan := { loan with nextPaymentBlockNumber := next }
  let update := fun r : TreasuryUserRecord => match loan.loanType with
    | .unsecured => { r with defaulted := r.defaulted + payout }
    | .secured => r
  let loans ← .ofExcept (putInRadixTree o.loans loanId (.hashOf updatedLoan.expr))
  let loanExprs ← innerExprs c updatedLoan.expr
  .when (loan.loanType = .unsecured) (addDefaulted payout)
  putUserRecord borrower { update o.record with loansRoot := pointerTo c.node loans }
  let userExprs ← userExprs c o loanId updatedLoan update
  extendPendingExprs (loanExprs ++ c.node.treeCells loans ++ userExprs)
  involve treasuryAddress
  return .success

def handleTreasuryGuarantee (t : Transaction) (transactionHash : Bytes) :
    Stateful Ledger Status := do
  if t.recipient ≠ treasuryAddress ∨ t.sender = treasuryAddress then return .failed
  if (← getAccount c treasuryAddress).isNone then return .failed
  let [amount, duration, price, expiry] := dataNodes c.node t.data | return .failed
  if c.node.tag amount ≠ "int" ∨ c.node.tag duration ≠ "int" ∨ c.node.tag price ≠ "int" ∨
      c.node.tag expiry ≠ "int" then return .failed
  let amount ← .ofExcept amount.value.toInt
  if amount ≤ 0 then return .failed
  let duration ← .ofExcept duration.value.toInt
  if !Python.isPowerOfTwo duration then return .failed
  let price ← .ofExcept price.value.toInt
  if price < 0 then return .failed
  let expiry ← .ofExcept expiry.value.toInt
  if expiry ≤ c.header.height then return .failed
  let treasury ← held treasuryAddress
  let record := (← .ofExcept (loadUserRecord c.node treasury.data t.sender)).getD .empty
  let guarantee : TreasuryGuarantee :=
    ⟨.int amount, .int duration, .int price, .int expiry, .raw zero32⟩
  let guarantees := openTree c.node record.guaranteesRoot
  if (getFromRadixTree c.node guarantees transactionHash).isSome then return .failed
  let guarantees ← .ofExcept <|
    putInRadixTree guarantees transactionHash (.hashOf guarantee.expr)
  let guaranteeExprs ← innerExprs c guarantee.expr
  let updated := { record with guaranteesRoot := pointerTo c.node guarantees }
  putUserRecord t.sender updated
  let userExprs ← innerExprs c updated.expr
  extendPendingExprs (guaranteeExprs ++ c.node.treeCells guarantees ++ userExprs)
  return .success

end Astreum
