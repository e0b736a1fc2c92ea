import Astreum.Treasury

namespace Astreum

variable (c : Ctx)

/-- Where a payment out of returned stake leaves the pointer of a loan, and the interest paid. -/
def stakePayment (loan : TreasuryLoanRecord) (amount : Int) : Py (Option (Int × Int)) := do
  if amount ≤ 0 ∨ loan.paymentAmount ≤ 0 then return none
  if loan.nextPaymentBlockNumber = 0 then return none
  if Python.floorMod amount loan.paymentAmount ≠ 0 then return none
  let some paidBefore := paidPaymentCount loan | return none
  if loan.paymentCount ≤ 0 ∨ paidBefore < 0 ∨ loan.paymentCount ≤ paidBefore then return none
  let some next := payForward loan (Python.floorDiv amount loan.paymentAmount).toNat
    loan.nextPaymentBlockNumber | return none
  let paidAfter ← paidAt loan next
  if loan.paymentCount < paidAfter then return none
  let some interest := interestPaidDelta loan paidBefore paidAfter loan.paymentCount | return none
  return some (next, interest)

/-- `_apply_treasury_loan_payment`: the owner is paid, and the loan and the record are written. -/
def applyTreasuryLoanPayment (borrower : Bytes) (loans : Tree) (record : TreasuryUserRecord)
    (loanId : Bytes) (loan : TreasuryLoanRecord) (amount : Int) :
    Stateful Ledger (Option TreasuryUserRecord) := do
  let some (next, interest) ← .ofExcept (stakePayment loan amount) | return none
  if !(← creditOwner c loan.owner amount) then return none
  let updatedLoan := { loan with nextPaymentBlockNumber := next }
  let loans ← .ofExcept (putInRadixTree loans loanId (.hashOf updatedLoan.expr))
  let loanExprs ← innerExprs c updatedLoan.expr
  let updated := { record with
    loansRoot := pointerTo c.node loans
    totalInterestPaid := record.totalInterestPaid + interest }
  putUserRecord borrower updated
  let userExprs ← innerExprs c updated.expr
  extendPendingExprs (loanExprs ++ c.node.treeCells loans ++ userExprs)
  return some updated

end Astreum
