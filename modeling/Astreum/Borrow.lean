import Astreum.Treasury

namespace Astreum

variable (c : Ctx)

structure TreasuryBorrowRequest where
  loanType : LoanType
  paymentIntervalBlocks : Val
  paymentCount : Val

def guaranteeRef (entry : Expr) : Py (Option (Bytes × Bytes)) := do
  let (nodes, missed) ← resolveListExprs c.node entry
  if missed ≠ [] then return none
  let [guarantor, guarantee] := nodes | return none
  if (← getExprTag c.node guarantor) ≠ "bytes" then return none
  if (← getExprTag c.node guarantee) ≠ "bytes" then return none
  return some (← guarantor.value.toBytes, ← guarantee.value.toBytes)

/-- `_decode_guarantee_refs`. -/
def decodeGuaranteeRefs (refs : Expr) : Py (Option (List (Bytes × Bytes))) := do
  if refs = .nil then return some []
  let (entries, missed) ← resolveListExprs c.node refs
  if missed ≠ [] then return none
  collect (guaranteeRef c) entries

/-- `secured_loan_remaining_total`: what the secured loans still take of the stake. -/
def securedLoanRemainingTotal (root : Pointer) : Py (Option Int) :=
  let loans := openTree c.node root
  let add (total : Option Int) (key : Bytes) : Py (Option Int) := do
    let some total := total | return none
    let some loan ← loadLoanRecord c.node loans key | return none
    if loan.loanType ≠ .secured ∨ loan.nextPaymentBlockNumber = 0 then return some total
    let some remaining := remainingPaymentCount loan | return none
    return some (total + remaining * loan.paymentAmount)
  loans.keys.foldlM add (some 0)

/-- What a loan of this request is worth to its borrower now. -/
def discountedLoan (t : Transaction) (interval count : Int) : Py (Option Int) := do
  let some (numerator, denominator) ← windowedRateFraction c.header (interval * count)
    | return none
  return calculateDiscountedAmount t.amount interval count numerator denominator

/-- The record of a loan made now. -/
def newLoan (t : Transaction) (loanType : LoanType) (interval count discounted : Int)
    (claimed : List (Bytes × Bytes × Int)) (insuranceFee : Int) : TreasuryLoanRecord where
  creationBlockNumber := c.header.height
  loanType := loanType
  discountedAmount := discounted
  paymentAmount := t.amount
  paymentIntervalBlocks := interval
  nextPaymentBlockNumber := c.header.height + interval
  paymentCount := count
  claimedGuarantees := claimed
  insuranceFee := insuranceFee
  missedCount := 0
  owner := treasuryAddress

def handleSecuredBorrow (t : Transaction) (transactionHash : Bytes)
    (request : TreasuryBorrowRequest) : Stateful Ledger Status := do
  let interval ← .ofExcept request.paymentIntervalBlocks.toInt
  let count ← .ofExcept request.paymentCount.toInt
  let some rate ← .ofExcept (windowedRateFraction c.header (interval * count)) | return .failed
  let discounted := calculateDiscountedAmount t.amount interval count rate.1 rate.2
  let treasury ← held treasuryAddress
  let some record ← .ofExcept (loadUserRecord c.node treasury.data t.sender) | return .failed
  let some existing ← .ofExcept (securedLoanRemainingTotal c record.loansRoot) | return .failed
  let some discounted := discounted | return .failed
  if discounted ≤ 0 ∨ record.balance - existing < t.amount * count ∨
      treasury.balance < discounted then return .failed
  let loan := newLoan c t request.loanType interval count discounted [] 0
  let loans := openTree c.node record.loansRoot
  if (getFromRadixTree c.node loans transactionHash).isSome then return .failed
  let loans ← .ofExcept (putInRadixTree loans transactionHash (.hashOf loan.expr))
  let loanExprs ← innerExprs c loan.expr
  let updated := { record with loansRoot := pointerTo c.node loans }
  putUserRecord t.sender updated
  addBalance treasuryAddress (-discounted)
  addBalance t.sender discounted
  let userExprs ← innerExprs c updated.expr
  extendPendingExprs (loanExprs ++ c.node.treeCells loans ++ userExprs)
  return .success

/-- `claim_guarantee`: the guarantee, marked as claimed in its tree. -/
def claimGuarantee (guarantees : Tree) (guaranteeTransactionId claimantId : Bytes)
    (currentHeight : Int) : Py (Option (TreasuryGuarantee × Tree)) := do
  let some guarantee ← TreasuryGuarantee.fromStorage c.node
    (getFromRadixTree c.node guarantees guaranteeTransactionId) | return none
  if guarantee.claimedBy ≠ .raw zero32 then return none
  if (← guarantee.expiry.toInt) ≤ currentHeight then return none
  let updated := { guarantee with claimedBy := .raw claimantId }
  let guarantees ← putInRadixTree guarantees guaranteeTransactionId (.hashOf updated.expr)
  return some (updated, guarantees)

/-- What the guarantees of one guarantor come to, in the loop over the named guarantees. -/
structure GuarantorState where
  record : TreasuryUserRecord
  guarantees : Tree
  priceTotal : Int
  addedGuaranteed : Int

/-- The named guarantees so far: by guarantor, and in the order they are named. -/
structure Claimed where
  states : Dict Bytes GuarantorState
  entries : List (Bytes × Bytes × Int)

/-- One turn of the loop over the named guarantees. -/
def claimNamed (treasuryData : Tree) (transactionHash : Bytes) (duration : Int) (claimed : Claimed)
    (guarantor guaranteeId : Bytes) : Py (Option Claimed) := do
  if guarantor = treasuryAddress then return none
  let some state ← (match claimed.states.get? guarantor with
    | some state => .ok (some state)
    | none => do
      let some record ← loadUserRecord c.node treasuryData guarantor | return none
      return some ⟨record, openTree c.node record.guaranteesRoot, 0, 0⟩ :
      Py (Option GuarantorState)) | return none
  let some (guarantee, guarantees) ←
    claimGuarantee c state.guarantees guaranteeId transactionHash c.header.height | return none
  if guarantee.duration ≠ .int duration then return none
  let price ← guarantee.price.toInt
  let amount ← guarantee.amount.toInt
  let state : GuarantorState :=
    ⟨state.record, guarantees, state.priceTotal + price, state.addedGuaranteed + amount⟩
  return some ⟨claimed.states.insert guarantor state,
    claimed.entries ++ [(guarantor, guaranteeId, amount)]⟩

def claimAllNamed (treasuryData : Tree) (transactionHash : Bytes) (duration : Int)
    (refs : List (Bytes × Bytes)) : Py (Option Claimed) :=
  refs.foldlM (fun claimed ref => do
    let some claimed := claimed | return none
    claimNamed c treasuryData transactionHash duration claimed ref.1 ref.2)
    (some ⟨.empty, []⟩)

/-- The premium for the risk that loans default, at the rates of the borrower and of all. -/
def insuranceFee (l : Ledger) (borrower : TreasuryUserRecord) (discounted : Int) : Option Int :=
  if l.globalLoanCount ≤ 0 then some 0
  else
    let denominator := borrower.loaned * l.globalLoanCount + l.globalLoaned
    if denominator ≤ 0 then none
    else
      let numerator := discounted * (borrower.defaulted * l.globalLoanCount + l.globalDefaulted)
      some (Python.floorDiv numerator denominator)

/-- Pay a guarantor, which need not have an account yet. -/
def payGuarantor (guarantor : Bytes) (price : Int) : Stateful Ledger Unit := do
  match ← getAccount c guarantor with
  | none => setAccount guarantor (createAccount price zero32)
  | some _ =>
    addBalance guarantor price
    involve guarantor

/-- Pay every guarantor its price and write its record, one after the other. -/
def payGuarantors : List (Bytes × GuarantorState) → Stateful Ledger (List Expr)
  | [] => return []
  | (guarantor, state) :: rest => do
    payGuarantor c guarantor state.priceTotal
    let updated := { state.record with
      guaranteesRoot := pointerTo c.node state.guarantees
      guaranteed := state.record.guaranteed + state.addedGuaranteed }
    putUserRecord guarantor updated
    let exprs ← innerExprs c updated.expr
    return exprs ++ c.node.treeCells state.guarantees ++ (← payGuarantors rest)

def addLoaned (amount : Int) : Stateful Ledger Unit :=
  .update fun l => { l with
    globalLoaned := l.globalLoaned + amount
    globalLoanCount := l.globalLoanCount + 1 }

def priceTotal (states : Dict Bytes GuarantorState) : Int := states.sum fun _ s => s.priceTotal

def handleUnsecuredBorrow (t : Transaction) (transactionHash : Bytes)
    (request : TreasuryBorrowRequest) (refs : List (Bytes × Bytes)) :
    Stateful Ledger Status := do
  if refs = [] ∨ ¬refs.Nodup then return .failed
  let interval ← .ofExcept request.paymentIntervalBlocks.toInt
  let count ← .ofExcept request.paymentCount.toInt
  let some discounted ← .ofExcept (discountedLoan c t interval count) | return .failed
  if discounted ≤ 0 then return .failed
  let treasury ← held treasuryAddress
  let borrower := (← .ofExcept (loadUserRecord c.node treasury.data t.sender)).getD .empty
  let some claimed ← .ofExcept <|
    claimAllNamed c treasury.data transactionHash (interval * count) refs | return .failed
  if (claimed.entries.map fun entry => entry.2.2).sum < discounted then return .failed
  if claimed.states.pairs.any fun (_, s) =>
      decide (s.record.totalInterestPaid < s.record.guaranteed + s.addedGuaranteed) then
    return .failed
  let some fee := insuranceFee (← .read) borrower discounted | return .failed
  let netAmount := discounted - fee - priceTotal claimed.states
  if netAmount ≤ 0 then return .failed
  if treasury.balance < discounted - fee then return .failed
  let loan := newLoan c t .unsecured interval count discounted claimed.entries fee
  let loans := openTree c.node borrower.loansRoot
  if (getFromRadixTree c.node loans transactionHash).isSome then return .failed
  let loans ← .ofExcept (putInRadixTree loans transactionHash (.hashOf loan.expr))
  let loanExprs ← innerExprs c loan.expr
  let guarantorExprs ← payGuarantors c claimed.states.pairs
  let updated := { borrower with
    loansRoot := pointerTo c.node loans
    loaned := borrower.loaned + discounted }
  putUserRecord t.sender updated
  let userExprs ← innerExprs c updated.expr
  addBalance treasuryAddress (-(discounted - fee))
  addBalance t.sender netAmount
  addLoaned discounted
  extendPendingExprs (loanExprs ++ c.node.treeCells loans ++ guarantorExprs ++ userExprs)
  return .success

def handleTreasuryBorrow (t : Transaction) (transactionHash : Bytes) :
    Stateful Ledger Status := do
  if t.recipient ≠ treasuryAddress ∨ t.sender = treasuryAddress ∨ t.amount ≤ 0 then return .failed
  if (← getAccount c treasuryAddress).isNone then return .failed
  let [loanType, interval, count, refs] := dataNodes c.node t.data | return .failed
  if c.node.tag loanType ≠ "int" ∨ c.node.tag interval ≠ "int" ∨ c.node.tag count ≠ "int" then
    return .failed
  let loanType ← .ofExcept (LoanType.ofVal loanType.value)
  let request : TreasuryBorrowRequest := ⟨loanType, interval.value, count.value⟩
  match loanType with
  | .secured => handleSecuredBorrow c t transactionHash request
  | .unsecured =>
    let some refs ← .ofExcept (decodeGuaranteeRefs c refs) | return .failed
    handleUnsecuredBorrow c t transactionHash request refs

/-- A step that succeeds on the four cells of its data has found them. -/
theorem dataNodes_of_success {node : Node} {data : Expr} {l l' : Ledger}
    {k : Expr → Expr → Expr → Expr → Stateful Ledger Status}
    (h : (do
      let [x, y, z, w] := dataNodes node data | return .failed
      k x y z w : Stateful Ledger Status) l = (.ok .success, l')) :
    ∃ x y z w, dataNodes node data = [x, y, z, w] ∧ k x y z w l = (.ok .success, l') := by
  rcases hnodes : dataNodes node data with _ | ⟨x, _ | ⟨y, _ | ⟨z, _ | ⟨w, _ | _⟩⟩⟩⟩
  case cons.cons.cons.cons.nil =>
    rw [hnodes] at h
    exact ⟨x, y, z, w, rfl, h⟩
  all_goals
    rw [hnodes] at h
    cases h

/-- A borrow that succeeds has read four cells, of which the first tells what kind of loan made
it. -/
theorem handleTreasuryBorrow_steps {c : Ctx} {t : Transaction} {hash : Bytes} {l l' : Ledger}
    (h : handleTreasuryBorrow c t hash l = (.ok .success, l')) :
    t.sender ≠ treasuryAddress ∧ 0 < t.amount ∧
      ∃ account l₁ loanType interval count refs kind,
        getAccount c treasuryAddress l = (.ok account, l₁) ∧
        dataNodes c.node t.data = [loanType, interval, count, refs] ∧
        LoanType.ofVal loanType.value = .ok kind ∧
        let request : TreasuryBorrowRequest := ⟨kind, interval.value, count.value⟩
        (kind = .secured ∧ handleSecuredBorrow c t hash request l₁ = (.ok .success, l') ∨
          kind = .unsecured ∧ ∃ named, decodeGuaranteeRefs c refs = .ok (some named) ∧
            handleUnsecuredBorrow c t hash request named l₁ = (.ok .success, l')) := by
  rw [handleTreasuryBorrow] at h
  split at h
  · cases h
  rename_i hguard
  have hsender : t.sender ≠ treasuryAddress := fun hcon => hguard (.inr (.inl hcon))
  have hpayment : 0 < t.amount := not_le.mp fun hcon => hguard (.inr (.inr hcon))
  obtain ⟨account, l₁, h₁, h₂⟩ := Eff.bind_eq_ok.mp h
  split at h₂
  · cases h₂
  obtain ⟨loanType, interval, count, refs, hnodes, h₂⟩ := dataNodes_of_success h₂
  split at h₂
  · cases h₂
  obtain ⟨kind, l₂, h₃, h₄⟩ := Eff.bind_eq_ok.mp h₂
  obtain ⟨hkind, rfl⟩ := Prod.mk.inj h₃
  refine ⟨hsender, hpayment, account, l₁, loanType, interval, count, refs, kind, h₁, hnodes, hkind,
    ?_⟩
  cases kind with
  | secured => exact .inl ⟨rfl, h₄⟩
  | unsecured =>
    obtain ⟨named, l₃, h₅, h₆⟩ := Eff.bind_eq_ok.mp h₄
    obtain ⟨hnamed, rfl⟩ := Prod.mk.inj h₅
    rcases named with _ | named
    · cases h₆
    exact .inr ⟨rfl, named, hnamed, h₆⟩

end Astreum
