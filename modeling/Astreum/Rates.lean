import Astreum.Double
import Astreum.Transaction

namespace Astreum

/-- What a sender pays of its fees and of its transfer. -/
structure FeeSettlement where
  transactionFee : Int
  dataFee : Int
  storageFee : Int
  transferAmount : Int
  affordable : Bool
  deriving DecidableEq

def FeeSettlement.total (s : FeeSettlement) : Int :=
  s.transactionFee + s.dataFee + s.storageFee + s.transferAmount

/-- A sender that cannot pay everything pays the fees in order, as far as its balance goes. -/
def settleFees (balance transactionFee dataFee storageFee transferAmount : Int) : FeeSettlement :=
  if transactionFee + dataFee + storageFee + transferAmount ≤ balance then
    ⟨transactionFee, dataFee, storageFee, transferAmount, true⟩
  else
    let remaining := max 0 balance
    let paidTransaction := min remaining transactionFee
    let remaining := remaining - paidTransaction
    let paidData := min remaining dataFee
    let remaining := remaining - paidData
    ⟨paidTransaction, paidData, min remaining storageFee, 0, false⟩

theorem settleFees_affordable {balance tx data storage transfer : Int}
    (h : tx + data + storage + transfer ≤ balance) :
    settleFees balance tx data storage transfer = ⟨tx, data, storage, transfer, true⟩ :=
  if_pos h

/-- Who owes no data fee and moves nothing pays a transaction fee and a storage fee. -/
theorem settleFees_parts (balance tx storage : Int) :
    (settleFees balance tx 0 storage 0).total =
      (settleFees balance tx 0 storage 0).transactionFee +
        (settleFees balance tx 0 storage 0).storageFee := by
  rw [settleFees]
  split
  · simp [FeeSettlement.total]
  · simp only [FeeSettlement.total]
    omega

/-- Who owes no data fee and moves nothing pays what it owes, or everything it has. -/
theorem settleFees_total (balance tx : Int) {storage : Int} (h : 0 ≤ storage) :
    (settleFees balance tx 0 storage 0).total = min (max 0 balance) (tx + storage) := by
  rw [settleFees]
  split
  · simp only [FeeSettlement.total]
    omega
  · simp only [FeeSettlement.total]
    omega

/-- The price of cells of `totalBytes`: the stake's share of the fees so far, rounded up, for each
provider of a record. -/
def calculateStorageFee (h : Header) (totalBytes : Int) : Py Int :=
  match h.previousBlock with
  | none => .ok 0
  | some previous =>
    let numerator := totalBytes * previous.cumulativeStake
    let denominator := previous.cumulativeTotalFee
    if denominator ≤ 0 then .error .valueError
    else .ok (Python.floorDiv (numerator + denominator - 1) denominator * providersPerRecord)

theorem calculateStorageFee_nonneg {h : Header} {bytes fee : Int} (hb : 0 ≤ bytes)
    (hs : ∀ p, h.previousBlock = some p → 0 ≤ p.cumulativeStake)
    (hf : calculateStorageFee h bytes = .ok fee) : 0 ≤ fee := by
  rcases hp : h.previousBlock with _ | p
  · simp only [calculateStorageFee, hp, Except.ok.injEq] at hf
    exact hf.le
  · simp only [calculateStorageFee, hp] at hf
    split at hf
    · cases hf
    · rename_i hd
      have hn : 0 ≤ bytes * p.cumulativeStake + p.cumulativeTotalFee - 1 := by
        have := Int.mul_nonneg hb (hs p hp)
        omega
      have hq := Int.fdiv_nonneg hn (not_le.mp hd).le
      obtain rfl := Except.ok.inj hf
      simp only [Python.floorDiv, providersPerRecord]
      omega

section Walk

variable (node : Node)

/-- `_typed_payload_size`. `none` stands for an unresolved record cell. -/
def typedPayloadSize (e : Expr) : Py (Option (Option Nat)) :=
  match e with
  | .link v h t =>
    if e.isBuiltinComposite then
      match payload? v t with
      | some p => .ok (some (some p.length))
      | none => match h with
        | .loaded (.bytes b) => .ok (some (some b.length))
        | _ => .error .typeError
    else
      let composite := match t with
        | .none => false
        | t => match builtinTypeOfHash node.blake3 (t.hash node.blake3) with
          | some name => decide (name ∈ builtinCompositeTypeNames)
          | none => false
      if !composite then .ok (some none)
      else
        let head : Option (Option Expr) := match h with
          | .loaded e => some (some e)
          | .byHash x => (getExpr node x).map some
          | .none => some none
        match head with
        | none => .ok none
        | some (some (.bytes b)) => .ok (some (some b.length))
        | some (some (.bytesOf _)) => .error .typeError
        | some _ => .ok (some none)
  | _ => .ok (some none)

/-- `_flat_size`: what one cell is charged for. -/
def flatSize (e : Expr) : Py (Option Nat) := do
  match ← typedPayloadSize node e with
  | none => return none
  | some (some n) => return some n
  | some none =>
    if node.tag e ≠ "link" then return some (← e.size)
    else return some 64

/-- `_cell_children(e, follow_refs=True)`. -/
def cellChildren (e : Expr) : Py (List (Option Expr × Bytes)) := do
  if node.tag e ≠ "link" then return []
  match ← typedPayloadSize node e with
  | some none =>
    let side (ch : Child) : Py (List (Option Expr × Bytes)) := match ch with
      | .loaded e => do
        let h ← node.hash? e
        return if h = zero32 then [] else [(some e, h)]
      | .byHash h => .ok (if h = zero32 then [] else [(none, h)])
      | .none => .ok []
    let head ← side e.headChild
    let tail ← side e.tailChild
    return head ++ tail
  | _ => return []

/-- The loop of `storage_walk_size`: cells seen once are charged once. -/
def storageWalkFrom : Nat → List (Option Expr × Bytes) → List Bytes → Nat → Py (Option Nat)
  | 0, _, _, _ => .error .outOfFuel
  | _ + 1, [], _, total => .ok (some total)
  | n + 1, (sub, h) :: stack, seen, total =>
    if h ∈ seen then storageWalkFrom n stack seen total
    else match sub.or (getExpr node h) with
      | none => .ok none
      | some e => do
        match ← flatSize node e with
        | none => return none
        | some size =>
          let children ← cellChildren node e
          storageWalkFrom n (children ++ stack) (h :: seen) (total + size)

def storageWalkSize (e : Expr) (exclude : List Bytes) : Py (Option Nat) := do
  let h ← node.hash? e
  storageWalkFrom node node.fuel [(some e, h)] exclude 0

end Walk

section Pricing

variable (c : Ctx)

def storageWalkFee (e : Expr) (exclude : List Bytes) : Py (Option Int) := do
  match ← storageWalkSize c.node e exclude with
  | none => return none
  | some size => return some (← calculateStorageFee c.header size)

/-- The rounds of `receipt_at_fixed_point`. -/
def receiptRounds (build : Int → Receipt) (baseFee : Int) (named : List Bytes) :
    Nat → Int → Py (Option Receipt)
  | 0, storageFee => .ok (some (build storageFee))
  | n + 1, storageFee => do
    match ← storageWalkFee c (build storageFee).expr named with
    | none => return none
    | some ownFee =>
      let nextFee := baseFee + ownFee
      if nextFee = storageFee then return some (build storageFee)
      else receiptRounds build baseFee named n (max storageFee nextFee)

/-- The receipt whose storage fee pays for its own cells as well. -/
def receiptAtFixedPoint (build : Int → Receipt) (baseFee : Int) (named : List Bytes) :
    Py (Option Receipt) :=
  receiptRounds c build baseFee named 8 baseFee

variable {c : Ctx}

theorem storageWalkFee_nonneg {e : Expr} {exclude : List Bytes} {fee : Int}
    (hs : ∀ p, c.header.previousBlock = some p → 0 ≤ p.cumulativeStake)
    (hf : storageWalkFee c e exclude = .ok (some fee)) : 0 ≤ fee := by
  rw [storageWalkFee, except_bind_eq_ok] at hf
  obtain ⟨_ | size, -, hf⟩ := hf
  · cases hf
  · obtain ⟨a, ha, h⟩ := except_bind_eq_ok.mp hf
    obtain rfl := Option.some.inj (Except.ok.inj h)
    exact calculateStorageFee_nonneg (Int.natCast_nonneg size) hs ha

/-- The receipt found is built with a fee that covers the base fee. -/
theorem receiptRounds_eq_some {build : Int → Receipt} {base : Int} {named : List Bytes} {n : Nat}
    {fee : Int} {r : Receipt} (hfee : base ≤ fee)
    (h : receiptRounds c build base named n fee = .ok (some r)) :
    ∃ f, base ≤ f ∧ r = build f := by
  induction n generalizing fee with
  | zero => exact ⟨fee, hfee, (Option.some.inj (Except.ok.inj h)).symm⟩
  | succ n ih =>
    rw [receiptRounds, except_bind_eq_ok] at h
    obtain ⟨_ | own, hown, h⟩ := h
    · cases h
    · simp only at h
      split at h
      · exact ⟨fee, hfee, (Option.some.inj (Except.ok.inj h)).symm⟩
      · exact ih (le_trans hfee (le_max_left _ _)) h

end Pricing

section Windows

/-- `float(n)`. -/
def toFloat (n : Int) : Py Double :=
  match Double.ofInt? n with
  | some x => .ok x
  | none => .error .overflowError

/-- `int(x)`. -/
def truncate : Double → Py Int
  | .nan => .error .valueError
  | .inf _ => .error .overflowError
  | x => .ok (x.toInt?.getD 0)

/-- `int(prev * (1 - alpha) + curr * alpha)`. -/
def blend (alpha : Double) (prev curr : Int) : Py Int := do
  let prev ← toFloat prev
  let curr ← toFloat curr
  truncate ((prev.mul ((Double.num 1).sub alpha)).add (curr.mul alpha))

/-- `height % duration / duration`. -/
def windowProgress (height duration : Int) : Double :=
  Double.round binary64 (Python.floorMod height duration / duration)

def windowIndex (duration : Int) (statistics : List Window) : Option Window :=
  if Python.isPowerOfTwo duration then statistics[Python.bitLength duration]? else none

/-- The fees and the stake of the last `duration` blocks, or of all blocks for a duration of zero. -/
def windowedRateFraction (h : Header) (duration : Int) : Py (Option (Int × Int)) :=
  match h.previousBlock with
  | none => .ok none
  | some previous => match previous.statistics with
    | [] => .ok none
    | total :: _ =>
      if duration = 0 then
        .ok (if total.prevStake ≤ 0 then none else some (total.prevFee, total.prevStake))
      else match windowIndex duration previous.statistics with
        | none => .ok none
        | some w =>
          if w.prevStake ≤ 0 then .ok none
          else do
            let alpha := windowProgress previous.height duration
            let fee ← blend alpha w.prevFee w.currFee
            let stake ← blend alpha w.prevStake w.currStake
            return if stake ≤ 0 then none else some (fee, stake)

/-- The claims of the last `duration` blocks. -/
def windowedClaims (previous : Parent) (duration : Int) : Py (Option Int) :=
  match windowIndex duration previous.statistics with
  | none => .ok none
  | some w => some <$> blend (windowProgress previous.height duration) w.prevClaims w.currClaims

/-- What a loan of `paymentCount` payments is worth now, at a rate per block. -/
def calculateDiscountedAmount (paymentAmount paymentIntervalBlocks paymentCount rateNumerator
    rateDenominator : Int) : Option Int :=
  if paymentAmount ≤ 0 ∨ paymentIntervalBlocks ≤ 0 ∨ paymentCount ≤ 0 ∨ rateDenominator ≤ 0 ∨
      rateDenominator + rateNumerator ≤ 0 then none
  else if rateNumerator = 0 then some (paymentAmount * paymentCount)
  else
    let periodNumerator := (rateDenominator + rateNumerator) ^ paymentIntervalBlocks.toNat
    let periodDenominator := rateDenominator ^ paymentIntervalBlocks.toNat
    let numerator := paymentAmount * periodDenominator *
      (periodNumerator ^ paymentCount.toNat - periodDenominator ^ paymentCount.toNat)
    let denominator := periodNumerator ^ paymentCount.toNat * (periodNumerator - periodDenominator)
    if denominator = 0 then none
    else
      let sign := if denominator < 0 then -1 else 1
      if sign * numerator ≤ 0 then none
      else
        let amount := Python.floorDiv (sign * numerator) (sign * denominator)
        if amount < 1 then none else some amount

end Windows

section Votes

def sharedPrefixBits (a b : Bytes) : Int :=
  a.length * 8 -
    Python.bitLength (Python.fromBytesBig (List.zipWith (fun x y => x ^^^ y) a b))

def distanceDelta (sender winner storageId : Bytes) : Int :=
  if winner = zero32 then 0
  else sharedPrefixBits sender storageId - sharedPrefixBits winner storageId

def requiredBits (sender winner storageId : Bytes) (elapsed storageDifficulty : Int) : Int :=
  if sender = winner then 0
  else max 0 (storageDifficulty - (Python.bitLength (max 1 elapsed) - 1) -
    distanceDelta sender winner storageId)

def takeoverPosition (elapsed delta : Int) : Int :=
  if delta < 0 then elapsed >>> (-delta).toNat else elapsed * 2 ^ delta.toNat

def takeoverVote (position : Int) (fairInterval : Option Int) : Int :=
  match fairInterval with
  | none => 0
  | some fair => if position = fair then 0 else if position < fair then 1 else -1

def parentStorageDifficulty (h : Header) : Int :=
  match h.previousBlock with
  | none => 0
  | some previous => previous.storageDifficulty

/-- The loop of `fair_interval`: the least window with a claim for each lane, or the greatest. -/
def fairWindow (previous : Parent) (lanes : Int) : Nat → Nat → Int × Int → Py (Int × Int)
  | 0, _, found => .ok found
  | n + 1, i, _ => do
    let window := 2 ^ i
    let claims := (← windowedClaims previous window).getD 0
    if lanes ≤ claims then return (window, claims)
    else fairWindow previous lanes n (i + 1) (window, claims)

def fairInterval (h : Header) : Py (Option Int) :=
  match h.previousBlock with
  | none => .ok none
  | some previous =>
    if previous.statistics = [] then .ok none
    else do
      let lanes := providersPerRecord * previous.height
      let (window, claims) ← fairWindow previous lanes (previous.statistics.length - 1) 0 (0, 0)
      return if claims ≤ 0 then none else some (Python.floorDiv (lanes * window) claims)

end Votes

end Astreum
