import Astreum.Apply

namespace Astreum

variable {c : Ctx} {t : Transaction} {transactionHash : Bytes} {h : Handled}

/-- A running price that started from `status`: a failure stays, and where `stake` holds nothing
negative was added up. -/
structure Running.From (status : Status) (stake : Prop) (r : Running) : Prop where
  failed : status = .failed → r.status = .failed
  nonneg : stake → 0 ≤ r.storageFee

section Running

variable {status : Status} {stake : Prop} {r : Running}

theorem Running.From.check (hr : r.From status stake) (balance owed : Int) :
    (r.check balance owed).From status stake := by
  rw [Running.check]
  split
  · exact ⟨fun _ => rfl, hr.nonneg⟩
  · exact hr

theorem Running.From.add (hr : r.From status stake) (fee : Option Int)
    (hf : stake → ∀ f, fee = some f → 0 ≤ f) : (r.add fee).From status stake := by
  rcases fee with _ | fee
  · exact ⟨fun _ => rfl, hr.nonneg⟩
  · exact ⟨hr.failed, fun hs => Int.add_nonneg (hr.nonneg hs) (hf hs fee rfl)⟩

theorem Running.From.ite {p : Prop} [Decidable p] {r' : Running} (hr : r.From status stake)
    (hr' : r'.From status stake) : (if p then r else r').From status stake := by
  split
  · exact hr
  · exact hr'

end Running

theorem batchesFee_nonneg (hs : ∀ p, c.header.previousBlock = some p → 0 ≤ p.cumulativeStake)
    {batches : List (Bytes × List Bytes)} {fee : Int} (hf : batchesFee c batches = .ok fee) :
    0 ≤ fee := by
  induction batches generalizing fee with
  | nil => exact (Except.ok.inj hf).le
  | cons b bs ih =>
    obtain ⟨a, elements⟩ := b
    obtain ⟨x, hx, hf⟩ := except_bind_eq_ok.mp hf
    obtain ⟨y, hy, hf⟩ := except_bind_eq_ok.mp hf
    obtain rfl := Except.ok.inj hf
    exact Int.add_nonneg (calculateStorageFee_nonneg (by omega) hs hx) (ih hy)

theorem pendingBloomFee_nonneg
    (hs : ∀ p, c.header.previousBlock = some p → 0 ≤ p.cumulativeStake) {status : Status}
    {keys : List Bytes} {fee : Int} (hf : pendingBloomFee c status keys = .ok fee) : 0 ≤ fee := by
  rw [pendingBloomFee] at hf
  split at hf
  · exact (Except.ok.inj hf).le
  · exact calculateStorageFee_nonneg (by omega) hs hf

theorem logsFee_nonneg (hs : ∀ p, c.header.previousBlock = some p → 0 ≤ p.cumulativeStake)
    {logs : List Expr} {fee : Option Int} (hf : logsFee c logs = .ok fee) :
    ∀ f, fee = some f → 0 ≤ f := by
  rintro f rfl
  rw [logsFee] at hf
  split at hf
  · exact (Option.some.inj (Except.ok.inj hf)).le
  · exact storageWalkFee_nonneg hs hf

theorem recipientFee_nonneg (hs : ∀ p, c.header.previousBlock = some p → 0 ≤ p.cumulativeStake)
    {recipient : Recipient} {fee : Option Int} (hf : recipientFee c recipient = .ok fee) :
    ∀ f, fee = some f → 0 ≤ f := by
  rintro f rfl
  cases recipient with
  | fresh account => exact storageWalkFee_nonneg hs hf
  | none => exact (Option.some.inj (Except.ok.inj hf)).le
  | held => exact (Option.some.inj (Except.ok.inj hf)).le

/-- What the pricing of a transaction decides. -/
structure PricedAs (c : Ctx) (t : Transaction) (transactionHash : Bytes) (h : Handled)
    (involved involvedAccounts : List Bytes) (p : Priced) : Prop where
  failed : h.status = .failed → p.status = .failed
  batches : p.batches = if h.status = .success then
    involvedBatches t transactionHash involved involvedAccounts else []
  logsExpr : p.logsExpr = exprsToLinkedExpr h.logs
  receipt : p.receipt = buildReceipt transactionHash (1 + h.evaluationFee) h.evaluationFee h.minted
    p.receipt.logsHash p.status p.receipt.storageFee
  storageFee : (∀ q, c.header.previousBlock = some q → 0 ≤ q.cumulativeStake) →
    0 ≤ p.receipt.storageFee

theorem pricedAs {balance : Int} {involved involvedAccounts : List Bytes} {p : Priced}
    (hp : priceTransaction c t transactionHash h balance involved involvedAccounts = .ok p) :
    PricedAs c t transactionHash h involved involvedAccounts p := by
  simp only [priceTransaction] at hp
  obtain ⟨bloomFee, hbloom, hp⟩ := except_bind_eq_ok.mp hp
  obtain ⟨batchFee, hbatch, hp⟩ := except_bind_eq_ok.mp hp
  obtain ⟨keysFee, hkeys, hp⟩ := except_bind_eq_ok.mp hp
  obtain ⟨txFee, htx, hp⟩ := except_bind_eq_ok.mp hp
  obtain ⟨logs, hlogs, hp⟩ := except_bind_eq_ok.mp hp
  obtain ⟨fresh, hfresh, hp⟩ := except_bind_eq_ok.mp hp
  obtain ⟨logsHash, -, hp⟩ := except_bind_eq_ok.mp hp
  obtain ⟨found, hfound, hp⟩ := except_bind_eq_ok.mp hp
  -- every part that is added keeps the running price well formed
  have h₀ : Running.From h.status
      (∀ q, c.header.previousBlock = some q → 0 ≤ q.cumulativeStake)
      ⟨h.status, bloomFee + batchFee⟩ :=
    ⟨id, fun hs => Int.add_nonneg (calculateStorageFee_nonneg (by omega) hs hbloom)
      (batchesFee_nonneg hs hbatch)⟩
  have h₁ := (h₀.check balance (1 + h.evaluationFee + h.transferAmount)).add (some keysFee)
    fun hs f hf => Option.some.inj hf ▸ pendingBloomFee_nonneg hs hkeys
  have h₂ := (h₁.check balance (1 + h.evaluationFee + h.transferAmount)).add txFee
    fun hs f hf => storageWalkFee_nonneg hs (hf ▸ htx)
  have h₃ := (Running.From.ite (p := txFee.isSome = true)
    (h₂.check balance (1 + h.evaluationFee + h.transferAmount)) h₂).add logs
    fun hs => logsFee_nonneg hs hlogs
  have h₄ := (Running.From.ite (p := h.logs ≠ [] ∧ logs.isSome = true)
    (h₃.check balance (1 + h.evaluationFee + h.transferAmount)) h₃).add fresh
    fun hs => recipientFee_nonneg hs hfresh
  rcases found with _ | receipt
  · obtain rfl := Except.ok.inj hp
    exact ⟨fun _ => rfl, rfl, rfl, rfl, h₄.nonneg⟩
  · obtain rfl := Except.ok.inj hp
    obtain ⟨fee, hfee, rfl⟩ := receiptRounds_eq_some le_rfl hfound
    exact ⟨h₄.failed, rfl, rfl, rfl, fun hs => le_trans (h₄.nonneg hs) hfee⟩

end Astreum
