import Astreum.Replay

namespace Astreum

variable {c : Ctx} {t : Transaction} {transactionHash : Bytes} {node : Node} {b b' b₂ : Block}
  {o : Outcome} {h : Handled} {priced : Priced} {counterMatched : Bool} {balance : Int}

/-- What is taken for dues one after another: each in full, as long as something is left. -/
def takeInOrder (remaining : Int) : List Int → List Int
  | [] => []
  | due :: dues => min remaining due :: takeInOrder (remaining - min remaining due) dues

theorem sum_takeInOrder {remaining : Int} (h : 0 ≤ remaining) (dues : List Int) :
    (takeInOrder remaining dues).sum ≤ remaining := by
  induction dues generalizing remaining with
  | nil => exact h
  | cons due dues ih =>
    have hrest : 0 ≤ remaining - min remaining due := by omega
    have hsum := ih hrest
    rw [takeInOrder, List.sum_cons]
    omega

section Settlement

/-- The settlement takes all that is owed and the transfer, or the fees in order and no transfer. -/
theorem settleFees_spec (balance tx data storage transfer : Int) :
    let s := settleFees balance tx data storage transfer
    ([tx, data, storage].sum + transfer ≤ balance ∧ s = ⟨tx, data, storage, transfer, true⟩) ∨
      (balance < [tx, data, storage].sum + transfer ∧
        [s.transactionFee, s.dataFee, s.storageFee] =
          takeInOrder (max 0 balance) [tx, data, storage] ∧
        s.transferAmount = 0 ∧ s.affordable = false) := by
  have hsum : [tx, data, storage].sum + transfer = tx + data + storage + transfer := by
    simp only [List.sum_cons, List.sum_nil]
    omega
  rw [settleFees, hsum]
  split
  · exact .inl ⟨‹_›, rfl⟩
  · exact .inr ⟨by omega, rfl, rfl, rfl⟩

theorem settleFees_dataFee (balance tx storage transfer : Int) :
    (settleFees balance tx 0 storage transfer).dataFee = 0 := by
  rw [settleFees]
  split
  · rfl
  · simp only
    omega

/-- The money of a receipt: what the sender pays is what the receipt and the transfer say, and the
storage account gets the storage fee of the receipt. The fees are taken in full, or in their order
as far as the balance goes. -/
structure ReceiptMatches (c : Ctx) (t : Transaction) (balance storage : Int) (owed : List Int)
    (moved : Int) (receipt : Receipt) (l : Ledger) : Prop where
  sender : (l.account c t.sender).map Account.balance = some (balance -
    (receipt.transactionFee + receipt.dataFee + receipt.storageFee + moved) +
      if t.sender = storageAddress then receipt.storageFee else 0)
  bounded : 0 ≤ balance →
    receipt.transactionFee + receipt.dataFee + receipt.storageFee + moved ≤ balance
  storage : t.sender ≠ storageAddress → (l.account c storageAddress).map Account.balance =
    some (storage + receipt.storageFee)
  order : [receipt.transactionFee, receipt.dataFee, receipt.storageFee] =
    if owed.sum + moved ≤ balance then owed else takeInOrder (max 0 balance) owed

theorem exists_storage_of_deduct {s : FeeSettlement} {l l' : Ledger}
    (hd : deduct t counterMatched h s l = (.ok (), l')) :
    ∃ storage, l.account c storageAddress = some storage := by
  obtain ⟨_, l₁, h₁, hd⟩ := Eff.bind_eq_ok.mp hd
  obtain ⟨_, l₂, h₂, -⟩ := Eff.bind_eq_ok.mp hd
  obtain ⟨account, haccount, -⟩ := mutate_eq_ok.mp h₂
  have hview := account_of_mutate (c := c) h₁ storageAddress
  rw [Ledger.account_of_cached haccount] at hview
  obtain ⟨storage, hstorage, -⟩ := Option.map_eq_some_iff.mp hview.symm
  exact ⟨storage, hstorage⟩

/-- What the deductions leave of a settlement for the receipt that was made of it. -/
theorem receiptMatches_of_deduct {s : FeeSettlement} {tx storageFee transfer moved : Int}
    {l l' : Ledger} {receipt : Receipt} {sender storage : Account}
    (hd : deduct t counterMatched h s l = (.ok (), l'))
    (hfresh : ∀ account, h.recipient = .fresh account →
      t.recipient ≠ t.sender ∧ t.recipient ≠ storageAddress)
    (hsender : l.account c t.sender = some sender)
    (hstorage : l.account c storageAddress = some storage)
    (hs : s = settleFees sender.balance tx 0 storageFee transfer)
    (hmoved : moved = s.transferAmount) (hcovered : s.affordable = false → transfer = 0)
    (htx : receipt.transactionFee = s.transactionFee) (hdata : receipt.dataFee = s.dataFee)
    (hfee : receipt.storageFee = s.storageFee) :
    ReceiptMatches c t sender.balance storage.balance [tx, 0, storageFee] moved receipt l' := by
  have htotal : s.total =
      receipt.transactionFee + receipt.dataFee + receipt.storageFee + moved := by
    rw [FeeSettlement.total, htx, hdata, hfee, hmoved]
  have horder : [receipt.transactionFee, receipt.dataFee, receipt.storageFee] =
      if [tx, 0, storageFee].sum + moved ≤ sender.balance then [tx, 0, storageFee]
      else takeInOrder (max 0 sender.balance) [tx, 0, storageFee] := by
    rw [htx, hdata, hfee, hmoved]
    rcases settleFees_spec sender.balance tx 0 storageFee transfer with
      ⟨hpays, hpaid⟩ | ⟨hpoor, hpaid, hnone, hfalse⟩
    · rw [hs, hpaid, if_pos hpays]
    · rw [← hs] at hpaid hnone hfalse
      rw [hcovered hfalse] at hpoor
      rw [hnone, if_neg (not_le.mpr hpoor), hpaid]
  refine ⟨?_, fun hb => ?_, fun hne => ?_, horder⟩
  · rw [account_of_deduct hd fun account hr => (hfresh account hr).1, hsender, ← htotal, hfee]
    simp [chargedAccount]
  · have hsum := congrArg List.sum horder
    have hle := sum_takeInOrder (le_max_left 0 sender.balance) [tx, 0, storageFee]
    split at hsum
    · simp only [List.sum_cons, List.sum_nil] at *
      omega
    · rename_i hpoor
      have hmoved' : moved = 0 := by
        rcases settleFees_spec sender.balance tx 0 storageFee transfer with
          ⟨hpays, hpaid⟩ | ⟨-, -, hnone, -⟩
        · rw [hs, hpaid] at hmoved
          exact absurd (hmoved ▸ hpays) hpoor
        · rw [hmoved, hs, hnone]
      rw [← hsum, max_eq_right hb] at hle
      simp only [List.sum_cons, List.sum_nil] at hle
      omega
  · rw [account_of_deduct hd fun account hr => (hfresh account hr).2, hstorage, hfee]
    simp [chargedAccount, Ne.symm hne]

theorem settle_status (balance : Int) (h : Handled) (receipt : Receipt) :
    (settle transactionHash balance h receipt).1 =
      if (settleFees balance (1 + h.evaluationFee) 0 receipt.storageFee h.transferAmount).affordable
      then h.status else .failed := by
  simp only [settle, apply_ite Prod.fst, ite_self]

/-- A transaction whose handler and pricing succeed and whose sender can pay succeeds. -/
theorem finish_succeeds {snapshot : Ledger}
    (hf : finish t transactionHash snapshot counterMatched h c b = (.ok o, b'))
    (hs : h.status = .success)
    (hprice : priceOnBlock t transactionHash h c b = (.ok (balance, priced), b₂))
    (hpriced : priced.status = .success)
    (hpays : 1 + h.evaluationFee + h.transferAmount + priced.receipt.storageFee ≤ balance) :
    o.status = .success := by
  obtain ⟨h₁, b₁, e₁, hf₁⟩ := Eff.bind_eq_ok.mp hf
  obtain ⟨⟨balance', priced'⟩, b₃, e₂, hf₂⟩ := Eff.bind_eq_ok.mp hf₁
  obtain ⟨h₃, b₄, e₃, hf₃⟩ := Eff.bind_eq_ok.mp hf₂
  rcases rollbackFailed_eq_ok e₁ with ⟨-, rfl, rfl⟩ | ⟨hcon, -, -⟩
  · rw [hprice] at e₂
    cases e₂
    have hlate : lateStatus balance h₁ priced = .success := by
      rw [lateStatus, if_neg (not_lt.mpr hpays), hpriced]
    rcases rollbackLate_eq_ok e₃ with ⟨-, rfl, rfl⟩ | ⟨hcon, -⟩ | ⟨hcon, -⟩
    · obtain ⟨inserted, sender, -, hsender, hbalance, -, rfl⟩ := priceOnBlock_eq_ok hprice
      obtain ⟨sender', status, s, receipt, hsender', hset, hc⟩ := conclude_eq_ok hf₃
      obtain rfl : sender = sender' := Option.some.inj (hsender.symm.trans hsender')
      rw [hc.outcome]
      have hstatus := congrArg Prod.fst hset
      rw [settle_status, settleFees_affordable (by rw [← hbalance]; simp only; omega)] at hstatus
      exact hstatus.symm
    · rw [hlate] at hcon
      cases hcon
    · rw [hlate] at hcon
      cases hcon
  · rw [hs] at hcon
    cases hcon

/-- The receipt matches the money. `l₀` is the ledger before the handler, to which a failed
transaction is rolled back, `l₁` the one after it, and `balance` what the sender had when the
transaction was priced. -/
theorem receipt_matches_money (hrun : applyTxEffects t transactionHash node b = (.ok o, b')) :
    ∃ g l₀ h l₁ h₁ b₁ balance priced b₂ receipt sender storage,
      enter (b.ctx node) false t b.ledger = (.ok g, l₀) ∧
      runHandler (b.ctx node) t false b.pendingBloomKeys (b.nestedApply node) transactionHash g l₀ =
        (.ok h, l₁) ∧
      rollbackFailed l₀ h { b with ledger := l₁ } = (.ok h₁, b₁) ∧
      priceOnBlock t transactionHash h₁ (b.ctx node) b₁ = (.ok (balance, priced), b₂) ∧
      b'.receipts = b.receipts ++ [receipt] ∧ o.status = receipt.status ∧
      let owed := [1 + h.evaluationFee, 0, priced.receipt.storageFee]
      let after := if receipt.status = .success then l₁ else l₀
      (receipt.status = .success ↔ h.status = .success ∧ priced.status = .success ∧
        owed.sum + h.transferAmount ≤ balance) ∧
      (receipt.status = .success → sender.balance = balance) ∧
      after.account (b.ctx node) t.sender = some sender ∧
      after.account (b.ctx node) storageAddress = some storage ∧
      ReceiptMatches (b.ctx node) t sender.balance storage.balance owed
        (if receipt.status = .success then h.transferAmount else 0) receipt b'.ledger := by
  obtain ⟨g, l₀, h, l₁, e₀, e₁, hf⟩ := applyTxEffects_eq_ok hrun
  obtain ⟨h₁, b₁, balance, priced, b₂, inserted, sender, e₂, e₃, hp, hins, hcase⟩ := finish_eq_ok hf
  have hsum : ∀ x : Int, [1 + h.evaluationFee, 0, x].sum = 1 + h.evaluationFee + x := by
    intro x
    simp only [List.sum_cons, List.sum_nil]
    omega
  rcases hcase with ⟨hs, rfl, rfl, hpriced, hpays, hsender, hc⟩ | ⟨hsender, hc⟩
  · -- the transaction succeeds
    have hview : l₁.account (b.ctx node) t.sender = some sender := Ledger.account_of_cached hsender
    obtain ⟨storage, hstorage⟩ := @exists_storage_of_deduct (b.ctx node) _ _ _ _ _ _ hc.deducted
    obtain ⟨_, sender', -, hsender', hbalance, -, -⟩ := priceOnBlock_eq_ok e₃
    obtain rfl : sender = sender' := Option.some.inj (hsender.symm.trans hsender')
    have hfresh := fresh_runHandler _ _ _ _ l₀ trivial h₁ l₁ e₁
    refine ⟨g, l₀, h₁, l₁, h₁, _, balance, priced, b₂, _, sender, storage, e₀, e₁, e₂, e₃,
      hc.receipts, by rw [hc.outcome]; rfl, ?_⟩
    refine ⟨⟨fun _ => ⟨hs, hpriced, ?_⟩, fun _ => rfl⟩, fun _ => hbalance.symm, hview, hstorage, ?_⟩
    · rw [hsum, hbalance]
      omega
    · refine receiptMatches_of_deduct hc.deducted (fun account hr => ?_) hview hstorage rfl ?_ ?_
        rfl ?_ rfl
      · exact ⟨(hfresh account hr).1, (hfresh account hr).2.1⟩
      · rw [settleFees_affordable (by omega)]
        rfl
      · rw [settleFees_affordable (by omega)]
        intro hcon
        cases hcon
      · rw [settleFees_affordable (by omega)]
        rfl
  · -- the transaction fails
    have hview : l₀.account (b.ctx node) t.sender = some sender := Ledger.account_of_cached hsender
    obtain ⟨storage, hstorage⟩ := @exists_storage_of_deduct (b.ctx node) _ _ _ _ _ _ hc.deducted
    refine ⟨g, l₀, h, l₁, h₁, b₁, balance, priced, b₂, _, sender, storage, e₀, e₁, e₂, e₃,
      hc.receipts, by rw [hc.outcome]; rfl, ?_⟩
    refine ⟨⟨fun hcon => (by cases hcon), fun hall => ?_⟩, fun hcon => (by cases hcon), hview,
      hstorage, ?_⟩
    · -- a transaction that can pay and passes its checks does not fail
      obtain ⟨hs, hpriced, hpays⟩ := hall
      rcases rollbackFailed_eq_ok e₂ with ⟨-, rfl, rfl⟩ | ⟨hcon, -, -⟩
      · rw [hsum] at hpays
        have hok := finish_succeeds hf hs e₃ hpriced (by omega)
        rw [hc.outcome] at hok
        cases hok
      · rw [hs] at hcon
        cases hcon
    · refine receiptMatches_of_deduct hc.deducted (fun account hr => by cases hr) hview hstorage rfl
        ?_ (fun _ => rfl) rfl ?_ rfl
      · rcases settleFees_spec sender.balance (1 + h.evaluationFee) 0 priced.receipt.storageFee 0
          with ⟨-, hpaid⟩ | ⟨-, -, hnone, -⟩
        · exact (congrArg FeeSettlement.transferAmount hpaid).symm
        · exact hnone.symm
      · exact (settleFees_dataFee sender.balance _ _ _).symm

/-- A block on a parent with as much stake as fees, so that every byte has a price. -/
def pricedBlock (accounts : List (Bytes × Account)) : Block :=
  { blockOf accounts with
    header := { firstHeader with previousBlock := some ⟨none, 0, [⟨1, 1, 0, 0, 0, 0⟩], 0⟩ } }

def pricedAlice : Block :=
  pricedBlock [(aliceAddress, createAccount 100000 zero32),
    (storageAddress, createAccount 0 zero32)]

theorem receipt_of_alice :
    let t := aliceSends .transfer bobAddress 3
    let run := applyTxEffects t aliceHash bareNode pricedAlice
    ∃ receipt sender storage owed moved, run.2.receipts = [receipt] ∧ receipt.status = .success ∧
      ReceiptMatches (pricedAlice.ctx bareNode) t sender storage owed moved receipt
        run.2.ledger := by
  have hrun : (applyTxEffects (aliceSends .transfer bobAddress 3) aliceHash bareNode
      pricedAlice).1 = .ok ⟨.success, 0, 0, []⟩ := by decide +kernel
  obtain ⟨_, _, _, _, _, _, _, _, _, receipt, sender, storage, -, -, -, -, hreceipts, hstatus, -, -,
    -, -, hmatches⟩ := receipt_matches_money (Eff.eq_of_fst hrun)
  exact ⟨receipt, _, _, _, _, hreceipts, hstatus.symm, hmatches⟩

/-- Where the storage account sends a transaction itself, its storage fee comes back to it. -/
theorem storage_account_pays_itself :
    let t := { aliceSends .transfer bobAddress 3 with sender := storageAddress }
    let run := applyTxEffects t aliceHash bareNode
      (pricedBlock [(storageAddress, createAccount 100000 zero32)])
    run.1.map Outcome.status = .ok .success ∧
      run.2.receipts.map (fun r => (r.transactionFee, r.dataFee, r.storageFee)) = [(1, 0, 3664)] ∧
      (run.2.ledger.cache.get? storageAddress).map Account.balance = some 99996 ∧
      (99996 : Int) ≠ 100000 - (1 + 0 + 3664 + 3) := by
  decide +kernel

end Settlement

end Astreum
