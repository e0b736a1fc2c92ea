import Astreum.Apply
import Astreum.Guarantees
import Astreum.ValidatorDraw

namespace Astreum

open Eff

section Stakes

/-- The stake in the cell of a user record. -/
def cellStake : Expr → Int
  | .link _ (.loaded head) _ => match head.value with
    | .int n => n
    | _ => 0
  | _ => 0

/-- The stake that a value of the treasury's tree names. -/
def TreeValue.stake : TreeValue → Int
  | .expr e => cellStake e
  | .hashOf e => cellStake e

variable (c : Ctx)

def stakeAt (l : Ledger) (user : Bytes) : Int := ((l.userAt c user).map TreeValue.stake).getD 0

/-- The tree of the treasury, which is empty where there is no treasury. -/
def Ledger.userTree (l : Ledger) : Tree :=
  ((l.account c treasuryAddress).map Account.data).getD .empty

/-- The sum of all stakes. -/
def totalStake (l : Ledger) : Int := (l.userTree c).sum fun _ v => v.stake

/-- What the treasury names is user records. -/
def Ledger.NamesRecords (l : Ledger) : Prop :=
  ∀ user v, l.userAt c user = some v → ∃ record : TreasuryUserRecord, v = .hashOf record.expr

variable {c} {l l' : Ledger}

@[simp] theorem stake_hashOf_expr (record : TreasuryUserRecord) :
    (TreeValue.hashOf record.expr).stake = record.balance := rfl

theorem userAt_eq_get? (user : Bytes) : l.userAt c user = (l.userTree c).get? user := by
  rw [Ledger.userAt, Ledger.userTree]
  cases l.account c treasuryAddress <;> rfl

/-- The sum of a tree's stakes is that of what can be looked up, over any keys that are enough. -/
theorem sum_stake_eq (d : Tree) {keys : Finset Bytes} (h : ∀ k ∈ d.keys, k ∈ keys) :
    (d.sum fun _ v => v.stake) = ∑ k ∈ keys, ((d.get? k).map TreeValue.stake).getD 0 := by
  have hpairs : (d.pairs.map fun p => p.2.stake) =
      d.keys.map fun k => ((d.get? k).map TreeValue.stake).getD 0 := by
    rw [Dict.keys, List.map_map]
    refine List.map_congr_left fun p hp => ?_
    simp only [Function.comp, Dict.get?_eq_some.mpr hp, Option.map_some, Option.getD_some]
  have hnodup : d.keys.Nodup := d.nodup
  rw [Dict.sum, hpairs, ← List.sum_toFinset _ hnodup]
  refine Finset.sum_subset (fun k hk => h k (List.mem_toFinset.mp hk)) fun k _ hk => ?_
  rw [Dict.get?_eq_none.mpr fun hcon => hk (List.mem_toFinset.mpr hcon)]
  rfl

/-- Where one stake changes, the sum changes by as much. -/
theorem totalStake_of_others {user : Bytes}
    (h : ∀ u, u ≠ user → stakeAt c l' u = stakeAt c l u) :
    totalStake c l' = totalStake c l + stakeAt c l' user - stakeAt c l user := by
  let keys := ((l.userTree c).keys ++ (l'.userTree c).keys ++ [user]).toFinset
  have huser : user ∈ keys := by simp [keys]
  have hsum : totalStake c l = ∑ k ∈ keys, stakeAt c l k := by
    simp only [stakeAt, userAt_eq_get?]
    exact sum_stake_eq _ fun k hk => by simp [keys, hk]
  have hsum' : totalStake c l' = ∑ k ∈ keys, stakeAt c l' k := by
    simp only [stakeAt, userAt_eq_get?]
    exact sum_stake_eq _ fun k hk => by simp [keys, hk]
  have hrest : ∑ k ∈ keys.erase user, stakeAt c l' k = ∑ k ∈ keys.erase user, stakeAt c l k :=
    Finset.sum_congr rfl fun k hk => h k (Finset.ne_of_mem_erase hk)
  rw [hsum, hsum', ← Finset.add_sum_erase _ _ huser, hrest,
    ← Finset.add_sum_erase _ (stakeAt c l) huser]
  ring

theorem stakeAt_of_write {user : Bytes} {record : TreasuryUserRecord}
    (h : l.WritesUser c l' user record) (u : Bytes) :
    stakeAt c l' u = if u = user then record.balance else stakeAt c l u := by
  rw [stakeAt, h u]
  split
  · rfl
  · rfl

theorem Ledger.NamesRecords.write {user : Bytes} {record : TreasuryUserRecord}
    (hl : l.NamesRecords c) (h : l.WritesUser c l' user record) : l'.NamesRecords c := by
  intro u v hv
  rw [h u] at hv
  split at hv
  · exact ⟨record, (Option.some.inj hv).symm⟩
  · exact hl u v hv

variable (c) in
/-- The treasury names user records, with these stakes. -/
structure Stakes (f : Bytes → Int) (l : Ledger) : Prop where
  names : l.NamesRecords c
  stakes : ∀ user, stakeAt c l user = f user

variable {f : Bytes → Int} {α : Type}

theorem Stakes.of_same (h : Stakes c f l) (hsame : l'.userAt c = l.userAt c) :
    Stakes c f l' := by
  refine ⟨fun u v hv => h.names u v (hsame ▸ hv), fun u => ?_⟩
  rw [← h.stakes u, stakeAt, stakeAt, hsame]

/-- A write of a record with the stake it has. -/
theorem Stakes.write {user : Bytes} {record : TreasuryUserRecord} (h : Stakes c f l)
    (hwrite : l.WritesUser c l' user record) (hbalance : record.balance = f user) :
    Stakes c f l' := by
  refine ⟨h.names.write hwrite, fun u => ?_⟩
  rw [stakeAt_of_write hwrite, h.stakes u]
  split
  · rename_i hu
    rw [hu, hbalance]
  · rfl

/-- What is loaded of a user is the record that the treasury names. -/
theorem balance_of_load (hreads : c.node.ReadsUsers) (h : Stakes c f l) {account : Account}
    (haccount : l.cache.get? treasuryAddress = some account) {user : Bytes}
    {record : TreasuryUserRecord}
    (hload : loadUserRecord c.node account.data user = .ok (some record)) :
    record.balance = f user := by
  have hat : l.userAt c user = account.data.get? user := by
    rw [Ledger.userAt, Ledger.account_of_cached haccount]
    rfl
  rcases hvalue : account.data.get? user with _ | v
  · rw [loadUserRecord, getFromRadixTree, hvalue] at hload
    cases hload
  · obtain ⟨named, rfl⟩ := h.names user v (hat.trans hvalue)
    have hcells := loadUserRecord_eq hreads haccount (hat.trans hvalue) hload
    rw [(TreasuryUserRecord.expr_inj hcells).1, ← h.stakes user, stakeAt, hat, hvalue]
    rfl

/-- Steps that leave the stakes. -/
theorem stakes_of_keeps {m : Stateful Ledger α} (hm : KeepsUserAt c m) :
    Triple (Stakes c f) m fun _ => Stakes c f :=
  fun _ hl _ _ hrun => hl.of_same (hm.of_ok hrun)

theorem stakes_putUserRecord {user : Bytes} {record : TreasuryUserRecord}
    (hbalance : record.balance = f user) :
    Triple (Stakes c f) (putUserRecord user record) fun _ => Stakes c f :=
  fun _ hl _ _ hrun => hl.write (writesUser_putUserRecord hrun) hbalance

end Stakes

section Handlers

variable {c : Ctx} {t : Transaction} {f : Bytes → Int} {α : Type}

/-- Steps that leave the stakes go before the rest. -/
theorem stakes_bind {β : Type} {x : Stateful Ledger α} {k : α → Stateful Ledger β}
    {Q : β → Ledger → Prop} (hx : KeepsUserAt c x) (hk : ∀ a, Triple (Stakes c f) (k a) Q) :
    Triple (Stakes c f) (x >>= k) Q :=
  (stakes_of_keeps hx).bind hk

theorem stakes_pure (a : α) :
    Triple (Stakes c f) (pure a : Stateful Ledger α) fun _ => Stakes c f :=
  .pure fun _ h => h

/-- What follows a load of a user's record, of which an invariant of the ledger says something. -/
theorem triple_load {I : Ledger → Prop} {R : TreasuryUserRecord → Prop} {β : Type} {user : Bytes}
    {k : Account → Option TreasuryUserRecord → Stateful Ledger β} {Q : β → Ledger → Prop}
    (hloaded : ∀ l treasury record, I l → l.cache.get? treasuryAddress = some treasury →
      loadUserRecord c.node treasury.data user = .ok (some record) → R record)
    (hnone : ∀ treasury, Triple I (k treasury none) Q)
    (hsome : ∀ treasury record, R record → Triple I (k treasury (some record)) Q) :
    Triple I (do
      let treasury ← held treasuryAddress
      let record ← .ofExcept (loadUserRecord c.node treasury.data user)
      k treasury record) Q := by
  intro l hl r l' hrun
  obtain ⟨treasury, l₁, h₁, h₂⟩ := bind_eq_ok.mp hrun
  obtain ⟨htreasury, rfl⟩ := held_eq_ok.mp h₁
  obtain ⟨record, l₂, h₃, h₄⟩ := bind_eq_ok.mp h₂
  obtain ⟨hrecord, rfl⟩ := Prod.mk.inj h₃
  rcases record with _ | record
  · exact hnone treasury l₁ hl r l' h₄
  · exact hsome treasury record (hloaded l₁ treasury record hl htreasury hrecord) l₁ hl r l' h₄

/-- What follows a load of a user's record, of which the stake is known. -/
theorem stakes_load (hreads : c.node.ReadsUsers) {β : Type} {user : Bytes}
    {k : Account → Option TreasuryUserRecord → Stateful Ledger β} {Q : β → Ledger → Prop}
    (hnone : ∀ treasury, Triple (Stakes c f) (k treasury none) Q)
    (hsome : ∀ treasury record, record.balance = f user →
      Triple (Stakes c f) (k treasury (some record)) Q) :
    Triple (Stakes c f) (do
      let treasury ← held treasuryAddress
      let record ← .ofExcept (loadUserRecord c.node treasury.data user)
      k treasury record) Q :=
  triple_load (fun _ _ _ hl ht hr => balance_of_load hreads hl ht hr) hnone hsome

theorem stakes_openLoan (hreads : c.node.ReadsUsers) (user loanId : Bytes) :
    Triple (Stakes c f) (openLoan c user loanId) fun r l =>
      Stakes c f l ∧ ∀ o, r = some o → o.record.balance = f user := by
  intro l hl r l' hrun
  obtain ⟨treasury, l₁, h₁, h₂⟩ := bind_eq_ok.mp hrun
  obtain ⟨htreasury, rfl⟩ := held_eq_ok.mp h₁
  obtain ⟨record, l₂, h₃, h₄⟩ := bind_eq_ok.mp h₂
  obtain ⟨hrecord, rfl⟩ := Prod.mk.inj h₃
  rcases record with _ | record
  · obtain ⟨hr, rfl⟩ := Prod.mk.inj h₄
    exact ⟨hl, fun o ho => by rw [ho] at hr; cases hr⟩
  have hbalance := balance_of_load hreads hl htreasury hrecord
  simp only at h₄
  split at h₄
  · obtain ⟨hr, rfl⟩ := Prod.mk.inj h₄
    exact ⟨hl, fun o ho => by rw [ho] at hr; cases hr⟩
  obtain ⟨loan, l₃, h₅, h₆⟩ := bind_eq_ok.mp h₄
  obtain ⟨-, rfl⟩ := Prod.mk.inj h₅
  rcases loan with _ | loan
  · obtain ⟨hr, rfl⟩ := Prod.mk.inj h₆
    exact ⟨hl, fun o ho => by rw [ho] at hr; cases hr⟩
  simp only at h₆
  split at h₆
  · obtain ⟨hr, rfl⟩ := Prod.mk.inj h₆
    exact ⟨hl, fun o ho => by rw [ho] at hr; cases hr⟩
  · obtain ⟨hr, rfl⟩ := Prod.mk.inj h₆
    refine ⟨hl, fun o ho => ?_⟩
    rw [ho] at hr
    rw [← Option.some.inj (Except.ok.inj hr)]
    exact hbalance

theorem stakes_putLoan {user loanId : Bytes} {o : OpenLoan} {loan : TreasuryLoanRecord}
    {update : TreasuryUserRecord → TreasuryUserRecord}
    (hbalance : (update o.record).balance = f user) :
    Triple (Stakes c f) (putLoan c user loanId o loan update) fun _ => Stakes c f := by
  refine stakes_bind (.ofExcept _) fun loans => stakes_bind (keeps_innerExprs _) fun exprs => ?_
  have hput : Triple (Stakes c f) (putUserRecord user
      { update o.record with loansRoot := pointerTo c.node loans }) fun _ => Stakes c f :=
    stakes_putUserRecord hbalance
  exact hput.bind fun _ => stakes_pure _

/-- A release changes no stake. -/
theorem stakes_releaseEach (hreads : c.node.ReadsUsers) (returned : List (Bytes × Int)) :
    Triple (Stakes c f) (releaseEach c returned) fun _ => Stakes c f := by
  induction returned with
  | nil => exact stakes_pure _
  | cons entry rest ih =>
    obtain ⟨guarantor, amount⟩ := entry
    rw [releaseEach]
    refine .ite (fun _ => ih) fun _ => ?_
    refine stakes_load hreads (fun _ => ih) fun _ record hbalance => ?_
    have hput : Triple (Stakes c f) (putUserRecord guarantor { record with
        guaranteed := max 0 (record.guaranteed - amount) }) fun _ => Stakes c f :=
      stakes_putUserRecord hbalance
    exact hput.bind fun _ => stakes_bind (keeps_innerExprs _) fun _ => ih.bind fun _ =>
      stakes_pure _

theorem stakes_releaseGuarantees (hreads : c.node.ReadsUsers) (loan : TreasuryLoanRecord) :
    Triple (Stakes c f) (releaseGuarantees c loan) fun _ => Stakes c f :=
  .ite (fun _ => stakes_pure _) fun _ => stakes_releaseEach hreads _

theorem stakes_releaseGuaranteesIf (hreads : c.node.ReadsUsers) (done : Bool)
    (loan : TreasuryLoanRecord) :
    Triple (Stakes c f) (releaseGuaranteesIf c done loan) fun _ => Stakes c f :=
  .ite (fun _ => stakes_releaseGuarantees hreads _) fun _ => stakes_pure _

/-- What a handler does once it has written everything. -/
theorem stakes_finish (exprs : List Expr) : Triple (Stakes c f) (do
    extendPendingExprs exprs
    involve treasuryAddress
    return Status.success : Stateful Ledger Status) fun _ => Stakes c f :=
  stakes_bind (users_extendPendingExprs _) fun _ => stakes_bind (users_involve _) fun _ =>
    stakes_pure _

theorem users_repayOrReturn (loan : TreasuryLoanRecord) (pointer paidAfter : Int) :
    KeepsUserAt c (repayOrReturn c t loan pointer paidAfter) := by
  refine .ite ((users_returnToSender _ _).bind fun _ => ?_) (.ofExcept _)
  exact .ite (.pure _) (.pure _)

theorem users_when {p : Prop} [Decidable p] {x : Stateful Ledger Unit} (hx : KeepsUserAt c x) :
    KeepsUserAt c (Eff.when p x) :=
  hx.when

/-- The loan that a handler goes on with is of a record with the stake that the treasury names. -/
theorem stakes_openLoan_bind {β : Type} (hreads : c.node.ReadsUsers) {user loanId : Bytes}
    {k : Option OpenLoan → Stateful Ledger β} {Q : β → Ledger → Prop}
    (hnone : Triple (Stakes c f) (k none) Q)
    (hsome : ∀ o : OpenLoan, o.record.balance = f user → Triple (Stakes c f) (k (some o)) Q) :
    Triple (Stakes c f) (openLoan c user loanId >>= k) Q := by
  refine (stakes_openLoan hreads user loanId).bind fun o => ?_
  rcases o with _ | o
  · exact fun l hl => hnone l hl.1
  · exact fun l hl => hsome o (hl.2 o rfl) l hl.1

/-- A repayment changes no stake. -/
theorem stakes_handleTreasuryRepay (hreads : c.node.ReadsUsers) :
    Triple (Stakes c f) (handleTreasuryRepay c t) fun _ => Stakes c f := by
  rw [handleTreasuryRepay]
  refine .ite (fun _ => stakes_pure _) fun _ => stakes_bind (users_getAccount _) fun _ => ?_
  refine .ite (fun _ => stakes_pure _) fun _ => ?_
  split
  rotate_left
  · exact stakes_pure _
  refine stakes_openLoan_bind hreads (stakes_pure _) fun o hbalance => ?_
  refine .ite (fun _ => stakes_pure _) fun _ => ?_
  split
  rotate_left
  · exact stakes_pure _
  refine .ite (fun _ => stakes_pure _) fun _ => stakes_bind (.ofExcept _) fun missed => ?_
  refine stakes_bind (.ofExcept _) fun paid => ?_
  refine stakes_bind (users_repayOrReturn _ _ _) fun repaid => ?_
  rcases repaid with _ | repaid
  · exact stakes_pure _
  simp only
  split
  rotate_left
  · exact stakes_pure _
  refine (stakes_putLoan ?_).bind fun loanExprs => ?_
  · exact hbalance
  refine stakes_bind (users_creditOwnerIf _ _ _) fun _ => .ite (fun _ => stakes_pure _) fun _ => ?_
  refine stakes_bind (keeps_innerExprs _) fun _ => stakes_bind (users_when (users_addDefaulted _))
    fun _ => ?_
  exact (stakes_releaseGuaranteesIf hreads _ _).bind fun _ => stakes_finish _

/-- The loans that handlers find are of records with the stakes that the treasury names. -/
def NamesStakes (c : Ctx) (f : Bytes → Int) (r : Option (Bytes × Bytes × OpenLoan))
    (l : Ledger) : Prop :=
  Stakes c f l ∧ ∀ named ∈ r, named.2.2.record.balance = f named.2.1

theorem namesStakes_none {l : Ledger} (h : Stakes c f l) : NamesStakes c f none l :=
  ⟨h, fun _ hnamed => by cases hnamed⟩

theorem stakes_namedLoan (hreads : c.node.ReadsUsers) :
    Triple (Stakes c f) (namedLoan c t) (NamesStakes c f) := by
  have hnone : Triple (Stakes c f)
      (pure none : Stateful Ledger (Option (Bytes × Bytes × OpenLoan))) (NamesStakes c f) :=
    .pure fun _ => namesStakes_none
  rw [namedLoan]
  split
  rotate_left
  · exact hnone
  refine stakes_bind (.ofExcept _) fun borrowerTx => stakes_bind (users_getAccount _) fun _ => ?_
  refine .ite (fun _ => hnone) fun _ => stakes_openLoan_bind hreads hnone fun o hbalance => ?_
  refine .pure fun _ h => ⟨h, fun named hnamed => ?_⟩
  obtain rfl := Option.some.inj hnamed
  exact hbalance

/-- What is quoted is a loan of a record with the stake that the treasury names. -/
def QuotesStakes (c : Ctx) (f : Bytes → Int) (r : Option BuyQuote) (l : Ledger) : Prop :=
  Stakes c f l ∧ ∀ quote ∈ r, quote.o.record.balance = f quote.borrower

theorem stakes_buyQuote (hreads : c.node.ReadsUsers) :
    Triple (Stakes c f) (buyQuote c t) (QuotesStakes c f) := by
  have hnone : Triple (Stakes c f) (pure none : Stateful Ledger (Option BuyQuote))
      (QuotesStakes c f) := .pure fun _ h => ⟨h, fun _ hquote => by cases hquote⟩
  rw [buyQuote]
  refine (stakes_namedLoan hreads).bind fun named => ?_
  rcases named with _ | ⟨loanId, borrower, o⟩
  · exact fun l hl => hnone l hl.1
  refine .given (p := o.record.balance = f borrower) (fun _ h => h.2 _ rfl) fun hbalance => ?_
  intro l hl
  refine Triple.ite (P := Stakes c f) (fun _ => hnone) (fun _ => ?_) l hl.1
  split
  rotate_left
  · exact hnone
  refine .ite (fun _ => hnone) fun _ => stakes_bind (.ofExcept _) fun rate => ?_
  rcases rate with _ | rate
  · exact hnone
  simp only
  split
  rotate_left
  · exact hnone
  refine .ite (fun _ => hnone) fun _ => .pure fun _ h => ⟨h, fun quote hquote => ?_⟩
  obtain rfl := Option.some.inj hquote
  exact hbalance

theorem users_debitOwner (owner : Bytes) (price : Int) :
    KeepsUserAt c (debitOwner c owner price) := by
  refine .ite ((keeps_held _).bind fun treasury => .ite (.pure _) ?_) ?_
  · exact (users_addBalance _ _).bind fun _ => .pure _
  · refine (users_getAccount _).bind fun account => ?_
    rcases account with _ | account
    · exact .pure _
    · refine .ite (.pure _) ((users_addBalance _ _).bind fun _ => ?_)
      exact (users_involve _).bind fun _ => .pure _

theorem users_refundBuyer (buyer : Bytes) (refund : Int) :
    KeepsUserAt c (refundBuyer c buyer refund) :=
  .ite (users_returnToSender _ _) (.pure _)

/-- A purchase changes no stake. -/
theorem stakes_handleTreasuryBuy (hreads : c.node.ReadsUsers) :
    Triple (Stakes c f) (handleTreasuryBuy c t) fun _ => Stakes c f := by
  rw [handleTreasuryBuy]
  refine .ite (fun _ => stakes_pure _) fun _ => (stakes_buyQuote hreads).bind fun quote => ?_
  rcases quote with _ | ⟨loanId, borrower, o, price⟩
  · exact fun l hl => stakes_pure _ l hl.1
  refine .given (p := o.record.balance = f borrower) (fun _ h => h.2 _ rfl) fun hbalance => ?_
  intro l hl
  refine stakes_bind (users_debitOwner _ _) (fun _ => ?_) l hl.1
  refine .ite (fun _ => stakes_pure _) fun _ => stakes_bind (users_refundBuyer _ _) fun _ => ?_
  refine .ite (fun _ => stakes_pure _) fun _ => (stakes_putLoan hbalance).bind fun _ => ?_
  exact stakes_bind (keeps_innerExprs _) fun _ => stakes_finish _

/-- A claim changes no stake. -/
theorem stakes_handleTreasuryClaim (hreads : c.node.ReadsUsers) :
    Triple (Stakes c f) (handleTreasuryClaim c t) fun _ => Stakes c f := by
  rw [handleTreasuryClaim]
  refine .ite (fun _ => stakes_pure _) fun _ => (stakes_namedLoan hreads).bind fun named => ?_
  rcases named with _ | ⟨loanId, borrower, o⟩
  · exact fun l hl => stakes_pure _ l hl.1
  refine .given (p := o.record.balance = f borrower) (fun _ h => h.2 _ rfl) fun hbalance => ?_
  intro l hl
  refine Triple.ite (P := Stakes c f) (fun _ => stakes_pure _) (fun _ => ?_) l hl.1
  refine stakes_bind (.ofExcept _) fun missed => ?_
  split
  rotate_left
  · exact stakes_pure _
  refine .ite (fun _ => stakes_pure _) fun _ => .ite (fun _ => stakes_pure _) fun _ => ?_
  refine stakes_bind (keeps_held _) fun treasury => .ite (fun _ => stakes_pure _) fun _ => ?_
  refine stakes_bind (users_addBalance _ _) fun _ => stakes_bind (users_getAccount _) fun _ => ?_
  refine .ite (fun _ => stakes_pure _) fun _ => stakes_bind (users_addBalance _ _) fun _ => ?_
  refine stakes_bind (users_involve _) fun _ => ?_
  split
  rotate_left
  · exact stakes_pure _
  refine stakes_bind (.ofExcept _) fun loans => stakes_bind (keeps_innerExprs _) fun _ => ?_
  refine stakes_bind (users_when (users_addDefaulted _)) fun _ => ?_
  refine (stakes_putUserRecord ?_).bind fun _ => stakes_bind (keeps_innerExprs _) fun _ =>
    stakes_finish _
  cases o.loan.loanType <;> exact hbalance

/-- A secured borrow changes no stake. -/
theorem stakes_handleSecuredBorrow (hreads : c.node.ReadsUsers) {hash : Bytes}
    {request : TreasuryBorrowRequest} :
    Triple (Stakes c f) (handleSecuredBorrow c t hash request) fun _ => Stakes c f := by
  rw [handleSecuredBorrow]
  refine stakes_bind (.ofExcept _) fun interval => stakes_bind (.ofExcept _) fun count => ?_
  refine stakes_bind (.ofExcept _) fun rate => ?_
  rcases rate with _ | rate
  · exact stakes_pure _
  simp only
  refine stakes_load hreads (fun _ => stakes_pure _) fun treasury record hbalance => ?_
  refine stakes_bind (.ofExcept _) fun existing => ?_
  rcases existing with _ | existing
  · exact stakes_pure _
  simp only
  split
  rotate_left
  · exact stakes_pure _
  refine .ite (fun _ => stakes_pure _) fun _ => .ite (fun _ => stakes_pure _) fun _ => ?_
  refine stakes_bind (.ofExcept _) fun loans => stakes_bind (keeps_innerExprs _) fun _ => ?_
  refine (stakes_putUserRecord ?_).bind fun _ => ?_
  · exact hbalance
  refine stakes_bind (users_addBalance _ _) fun _ => stakes_bind (users_addBalance _ _) fun _ => ?_
  refine stakes_bind (keeps_innerExprs _) fun _ => ?_
  exact stakes_bind (users_extendPendingExprs _) fun _ => stakes_pure _

end Handlers

section Balances

variable {c : Ctx} {t : Transaction} {l l' : Ledger}

/-- Steps that leave the balances. -/
abbrev KeepsBalance (c : Ctx) {α : Type} (m : Stateful Ledger α) : Prop :=
  Keeps (fun l l' => balanceAt c l' = balanceAt c l) m

theorem balance_putUserRecord (user : Bytes) (record : TreasuryUserRecord) :
    KeepsBalance c (putUserRecord user record) := by
  intro l
  rcases hput : putUserRecord user record l with ⟨e | _, l'⟩
  · rw [keepsUsers_putUserRecord_of_error hput]
  · exact balanceAt_putUserRecord hput

theorem balance_update {f : Ledger → Ledger} (hf : ∀ l, (f l).cache = l.cache) :
    KeepsBalance c (Eff.update f : Stateful Ledger Unit) := by
  intro l
  refine balanceAt_of_account ?_
  funext a
  change Ledger.account c (f l) a = Ledger.account c l a
  rw [Ledger.account, hf, Ledger.account]

theorem balance_getAccount (a : Bytes) : KeepsBalance c (getAccount c a) :=
  fun l => balanceAt_of_account (funext fun b => account_getAccount c l a b)

theorem balance_addDefaulted (amount : Int) : KeepsBalance c (addDefaulted amount) :=
  balance_update fun _ => rfl

theorem balance_involve (a : Bytes) : KeepsBalance c (involve a) := balance_update fun _ => rfl

theorem balance_extendPendingExprs (exprs : List Expr) :
    KeepsBalance c (extendPendingExprs exprs) := balance_update fun _ => rfl

theorem balance_userExprs (o : OpenLoan) (loanId : Bytes) (loan : TreasuryLoanRecord)
    (update : TreasuryUserRecord → TreasuryUserRecord) :
    KeepsBalance c (userExprs c o loanId loan update) :=
  keeps_innerExprs _

theorem balance_putLoan (user loanId : Bytes) (o : OpenLoan) (loan : TreasuryLoanRecord)
    (update : TreasuryUserRecord → TreasuryUserRecord) :
    KeepsBalance c (putLoan c user loanId o loan update) := by
  refine Keeps.bind (.ofExcept _) fun loans => (keeps_innerExprs _).bind fun exprs => ?_
  exact (balance_putUserRecord _ _).bind fun _ => .pure _

theorem balance_releaseEach (returned : List (Bytes × Int)) :
    KeepsBalance c (releaseEach c returned) := by
  induction returned with
  | nil => exact .pure _
  | cons entry rest ih =>
    obtain ⟨guarantor, amount⟩ := entry
    rw [releaseEach]
    refine .ite ih ((keeps_held _).bind fun treasury => Keeps.bind (.ofExcept _) fun record => ?_)
    rcases record with _ | record
    · exact ih
    · refine (balance_putUserRecord _ _).bind fun _ => (keeps_innerExprs _).bind fun _ => ?_
      exact ih.bind fun _ => .pure _

theorem balance_releaseGuarantees (loan : TreasuryLoanRecord) :
    KeepsBalance c (releaseGuarantees c loan) :=
  .ite (.pure _) (balance_releaseEach _)

/-- The owner of a loan is credited the amount. -/
theorem balanceAt_creditOwner {owner : Bytes} {amount : Int}
    (h : creditOwner c owner amount l = (.ok true, l')) (a : Bytes) :
    balanceAt c l' a = balanceAt c l a + if a = owner then amount else 0 := by
  rw [creditOwner] at h
  split at h
  · rename_i howner
    obtain ⟨_, l₁, h₁, h₂⟩ := bind_eq_ok.mp h
    obtain ⟨-, rfl⟩ := Prod.mk.inj h₂
    rw [howner]
    exact balanceAt_addBalance h₁ a
  · obtain ⟨account, l₁, h₁, h₂⟩ := bind_eq_ok.mp h
    have hread := (balance_getAccount (c := c) owner).of_ok h₁
    split at h₂
    · cases h₂
    obtain ⟨_, l₂, h₃, h₄⟩ := bind_eq_ok.mp h₂
    obtain ⟨_, l₃, h₅, h₆⟩ := bind_eq_ok.mp h₄
    obtain ⟨-, rfl⟩ := Prod.mk.inj h₅
    obtain ⟨-, rfl⟩ := Prod.mk.inj h₆
    rw [← hread]
    exact balanceAt_addBalance h₃ a

/-- What a secured loan closes for, which the sender's amount covers. -/
theorem closeSecured_eq_some {loan : TreasuryLoanRecord} {closing : Closing}
    (h : closeSecured c t loan = .ok (some closing)) :
    0 < closing.totalCost ∧ closing.totalCost ≤ t.amount ∧ closing.missedDelta = 0 ∧
      closing.creditOwner = true := by
  obtain ⟨⟨caughtUp, next⟩, -, h₁⟩ := except_bind_eq_ok.mp h
  obtain ⟨principal, -, h₂⟩ := except_bind_eq_ok.mp h₁
  rcases principal with _ | principal
  · cases h₂
  simp only at h₂
  split at h₂
  · cases h₂
  rename_i hguard
  obtain rfl := Option.some.inj (Except.ok.inj h₂)
  exact ⟨not_le.mp fun hcon => hguard (.inl hcon), not_lt.mp fun hcon => hguard (.inr hcon), rfl,
    rfl⟩

/-- The record that `putLoan` writes. -/
theorem writesUser_putLoan {user loanId : Bytes} {o : OpenLoan} {loan : TreasuryLoanRecord}
    {update : TreasuryUserRecord → TreasuryUserRecord} {exprs : List Expr}
    (h : putLoan c user loanId o loan update l = (.ok exprs, l')) :
    ∃ root, l.WritesUser c l' user { update o.record with loansRoot := root } := by
  obtain ⟨loans, l₁, h₁, h₂⟩ := bind_eq_ok.mp h
  obtain ⟨-, rfl⟩ := Prod.mk.inj h₁
  obtain ⟨loanExprs, l₂, h₃, h₄⟩ := bind_eq_ok.mp h₂
  obtain rfl := (keeps_innerExprs (R := Eq) _).of_ok h₃
  obtain ⟨_, l₃, h₅, h₆⟩ := bind_eq_ok.mp h₄
  obtain ⟨-, rfl⟩ := Prod.mk.inj h₆
  exact ⟨_, writesUser_putUserRecord h₅⟩

theorem users_closeUnsecured (loan : TreasuryLoanRecord) :
    KeepsUserAt c (closeUnsecured c t loan) := by
  refine Keeps.bind (.ofExcept _) fun missed => .ite (.pure _) ?_
  refine Keeps.bind (.ofExcept _) fun paid => .ite ?_ ?_
  · refine (users_returnToSender _ _).bind fun _ => .ite (.pure _) (.pure _)
  · exact .ite (.pure _) (.pure _)

/-- What closing a secured loan changes: the stake of the borrower grows by what the amount leaves
over, and the whole amount goes to the owner of the loan. -/
structure SecuredClosing (c : Ctx) (t : Transaction) (l l' : Ledger) (o : OpenLoan)
    (closing : Closing) : Prop where
  secured : o.loan.loanType = .secured
  closes : closeSecured c t o.loan = .ok (some closing)
  stakes : ∀ f, Stakes c f l → Stakes c (fun u => if u = t.sender then
    f u + (t.amount - closing.totalCost) else f u) l'
  treasury : balanceAt c l' treasuryAddress = balanceAt c l treasuryAddress +
    if treasuryAddress = o.loan.owner then t.amount else 0

theorem handleTreasuryClose_effect (hreads : c.node.ReadsUsers)
    (h : handleTreasuryClose c t l = (.ok .success, l')) :
    ∃ loanId o, loanTransactionId c.node t.data = some loanId ∧ Loads c l t.sender loanId o ∧
      ((o.loan.loanType = .unsecured ∧ ∀ f, Stakes c f l → Stakes c f l') ∨
        ∃ closing, SecuredClosing c t l l' o closing) := by
  rw [handleTreasuryClose] at h
  split at h
  · cases h
  obtain ⟨account, l₁, loanId, o, h₁, hid, h₃, hloads, h₄⟩ := opens_named_loan h
  have hview : l₁.userAt c = l.userAt c := (users_getAccount (c := c) _).of_ok h₁
  have hopened : ∀ f, Stakes c f l → Stakes c f l₁ ∧ o.record.balance = f t.sender := by
    intro f hf
    obtain ⟨hstakes, hbalance⟩ := stakes_openLoan hreads _ _ l₁ (hf.of_same hview) _ _ h₃
    exact ⟨hstakes, hbalance o rfl⟩
  have hbalance : balanceAt c l₁ = balanceAt c l := (balance_getAccount (c := c) _).of_ok h₁
  refine ⟨loanId, o, hid, hloads, ?_⟩
  simp only at h₄
  split at h₄
  · cases h₄
  rcases hkind : o.loan.loanType with _ | _ <;> simp only [hkind] at h₄
  · obtain ⟨closing, l₄, h₅, h₆⟩ := bind_eq_ok.mp h₄
    obtain ⟨hclosing, rfl⟩ := Prod.mk.inj h₅
    rcases closing with _ | closing
    · cases h₆
    obtain ⟨hcost, hcovers, hmissed, howed⟩ := closeSecured_eq_some hclosing
    simp only [hmissed, howed] at h₆
    obtain ⟨exprs, l₅, h₇, h₈⟩ := bind_eq_ok.mp h₆
    obtain ⟨credited, l₆, h₉, h₁₀⟩ := bind_eq_ok.mp h₈
    cases credited with
    | false => cases h₁₀
    | true =>
      have hshare : ownerShare t o.loan closing = t.amount := by rw [ownerShare, hkind]
      have hrefund : closingRefund t o.loan closing = 0 := by rw [closingRefund, hkind]
      obtain ⟨_, l₇, h₁₁, h₁₂⟩ := bind_eq_ok.mp h₁₀
      rw [Eff.when, if_neg (not_not.mpr hrefund)] at h₁₁
      obtain ⟨-, rfl⟩ := Prod.mk.inj h₁₁
      obtain ⟨root, hwrite⟩ := writesUser_putLoan (c := c) h₇
      have hput := (balance_putLoan (c := c) _ _ _ _ _).of_ok h₇
      refine .inr ⟨closing, hkind, hclosing, fun f hf => ?_, ?_⟩
      · obtain ⟨hstakes, hrecord⟩ := hopened f hf
        have hwritten : Stakes c (fun u => if u = t.sender then
            f u + (t.amount - closing.totalCost) else f u) l₅ := by
          refine ⟨hstakes.names.write hwrite, fun u => ?_⟩
          rw [stakeAt_of_write hwrite, hstakes.stakes u]
          split
          · rename_i hu
            rw [hu, ← hrecord]
          · rfl
        refine (?_ : Triple (Stakes c _) _ fun _ => Stakes c _) l₆
          (hwritten.of_same ((users_creditOwnerIf (c := c) _ _ _).of_ok h₉)) _ _ h₁₂
        refine stakes_bind (keeps_innerExprs _) fun _ => ?_
        refine stakes_bind (users_when (users_addDefaulted _)) fun _ => ?_
        exact (stakes_releaseGuarantees hreads _).bind fun _ => stakes_finish _
      · have htail : balanceAt c l' = balanceAt c l₆ := by
          refine Keeps.of_ok ((balance_userExprs _ _ _ _).bind fun _ => ?_) h₁₂
          refine (Keeps.when (balance_addDefaulted _)).bind fun _ => ?_
          refine (balance_releaseGuarantees _).bind fun _ => ?_
          refine (balance_extendPendingExprs _).bind fun _ => ?_
          exact (balance_involve _).bind fun _ => .pure _
        rw [htail, balanceAt_creditOwner h₉, hshare, hput, hbalance]
  · obtain ⟨closing, l₄, h₅, h₆⟩ := bind_eq_ok.mp h₄
    rcases closing with _ | closing
    · cases h₆
    refine .inl ⟨rfl, fun f hf => ?_⟩
    obtain ⟨hstakes, hrecord⟩ := hopened f hf
    have hclosed := hstakes.of_same ((users_closeUnsecured (c := c) (t := t) _).of_ok h₅)
    refine (?_ : Triple (Stakes c f) _ fun _ => Stakes c f) l₄ hclosed _ _ h₆
    refine (stakes_putLoan ?_).bind fun _ => ?_
    · exact hrecord
    refine stakes_bind (users_creditOwnerIf _ _ _) fun _ => ?_
    refine .ite (fun _ => stakes_pure _) fun _ => ?_
    refine stakes_bind (users_when ((users_returnToSender _ _).map _)) fun _ => ?_
    refine stakes_bind (keeps_innerExprs _) fun _ => ?_
    refine stakes_bind (users_when (users_addDefaulted _)) fun _ => ?_
    exact (stakes_releaseGuarantees hreads _).bind fun _ => stakes_finish _

end Balances

end Astreum
