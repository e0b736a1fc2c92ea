import Astreum.Backing
import Astreum.ChannelSafety
import Mathlib.Algebra.BigOperators.Group.Finset.Piecewise

namespace Astreum

open Eff

section Backed

variable (c : Ctx)

/-- By how much the balance of the treasury rises. -/
def treasuryRise (l l' : Ledger) : Int :=
  balanceAt c l' treasuryAddress - balanceAt c l treasuryAddress

/-- The treasury's balance rises by at least as much as the stakes do, all together and each. -/
structure Backed (l l' : Ledger) : Prop where
  total : totalStake c l < totalStake c l' → totalStake c l' - totalStake c l ≤ treasuryRise c l l'
  user : ∀ u, stakeAt c l u < stakeAt c l' u → stakeAt c l' u - stakeAt c l u ≤ treasuryRise c l l'

/-- One stake moves by `δ`, the others stay, and the treasury's balance rises by `τ`. -/
structure Moved (l l' : Ledger) (user : Bytes) (δ τ : Int) : Prop where
  names : l'.NamesRecords c
  stake : stakeAt c l' user = stakeAt c l user + δ
  others : ∀ u, u ≠ user → stakeAt c l' u = stakeAt c l u
  treasury : treasuryRise c l l' = τ

variable {c} {l l₁ l' : Ledger} {user : Bytes} {δ τ : Int}

theorem Moved.backed_iff (h : Moved c l l' user δ τ) : Backed c l l' ↔ (0 < δ → δ ≤ τ) := by
  have htotal := totalStake_of_others h.others
  have hstake := h.stake
  refine ⟨fun hbacked hpos => ?_, fun hle => ⟨fun hrise => ?_, fun u hrise => ?_⟩⟩
  · have huser := hbacked.user user (by omega)
    rw [h.treasury] at huser
    omega
  · have hδ := hle (by omega)
    rw [h.treasury]
    omega
  · by_cases hu : u = user
    · subst hu
      have hδ := hle (by omega)
      rw [h.treasury]
      omega
    · rw [h.others u hu] at hrise
      exact absurd hrise (lt_irrefl _)

theorem stakes_self (h : l.NamesRecords c) : Stakes c (stakeAt c l) l := ⟨h, fun _ => rfl⟩

theorem Moved.of_stakes (h : Stakes c (stakeAt c l) l') (user : Bytes) :
    Moved c l l' user 0 (treasuryRise c l l') :=
  ⟨h.names, (h.stakes user).trans (Int.add_zero _).symm, fun u _ => h.stakes u, rfl⟩

theorem Moved.of_write {record : TreasuryUserRecord} (hl : l.NamesRecords c)
    (h : l.WritesUser c l' user record) :
    Moved c l l' user (record.balance - stakeAt c l user) (treasuryRise c l l') := by
  refine ⟨hl.write h, ?_, fun u hu => ?_, rfl⟩
  · rw [stakeAt_of_write h, if_pos rfl]
    omega
  · rw [stakeAt_of_write h, if_neg hu]

theorem stakeAt_of_same (h : l₁.userAt c = l.userAt c) : stakeAt c l₁ = stakeAt c l := by
  funext u
  rw [stakeAt, h, stakeAt]

theorem Ledger.NamesRecords.of_same (hl : l.NamesRecords c) (h : l₁.userAt c = l.userAt c) :
    l₁.NamesRecords c := fun u v hv => hl u v (h ▸ hv)

theorem Ledger.Read.userAt (h : l.Read c l₁) : l₁.userAt c = l.userAt c :=
  userAt_of_account (by rw [h.account])

theorem Ledger.NamesRecords.of_read (hl : l.NamesRecords c) (h : l.Read c l₁) : l₁.NamesRecords c :=
  hl.of_same h.userAt

/-- Reads before a step do not matter. -/
theorem Moved.of_read (hread : l.Read c l₁) (h : Moved c l₁ l' user δ τ) :
    Moved c l l' user δ τ := by
  obtain ⟨hnames, hstake, hothers, htreasury⟩ := h
  rw [stakeAt_of_same hread.userAt] at hstake hothers
  rw [treasuryRise, balanceAt_of_account (funext hread.account)] at htreasury
  exact ⟨hnames, hstake, hothers, htreasury⟩

end Backed

section Effects

variable {c : Ctx} {t : Transaction} {l l₀ l' : Ledger} {hash : Bytes}

variable (c t) in
/-- What the treasury names for the sender is not read, so that a new record takes its place, and
there is a debt in it. -/
def ForgetsDebt (l : Ledger) : Prop :=
  stakeAt c l t.sender < 0 ∧ ∃ account, l.account c treasuryAddress = some account ∧
    loadUserRecord c.node account.data t.sender = .ok none

theorem forgetsDebt_of_read (h : l.Read c l₀) : ForgetsDebt c t l₀ ↔ ForgetsDebt c t l := by
  rw [ForgetsDebt, ForgetsDebt, stakeAt_of_same h.userAt, h.account]

/-- What is written for a sender whose record is read, or is new where it is not. -/
theorem rise_of_written (hreads : c.node.ReadsUsers) (hl : l.NamesRecords c) {account : Account}
    (haccount : l.cache.get? treasuryAddress = some account) {found : Option TreasuryUserRecord}
    (hload : loadUserRecord c.node account.data t.sender = .ok found) :
    0 < (found.getD .empty).balance - stakeAt c l t.sender ↔ ForgetsDebt c t l := by
  have hview : l.account c treasuryAddress = some account := Ledger.account_of_cached haccount
  rcases found with _ | record
  · have hzero : (Option.getD none TreasuryUserRecord.empty).balance = 0 := rfl
    rw [hzero]
    refine ⟨fun h => ⟨by omega, account, hview, hload⟩, fun h => ?_⟩
    have hdebt := h.1
    omega
  · have hsame := balance_of_load hreads (stakes_self hl) haccount hload
    rw [Option.getD_some, hsame, sub_self]
    refine ⟨fun h => absurd h (lt_irrefl _), fun h => ?_⟩
    obtain ⟨-, account', haccount', hnone⟩ := h
    obtain rfl := Option.some.inj (hview.symm.trans haccount')
    cases hload.symm.trans hnone

theorem Loads.unique {user loanId : Bytes} {o o' : OpenLoan} (h : Loads c l user loanId o)
    (h' : Loads c l user loanId o') : o' = o := by
  obtain ⟨l₁, hread, hrun⟩ := h
  obtain ⟨l₂, hread', hrun'⟩ := h'
  obtain ⟨account, l₃, hheld, hrest⟩ := bind_eq_ok.mp hrun
  obtain ⟨haccount, rfl⟩ := held_eq_ok.mp hheld
  obtain ⟨account', l₄, hheld', hrest'⟩ := bind_eq_ok.mp hrun'
  obtain ⟨haccount', rfl⟩ := held_eq_ok.mp hheld'
  have hview := (Ledger.account_of_cached haccount).symm.trans (hread.account _)
  have hview' := (Ledger.account_of_cached haccount').symm.trans (hread'.account _)
  obtain rfl := Option.some.inj (hview.trans hview'.symm)
  obtain ⟨record, l₅, hrecord, hloan⟩ := bind_eq_ok.mp hrest
  obtain ⟨hfound, rfl⟩ := Prod.mk.inj hrecord
  obtain ⟨record', l₆, hrecord', hloan'⟩ := bind_eq_ok.mp hrest'
  obtain ⟨hfound', rfl⟩ := Prod.mk.inj hrecord'
  obtain rfl := Except.ok.inj (hfound.symm.trans hfound')
  rcases record with _ | record
  · cases hloan
  simp only at hloan hloan'
  split at hloan
  · cases hloan
  rename_i hroot
  rw [if_neg hroot] at hloan'
  obtain ⟨loan, l₇, hread₇, hopen⟩ := bind_eq_ok.mp hloan
  obtain ⟨hfound₇, rfl⟩ := Prod.mk.inj hread₇
  obtain ⟨loan', l₈, hread₈, hopen'⟩ := bind_eq_ok.mp hloan'
  obtain ⟨hfound₈, rfl⟩ := Prod.mk.inj hread₈
  obtain rfl := Except.ok.inj (hfound₇.symm.trans hfound₈)
  rcases loan with _ | loan
  · cases hopen
  simp only at hopen hopen'
  split at hopen
  · cases hopen
  rename_i hnext
  rw [if_neg hnext] at hopen'
  obtain ⟨ho, -⟩ := Prod.mk.inj hopen
  obtain ⟨ho', -⟩ := Prod.mk.inj hopen'
  exact (Option.some.inj (Except.ok.inj ho')).symm.trans (Option.some.inj (Except.ok.inj ho))

variable (c) in
/-- What a secured loan closes for: the payments due, and the principal left after them. -/
def closingPrice (loan : TreasuryLoanRecord) : Py (Option Int) := do
  let (caughtUp, next) ← catchUp loan c.header.height c.node.fuel 0 loan.nextPaymentBlockNumber
  let some principal ← principalLeft loan next | return none
  return some (caughtUp + principal)

theorem Loads.of_read {user loanId : Bytes} {o : OpenLoan} (h : Loads c l₀ user loanId o)
    (hread : l.Read c l₀) : Loads c l user loanId o := by
  obtain ⟨l₁, hread₁, hrun⟩ := h
  exact ⟨l₁, hread.trans hread₁, hrun⟩

theorem closingPrice_of_closeSecured {loan : TreasuryLoanRecord} {closing : Closing}
    (h : closeSecured c t loan = .ok (some closing)) :
    closingPrice c loan = .ok (some closing.totalCost) := by
  obtain ⟨⟨caughtUp, next⟩, hcatch, h₁⟩ := except_bind_eq_ok.mp h
  obtain ⟨principal, hprincipal, h₂⟩ := except_bind_eq_ok.mp h₁
  rcases principal with _ | principal
  · cases h₂
  simp only at h₂
  split at h₂
  · cases h₂
  obtain rfl := Option.some.inj (Except.ok.inj h₂)
  refine except_bind_eq_ok.mpr ⟨(caughtUp, next), hcatch, ?_⟩
  exact except_bind_eq_ok.mpr ⟨some principal, hprincipal, rfl⟩

variable (c t) in
/-- The amount is more than what the secured loan closes for, and the loan is another's. -/
def ClosesOver (l : Ledger) : Prop :=
  ∃ loanId o price, loanTransactionId c.node t.data = some loanId ∧
    Loads c l t.sender loanId o ∧ o.loan.loanType = .secured ∧ o.loan.owner ≠ treasuryAddress ∧
    closingPrice c o.loan = .ok (some price) ∧ price < t.amount

/-- What is left over of the amount for a secured loan is staked, which only the treasury's own
loans back. -/
theorem handleTreasuryClose_backed (hreads : c.node.ReadsUsers) (hl : l.NamesRecords c)
    (hread : l.Read c l₀) (h : handleTreasuryClose c t l₀ = (.ok .success, l')) :
    l'.NamesRecords c ∧ (Backed c l l' ↔ ¬ClosesOver c t l) := by
  obtain ⟨loanId, o, hid, hloads₀, heffect⟩ := handleTreasuryClose_effect hreads h
  have hloads := hloads₀.of_read hread
  have hl₀ := hl.of_read hread
  rcases heffect with ⟨hkind, hstakes⟩ | ⟨closing, hclosing⟩
  · have hmoved := (Moved.of_stakes (hstakes _ (stakes_self hl₀)) t.sender).of_read hread
    refine ⟨hmoved.names, hmoved.backed_iff.trans ⟨fun _ hover => ?_, fun _ => nofun⟩⟩
    obtain ⟨loanId', o', price, hid', hloads', hsecured, -⟩ := hover
    obtain rfl := Option.some.inj (hid.symm.trans hid')
    obtain rfl := hloads.unique hloads'
    cases hkind.symm.trans hsecured
  · have hafter := hclosing.stakes _ (stakes_self hl₀)
    obtain ⟨hcost, hcovers, -, -⟩ := closeSecured_eq_some hclosing.closes
    have hprice := closingPrice_of_closeSecured hclosing.closes
    have hmoved : Moved c l l' t.sender (t.amount - closing.totalCost)
        (if treasuryAddress = o.loan.owner then t.amount else 0) := by
      have hmove := (hafter.stakes t.sender).trans (if_pos rfl)
      refine Moved.of_read hread ⟨hafter.names, hmove, fun u hu => ?_, ?_⟩
      · exact (hafter.stakes u).trans (if_neg hu)
      · rw [treasuryRise, hclosing.treasury]
        omega
    refine ⟨hmoved.names, hmoved.backed_iff.trans ⟨fun hle hover => ?_, fun hover hpos => ?_⟩⟩
    · obtain ⟨loanId', o', price, hid', hloads', -, howner, hprice', hless⟩ := hover
      obtain rfl := Option.some.inj (hid.symm.trans hid')
      obtain rfl := hloads.unique hloads'
      obtain rfl := Option.some.inj (Except.ok.inj (hprice.symm.trans hprice'))
      have hcovered := hle (by omega)
      rw [if_neg (Ne.symm howner)] at hcovered
      omega
    · by_cases howner : treasuryAddress = o.loan.owner
      · rw [if_pos howner]
        omega
      · exact absurd ⟨loanId, o, closing.totalCost, hid, hloads, hclosing.secured,
          Ne.symm howner, hprice, by omega⟩ hover

/-- Selling a guarantee moves no stake but a debt that is forgotten. -/
theorem handleTreasuryGuarantee_backed (hreads : c.node.ReadsUsers) (hl : l.NamesRecords c)
    (hread₀ : l.Read c l₀) (h : handleTreasuryGuarantee c t hash l₀ = (.ok .success, l')) :
    l'.NamesRecords c ∧ (Backed c l l' ↔ ¬ForgetsDebt c t l) := by
  obtain ⟨l₁, account, found, guarantees, guarantee, amount, hread₁, haccount, hload, hwrite,
    hbalance, -⟩ := handleTreasuryGuarantee_run h
  have hread := hread₀.trans hread₁
  have hl₁ := hl.of_read hread
  have hmoved := Moved.of_read hread (Moved.of_write hl₁ hwrite)
  have hrise := rise_of_written (t := t) hreads hl₁ haccount hload
  have hflat : treasuryRise c l₁ l' = 0 := by
    rw [treasuryRise, hbalance, sub_self]
  rw [← forgetsDebt_of_read hread, ← hrise, hmoved.backed_iff, hflat]
  exact ⟨hmoved.names, ⟨fun hle hpos => absurd (hle hpos) (not_le.mpr hpos),
    fun hle hpos => absurd hpos hle⟩⟩

variable (c) in
/-- No guarantee is sold below zero. -/
def Ledger.PricesNonneg (l : Ledger) : Prop :=
  ∀ account user record id, l.account c treasuryAddress = some account →
    loadUserRecord c.node account.data user = .ok (some record) → 0 ≤ priceAt c record id

theorem priceTotal_nonneg {data : Tree} {refs : List (Bytes × Bytes)} {claimed : Claimed}
    (hclaims : ClaimsSoFar c data hash refs claimed)
    (hprices : ∀ user record id, loadUserRecord c.node data user = .ok (some record) →
      0 ≤ priceAt c record id) : 0 ≤ priceTotal claimed.states := by
  refine List.sum_nonneg fun n hn => ?_
  obtain ⟨⟨guarantor, state⟩, hmem, rfl⟩ := List.mem_map.mp hn
  have hstate := hclaims guarantor
  rw [Dict.get?_eq_some.mpr hmem] at hstate
  have hprice := hstate.2.price
  change 0 ≤ state.priceTotal
  rw [hprice]
  refine List.sum_nonneg fun price hp => ?_
  obtain ⟨id, -, rfl⟩ := List.mem_map.mp hp
  exact hprices guarantor state.record id hstate.2.loaded

/-- What an unsecured borrow does to the stakes: the borrower's record is written as it was loaded,
or new where it was not read. -/
theorem BorrowRun.moved (hreads : c.node.ReadsUsers) (hl : l.NamesRecords c)
    {refs : List (Bytes × Bytes)} {account : Account} {record : TreasuryUserRecord}
    {claimed : Claimed} {loan : TreasuryLoanRecord}
    (hrun : BorrowRun c t hash refs l l' account record claimed loan) :
    Moved c l l' t.sender (record.balance - stakeAt c l t.sender) (treasuryRise c l l') := by
  have hat : ∀ u, u ≠ t.sender → l'.userAt c u = ((claimed.states.get? u).map fun state =>
      TreeValue.hashOf (guarantorRecord c state).expr).or (l.userAt c u) :=
    fun u hu => (hrun.users u).trans (if_neg hu)
  refine ⟨fun u v hv => ?_, ?_, fun u hu => ?_, rfl⟩
  · by_cases hu : u = t.sender
    · rw [hrun.users u, if_pos hu] at hv
      exact ⟨_, (Option.some.inj hv).symm⟩
    · rw [hat u hu] at hv
      rcases hget : claimed.states.get? u with _ | state
      · rw [hget] at hv
        exact hl u v hv
      · rw [hget] at hv
        exact ⟨_, (Option.some.inj hv).symm⟩
  · rw [stakeAt, hrun.users t.sender, if_pos rfl, Option.map_some, Option.getD_some,
      stake_hashOf_expr]
    ring
  · rw [stakeAt, hat u hu]
    rcases hget : claimed.states.get? u with _ | state
    · rfl
    · have hclaims := hrun.claims u
      rw [hget] at hclaims
      have hbalance := balance_of_load hreads (stakes_self hl) hrun.treasury hclaims.2.loaded
      exact hbalance

variable (c t) in
/-- The loan that the data of a borrow asks for is unsecured. -/
def BorrowsUnsecured : Prop :=
  ∃ loanType interval count refs, dataNodes c.node t.data = [loanType, interval, count, refs] ∧
    LoanType.ofVal loanType.value = .ok .unsecured

/-- A borrow moves no stake but a debt that is forgotten. -/
theorem handleTreasuryBorrow_backed (hreads : c.node.ReadsUsers) (hl : l.NamesRecords c)
    (hread₀ : l.Read c l₀) (h : handleTreasuryBorrow c t hash l₀ = (.ok .success, l')) :
    l'.NamesRecords c ∧ (¬(BorrowsUnsecured c t ∧ ForgetsDebt c t l) → Backed c l l') ∧
      (l.PricesNonneg c → Backed c l l' → ¬(BorrowsUnsecured c t ∧ ForgetsDebt c t l)) := by
  obtain ⟨hsender, -, account, l₁, loanType, interval, count, refs, kind, haccount, hnodes, hkind,
    hmade⟩ := handleTreasuryBorrow_steps h
  obtain ⟨-, hread₁, -⟩ := getAccount_eq_ok haccount
  have hread := hread₀.trans hread₁
  have hl₁ := hl.of_read hread
  rcases hmade with ⟨rfl, hmade⟩ | ⟨rfl, named, -, hmade⟩
  · have hstakes := stakes_handleSecuredBorrow hreads _ (stakes_self hl₁) _ _ hmade
    have hmoved := Moved.of_read hread (Moved.of_stakes hstakes t.sender)
    have hbacked : Backed c l l' := hmoved.backed_iff.mpr nofun
    refine ⟨hmoved.names, fun _ => hbacked, fun _ _ hcon => ?_⟩
    obtain ⟨⟨loanType', interval', count', refs', hnodes', hkind'⟩, -⟩ := hcon
    obtain ⟨rfl, -⟩ := List.cons.inj (hnodes.symm.trans hnodes')
    cases hkind.symm.trans hkind'
  · obtain ⟨treasury, record, claimed, loan, hrun, -, hpays, -⟩ := handleUnsecuredBorrow_run hmade
    have hmoved := Moved.of_read hread (hrun.moved hreads hl₁)
    obtain ⟨found, hload, hfound⟩ : ∃ found,
        loadUserRecord c.node treasury.data t.sender = .ok found ∧ found.getD .empty = record := by
      have hborrower := hrun.borrower
      rcases hload : loadUserRecord c.node treasury.data t.sender with e | found
      · rw [hload] at hborrower
        cases hborrower
      · rw [hload] at hborrower
        exact ⟨found, rfl, Except.ok.inj hborrower⟩
    have hrise := rise_of_written (t := t) hreads hl₁ hrun.treasury hload
    rw [hfound] at hrise
    rw [forgetsDebt_of_read hread] at hrise
    have hunsecured : BorrowsUnsecured c t := ⟨loanType, interval, count, refs, hnodes, hkind⟩
    refine ⟨hmoved.names, fun hkeeps => hmoved.backed_iff.mpr fun hpos => ?_,
      fun hprices hbacked hcon => ?_⟩
    · exact absurd ⟨hunsecured, hrise.mp hpos⟩ hkeeps
    · have hpos := hrise.mpr hcon.2
      have hcovered := hmoved.backed_iff.mp hbacked hpos
      have hpriced : 0 ≤ priceTotal claimed.states := by
        refine priceTotal_nonneg hrun.claims fun user record id hrecord => ?_
        have htreasury := (hread.account _).symm.trans (Ledger.account_of_cached hrun.treasury)
        exact hprices treasury user record id htreasury hrecord
      have hfall := hpays hsender
      rw [treasuryRise] at hcovered
      omega

end Effects

section Codes

variable {c : Ctx} {t : Transaction} {g : Guarded} {l l' : Ledger} {r : Handled}

theorem users_getOrCreateRecipient : KeepsUserAt c (getOrCreateRecipient c t) := by
  refine .ite (.pure _) (.ite (Keeps.bind .read fun _ => .pure _) ?_)
  refine (users_getAccount _).bind fun account => ?_
  cases account <;> exact .pure _

theorem balance_getOrCreateRecipient : KeepsBalance c (getOrCreateRecipient c t) := by
  refine .ite (.pure _) (.ite (Keeps.bind .read fun _ => .pure _) ?_)
  refine (balance_getAccount _).bind fun account => ?_
  cases account <;> exact .pure _

/-- A deposit that succeeds is credited to the treasury and to the record of the sender, and one to
another account is to nobody. -/
theorem applyTreasuryDeposit_eq_success (h : applyTreasuryDeposit c t g l = (.ok r, l'))
    (hs : r.status = .success) :
    ∃ l₁, l₁.userAt c = l.userAt c ∧ balanceAt c l₁ = balanceAt c l ∧
      ((t.recipient ≠ treasuryAddress ∧ l' = l₁) ∨
        ∃ account record, l₁.cache.get? treasuryAddress = some account ∧
          loadUserRecord c.node account.data t.sender = .ok (some record) ∧
          l₁.WritesUser c l' t.sender
            { record with balance := record.balance + g.transferAmount } ∧
          treasuryRise c l₁ l' = g.transferAmount) := by
  obtain ⟨recipient, l₁, h₁, h₂⟩ := bind_eq_ok.mp h
  have husers := (users_getOrCreateRecipient (c := c) (t := t)).of_ok h₁
  have hbalance := (balance_getOrCreateRecipient (c := c) (t := t)).of_ok h₁
  refine ⟨l₁, husers, hbalance, ?_⟩
  split at h₂
  · rename_i htreasury
    exact .inl ⟨htreasury, (Prod.mk.inj h₂).2.symm⟩
  rename_i htreasury
  rw [not_not] at htreasury
  split at h₂
  · exact absurd (success_of_handled h₂ hs).1 ‹_›
  obtain ⟨deposited, l₂, h₃, h₄⟩ := bind_eq_ok.mp h₂
  cases deposited with
  | false => cases (success_of_handled h₄ hs).1
  | true =>
    cases recipient with
    | none => cases h₃
    | fresh account => cases h₃
    | held =>
      obtain ⟨account, l₃, h₅, h₆⟩ := bind_eq_ok.mp h₃
      obtain ⟨haccount, rfl⟩ := held_eq_ok.mp h₅
      rw [htreasury] at haccount
      obtain ⟨record, l₄, h₇, h₈⟩ := bind_eq_ok.mp h₆
      obtain ⟨hload, rfl⟩ := Prod.mk.inj h₇
      rcases record with _ | record
      · cases h₈
      obtain ⟨_, l₅, hput, h₉⟩ := bind_eq_ok.mp h₈
      obtain ⟨-, rfl⟩ := Prod.mk.inj h₉
      obtain ⟨_, l₆, hcredit, h₁₀⟩ := bind_eq_ok.mp h₄
      obtain ⟨-, rfl⟩ := Prod.mk.inj h₁₀
      obtain ⟨_, l₇, hadd, h₁₁⟩ := bind_eq_ok.mp hcredit
      obtain ⟨-, rfl⟩ := Prod.mk.inj h₁₁
      have hwrite := writesUser_putUserRecord (c := c) hput
      have hkept : l₇.userAt c = l₅.userAt c := (users_addBalance _ _).of_ok hadd
      refine .inr ⟨account, record, haccount, hload, fun u => ?_, ?_⟩
      · rw [hkept]
        exact hwrite u
      · have hcredited := balanceAt_addBalance (c := c) hadd treasuryAddress
        rw [if_pos htreasury.symm, balanceAt_putUserRecord hput] at hcredited
        rw [treasuryRise]
        omega

/-- A deposit is backed by what it pays. -/
theorem applyTreasuryDeposit_backed (hreads : c.node.ReadsUsers) (hl : l.NamesRecords c)
    (h : applyTreasuryDeposit c t g l = (.ok r, l')) (hs : r.status = .success) :
    l'.NamesRecords c ∧ Backed c l l' := by
  obtain ⟨l₁, husers, hbalance, heffect⟩ := applyTreasuryDeposit_eq_success h hs
  have hl₁ := hl.of_same husers
  have hsame := stakeAt_of_same husers
  rcases heffect with ⟨-, rfl⟩ | ⟨account, record, haccount, hload, hwrite, hrise⟩
  · have hstakes : Stakes c (stakeAt c l) l' := (stakes_self hl).of_same husers
    exact ⟨hl₁, (Moved.of_stakes hstakes t.sender).backed_iff.mpr nofun⟩
  · have hstake := balance_of_load hreads (stakes_self hl₁) haccount hload
    have hmoved := Moved.of_write hl₁ hwrite
    have hwhole : Moved c l l' t.sender g.transferAmount g.transferAmount := by
      refine ⟨hmoved.names, ?_, fun u hu => ?_, ?_⟩
      · have hmove := hmoved.stake
        rw [← hsame]
        simp only at hmove
        omega
      · rw [hmoved.others u hu, hsame]
      · rw [← hrise, treasuryRise, treasuryRise, hbalance]
    exact ⟨hmoved.names, hwhole.backed_iff.mpr fun _ => le_rfl⟩

/-- The codes that hand everything to a handler of the treasury. -/
theorem applyTreasury_eq_success {amount : Int} {handler : Stateful Ledger Status}
    (h : applyTreasury c t g amount handler l = (.ok r, l')) (hs : r.status = .success) :
    ∃ l₁, l.Read c l₁ ∧ handler l₁ = (.ok .success, l') := by
  obtain ⟨treasury, l₁, h₁, h₂⟩ := bind_eq_ok.mp h
  obtain ⟨-, hread, -⟩ := getAccount_eq_ok h₁
  split at h₂
  · exact absurd (success_of_handled h₂ hs).1 ‹_›
  obtain ⟨status, l₂, h₃, h₄⟩ := bind_eq_ok.mp h₂
  cases status with
  | success =>
    obtain ⟨-, rfl⟩ := Prod.mk.inj h₄
    exact ⟨l₁, hread, h₃⟩
  | failed => cases (success_of_handled h₄ hs).1

/-- The transactions that change stakes without the treasury's balance to back them. -/
def Unbacked (c : Ctx) (t : Transaction) (l : Ledger) : Prop :=
  match t.code with
  | .treasuryClose => ClosesOver c t l
  | .treasuryGuarantee => ForgetsDebt c t l
  | .treasuryBorrow => BorrowsUnsecured c t ∧ ForgetsDebt c t l
  | _ => False

def treasuryCodes : List TransactionCode :=
  [.treasuryDeposit, .treasuryBorrow, .treasuryRepay, .treasuryClose, .treasuryGuarantee,
    .treasuryBuy, .treasuryClaim]

/-- Handlers that leave the stakes. -/
theorem backed_of_stakes {l₁ : Ledger} {handler : Stateful Ledger Status} (hl : l.NamesRecords c)
    (hread : l.Read c l₁) (hh : ∀ f, Triple (Stakes c f) handler fun _ => Stakes c f)
    (hrun : handler l₁ = (.ok .success, l')) : l'.NamesRecords c ∧ Backed c l l' := by
  have hstakes := hh _ _ (stakes_self (hl.of_read hread)) _ _ hrun
  have hmoved := Moved.of_read hread (Moved.of_stakes hstakes treasuryAddress)
  exact ⟨hmoved.names, hmoved.backed_iff.mpr nofun⟩

/-- What a treasury transaction that succeeds does to the stakes is backed, but where it is not. -/
theorem treasury_backed (hreads : c.node.ReadsUsers) (hl : l.NamesRecords c) {nested : Bool}
    {keys : List Bytes} {apply : NestedApply} {hash : Bytes} (hcode : t.code ∈ treasuryCodes)
    (h : runHandler c t nested keys apply hash g l = (.ok r, l')) (hs : r.status = .success) :
    l'.NamesRecords c ∧ (¬Unbacked c t l → Backed c l l') ∧
      (l.PricesNonneg c → Backed c l l' → ¬Unbacked c t l) := by
  rw [runHandler] at h
  rw [Unbacked]
  simp only [treasuryCodes, List.mem_cons, List.not_mem_nil, or_false] at hcode
  rcases hcode with hc | hc | hc | hc | hc | hc | hc <;> simp only [hc] at h ⊢
  · obtain ⟨hnames, hbacked⟩ := applyTreasuryDeposit_backed hreads hl h hs
    exact ⟨hnames, fun _ => hbacked, fun _ _ => id⟩
  · obtain ⟨l₁, hread, hrun⟩ := applyTreasury_eq_success h hs
    exact handleTreasuryBorrow_backed hreads hl hread hrun
  · obtain ⟨l₁, hread, hrun⟩ := applyTreasury_eq_success h hs
    obtain ⟨hnames, hbacked⟩ :=
      backed_of_stakes hl hread (fun _ => stakes_handleTreasuryRepay hreads) hrun
    exact ⟨hnames, fun _ => hbacked, fun _ _ => id⟩
  · obtain ⟨l₁, hread, hrun⟩ := applyTreasury_eq_success h hs
    obtain ⟨hnames, hbacked⟩ := handleTreasuryClose_backed hreads hl hread hrun
    exact ⟨hnames, hbacked.mpr, fun _ => hbacked.mp⟩
  · obtain ⟨l₁, hread, hrun⟩ := applyTreasury_eq_success h hs
    obtain ⟨hnames, hbacked⟩ := handleTreasuryGuarantee_backed hreads hl hread hrun
    exact ⟨hnames, hbacked.mpr, fun _ => hbacked.mp⟩
  · obtain ⟨l₁, hread, hrun⟩ := applyTreasury_eq_success h hs
    obtain ⟨hnames, hbacked⟩ :=
      backed_of_stakes hl hread (fun _ => stakes_handleTreasuryBuy hreads) hrun
    exact ⟨hnames, fun _ => hbacked, fun _ _ => id⟩
  · obtain ⟨l₁, hread, hrun⟩ := applyTreasury_eq_success h hs
    obtain ⟨hnames, hbacked⟩ :=
      backed_of_stakes hl hread (fun _ => stakes_handleTreasuryClaim hreads) hrun
    exact ⟨hnames, fun _ => hbacked, fun _ _ => id⟩

end Codes

section Returns

variable {R : Random} {c : Ctx} {l l₁ l' : Ledger} {d d' : Draw R} {key : Bytes}

variable (c) in
/-- No stake grows, and what the treasury's balance loses is what others are paid: balances have the
sum they had over any accounts that take in these. -/
structure Returned (l l' : Ledger) : Prop where
  names : l'.NamesRecords c
  stakes : ∀ u, stakeAt c l' u ≤ stakeAt c l u
  total : totalStake c l' ≤ totalStake c l
  balances : ∃ paid : Finset Bytes, ∀ accounts, paid ⊆ accounts →
    ∑ a ∈ accounts, balanceAt c l' a = ∑ a ∈ accounts, balanceAt c l a

theorem Returned.of_read (hl : l.NamesRecords c) (h : l.Read c l₁) : Returned c l l₁ := by
  have hsame := stakeAt_of_same h.userAt
  refine ⟨hl.of_read h, fun u => (congrFun hsame u).le, ?_, ∅, fun accounts _ => ?_⟩
  · have hothers : ∀ u, u ≠ treasuryAddress → stakeAt c l₁ u = stakeAt c l u :=
      fun u _ => congrFun hsame u
    rw [totalStake_of_others hothers, hsame]
    omega
  · rw [balanceAt_of_account (funext h.account)]

theorem Returned.trans (h : Returned c l l₁) (h' : Returned c l₁ l') : Returned c l l' := by
  obtain ⟨paid, hpaid⟩ := h.balances
  obtain ⟨paid', hpaid'⟩ := h'.balances
  refine ⟨h'.names, fun u => (h'.stakes u).trans (h.stakes u), h'.total.trans h.total,
    paid ∪ paid', fun accounts hsub => ?_⟩
  have hleft : paid ⊆ accounts := fun a ha => hsub (Finset.mem_union_left _ ha)
  have hright : paid' ⊆ accounts := fun a ha => hsub (Finset.mem_union_right _ ha)
  exact (hpaid' accounts hright).trans (hpaid accounts hleft)

variable (c) in
/-- The stakes that the draw weighs are those that the treasury names. -/
def Draw.Weighs (d : Draw R) (l : Ledger) : Prop :=
  ∀ key n, d.stakes.get? key = some n → stakeAt c l key = n

theorem pickValidator_stakes (h : pickValidator d = .ok (key, d')) : d'.stakes = d.stakes := by
  rw [pickValidator] at h
  rcases hlast : (d.stakes.pairs.filter fun p => 0 < p.2).getLast? with _ | last
  · simp only [hlast] at h
    cases h
  · simp only [hlast] at h
    obtain ⟨-, rfl⟩ := Prod.mk.inj (Except.ok.inj h)
    rfl

/-- The return of half a stake. -/
theorem StakeReturned.returned {record : TreasuryUserRecord} {amount : Int}
    (h : StakeReturned c key d l d' l' record amount) (hl : l.NamesRecords c)
    (hweighs : d.Weighs c l) : Returned c l l' ∧ d'.Weighs c l' := by
  have hbefore := hweighs key _ h.stake
  have hafter : stakeAt c l' key = record.balance - amount := by
    rcases h.user with ⟨hzero, hsame⟩ | hwrite
    · rw [stakeAt, hsame, ← stakeAt, hbefore, hzero, sub_zero]
    · rw [stakeAt, hwrite]
      rfl
  have hothers : ∀ u, u ≠ key → stakeAt c l' u = stakeAt c l u := fun u hu => by
    rw [stakeAt, h.users u hu, stakeAt]
  have hnonneg := h.nonneg
  refine ⟨⟨fun u v hv => ?_, fun u => ?_, ?_, {key, treasuryAddress}, fun accounts hsub => ?_⟩,
    fun k n hn => ?_⟩
  · by_cases hu : u = key
    · subst hu
      rcases h.user with ⟨-, hsame⟩ | hwrite
      · exact hl u v (hsame ▸ hv)
      · exact ⟨_, Option.some.inj (hv.symm.trans hwrite)⟩
    · exact hl u v (h.users u hu ▸ hv)
  · by_cases hu : u = key
    · subst hu
      omega
    · exact (hothers u hu).le
  · have htotal := totalStake_of_others hothers
    omega
  · have hkey : key ∈ accounts := hsub (by simp)
    have htreasury : treasuryAddress ∈ accounts := hsub (by simp)
    have hsum := Finset.sum_congr rfl fun a (_ : a ∈ accounts) => h.balances a
    rw [Finset.sum_add_distrib, Finset.sum_add_distrib, Finset.sum_ite_eq', Finset.sum_ite_eq',
      if_pos htreasury, if_pos hkey] at hsum
    exact add_right_cancel hsum
  · by_cases hk : k = key
    · subst hk
      rw [hafter]
      exact Option.some.inj (h.stake'.symm.trans hn)
    · rw [hothers k hk]
      exact hweighs k n ((h.stakes k hk).symm.trans hn)

theorem SlotsReturned.returned {n : Nat} (h : SlotsReturned c n d l key d' l')
    (hl : l.NamesRecords c) (hweighs : d.Weighs c l) : Returned c l l' := by
  induction h with
  | last hpick hreturn =>
    have hsame := pickValidator_stakes hpick
    exact (hreturn.returned hl fun k n hn => hweighs k n (hsame ▸ hn)).1
  | more hpick hreturn hrest ih =>
    have hsame := pickValidator_stakes hpick
    obtain ⟨hfirst, hnext⟩ := hreturn.returned hl fun k n hn => hweighs k n (hsame ▸ hn)
    exact hfirst.trans (ih hfirst.names hnext)

/-- A draw that goes through returns halves of stakes. -/
theorem DrawStarts.returned {blockHash : Bytes} {account : Account}
    {entries : List (Bytes × Option Expr)} (h : DrawStarts R c l blockHash account entries d)
    (hfinds : c.node.FindsByHash) (hreads : c.node.ReadsUsers) (hl : l.NamesRecords c)
    {blockTimestamp targetTime : Int}
    (hrun : currentValidator R c entries blockHash (some blockTimestamp) targetTime l =
      (.ok key, l')) : Returned c l l' := by
  have hdrawing := h.drawing hfinds
  rw [currentValidator_eq h] at hrun
  obtain ⟨⟨key', d₁⟩, l₂, hslots, hpure⟩ := bind_eq_ok.mp hrun
  obtain ⟨-, rfl⟩ := Prod.mk.inj hpure
  have hspares := sparesHalves_of_drawSlots hdrawing hslots
  obtain ⟨key₂, d₂, l₃, hslots', hreturned⟩ := drawSlots_of_spared hdrawing hspares
  obtain ⟨-, rfl⟩ := Prod.mk.inj (hslots.symm.trans hslots')
  have hget := eq_of_fst (getAccount_fst c l treasuryAddress)
  obtain ⟨-, hread, hcached⟩ := getAccount_eq_ok hget
  have hl₁ := hl.of_read hread
  refine (Returned.of_read hl hread).trans (hreturned.returned hl₁ fun k n hn => ?_)
  obtain ⟨record, hrecord, rfl⟩ := hdrawing.stakes k n hn
  have hload := (loads_of_readStakes hfinds h.hashed h.listed h.stakes hrecord).2
  exact (balance_of_load hreads (stakes_self hl₁) (hcached.trans h.treasury) hload).symm

end Returns

section Runs

/-- The blocks and the ledgers that a chain goes through: treasury transactions that succeed, draws
of a validator, and anything in between that leaves the records of the treasury. -/
inductive StakeRun : Ctx → Ledger → Prop
  | start {c : Ctx} {l : Ledger} (hl : l.NamesRecords c) : StakeRun c l
  | between {c c' : Ctx} {l l' : Ledger} (run : StakeRun c l)
      (hsame : l'.userAt c' = l.userAt c) : StakeRun c' l'
  | transaction {c : Ctx} {t : Transaction} {g : Guarded} {r : Handled} {l l' : Ledger}
      {nested : Bool} {keys : List Bytes} {apply : NestedApply} {hash : Bytes}
      (run : StakeRun c l) (hreads : c.node.ReadsUsers) (hcode : t.code ∈ treasuryCodes)
      (h : runHandler c t nested keys apply hash g l = (.ok r, l')) (hs : r.status = .success) :
      StakeRun c l'
  | draw {R : Random} {c : Ctx} {l l' : Ledger} {blockHash key : Bytes} {account : Account}
      {entries : List (Bytes × Option Expr)} {d : Draw R} {blockTimestamp targetTime : Int}
      (run : StakeRun c l) (hreads : c.node.ReadsUsers) (hfinds : c.node.FindsByHash)
      (hstarts : DrawStarts R c l blockHash account entries d)
      (h : currentValidator R c entries blockHash (some blockTimestamp) targetTime l =
        (.ok key, l')) : StakeRun c l'

variable {c : Ctx} {l : Ledger}

theorem StakeRun.namesRecords (run : StakeRun c l) : l.NamesRecords c := by
  induction run with
  | start hl => exact hl
  | between run hsame ih =>
    intro u v hv
    rw [hsame] at hv
    exact ih u v hv
  | transaction run hreads hcode h hs ih => exact (treasury_backed hreads ih hcode h hs).1
  | draw run hreads hfinds hstarts h ih => exact (hstarts.returned hfinds hreads ih h).names

end Runs

section Samples

/-- Storage without cells has no user records. -/
theorem readsUsers_bareNode : bareNode.ReadsUsers := by
  intro record record' h
  have hnil : TreasuryUserRecord.fromStorage bareNode (some .nil) = .ok none := rfl
  have hsymbol : ∀ s, TreasuryUserRecord.fromStorage bareNode (some (.symbol s)) = .ok none :=
    fun s => rfl
  rw [getExpr] at h
  split at h
  · cases hnil.symm.trans h
  · change TreasuryUserRecord.fromStorage bareNode
      ((builtinTypeOfHash id (bareNode.hash record.expr)).map .symbol) = _ at h
    rcases builtinTypeOfHash id (bareNode.hash record.expr) with _ | s
    · cases h
    · cases (hsymbol s).symm.trans h

def aliceGuarantees : Transaction :=
  { aliceSends .treasuryGuarantee treasuryAddress 0 with
    data := link (int_ 3) (link (int_ 2) (link (int_ 1) (link (int_ 9) .nil))) }

/-- The treasury before anybody has a record. -/
def newTreasury : Ledger :=
  (blockOf [(treasuryAddress, createAccount 100 zero32),
    (aliceAddress, createAccount 9 zero32)]).ledger

/-- Nested calls are not made. -/
def callsNothing : NestedApply := fun _ _ => .raise .valueError

/-- A treasury transaction of Alice for this amount. -/
def treats (c : Ctx) (t : Transaction) (amount : Int) : Stateful Ledger Handled :=
  runHandler c t false [] callsNothing aliceHash ⟨.success, amount, true⟩

theorem succeeds_of_status {m : Py Handled}
    (h : m.toOption.map Handled.status = some .success) : ∃ r, m = .ok r ∧ r.status = .success := by
  cases m with
  | error e => cases h
  | ok r => exact ⟨r, rfl, Option.some.inj h⟩

theorem namesRecords_of_insert {c : Ctx} {l : Ledger} {user : Bytes} {record : TreasuryUserRecord}
    (h : l.userTree c = Dict.empty.insert user (.hashOf record.expr)) : l.NamesRecords c := by
  intro u v hv
  rw [userAt_eq_get?, h, Dict.get?_insert] at hv
  split at hv
  · exact ⟨record, (Option.some.inj hv).symm⟩
  · cases hv

def soldLoan : TreasuryLoanRecord := { aliceLoan with owner := bobAddress }

def aliceCloses : Transaction :=
  { aliceSends .treasuryClose treasuryAddress 9 with data := link (.bytes aliceHash) .nil }

def soldCtx : Ctx := ⟨loanNode aliceIndebted soldLoan, rateHeader 2⟩

/-- The treasury with the record of Alice, who owes a loan that Bob owns. -/
def soldTreasury : Ledger :=
  (blockOf [(treasuryAddress, { createAccount 100 zero32 with
    data := Dict.empty.insert aliceAddress (.hashOf aliceIndebted.expr) }),
    (aliceAddress, createAccount 9 zero32), (bobAddress, createAccount 9 zero32)]).ledger

end Samples

end Astreum
