import Astreum.Counters

namespace Astreum

open Eff

section Views

variable (c : Ctx)

/-- What the treasury's tree holds for a user. -/
def Ledger.userAt (l : Ledger) (user : Bytes) : Option TreeValue :=
  ((l.account c treasuryAddress).map Account.data).bind fun tree => tree.get? user

/-- What storage holds under the hash of a user record is read as a record of the same cells. -/
def Node.ReadsUsers (node : Node) : Prop :=
  ∀ record record' : TreasuryUserRecord, TreasuryUserRecord.fromStorage node
    (getExpr node (node.hash record.expr)) = .ok (some record') → record'.expr = record.expr

namespace TreasuryUserRecord

variable {record record' : TreasuryUserRecord}

/-- The cells of a record tell its numbers and the roots that it names. -/
theorem expr_inj (h : record'.expr = record.expr) :
    record'.balance = record.balance ∧ record'.loansRoot.rootItem = record.loansRoot.rootItem ∧
      record'.totalInterestPaid = record.totalInterestPaid ∧
      record'.guaranteesRoot.rootItem = record.guaranteesRoot.rootItem ∧
      record'.loaned = record.loaned ∧ record'.defaulted = record.defaulted ∧
      record'.guaranteed = record.guaranteed := by
  simpa [expr, link, int_, typed] using h

theorem expr_guaranteed (h : record'.expr = record.expr) (guaranteed : Int) :
    { record' with guaranteed := guaranteed }.expr =
      { record with guaranteed := guaranteed }.expr := by
  obtain ⟨hbalance, hloans, hinterest, hguarantees, hloaned, hdefaulted, -⟩ := expr_inj h
  simp only [expr, hbalance, hloans, hinterest, hguarantees, hloaned, hdefaulted]

end TreasuryUserRecord

/-- `l'` is `l` with a user record written, as far as the user records go. -/
def Ledger.WritesUser (l l' : Ledger) (user : Bytes) (record : TreasuryUserRecord) : Prop :=
  ∀ u, l'.userAt c u = if u = user then some (.hashOf record.expr) else l.userAt c u

/-- The user records are as they were but for what is guaranteed. -/
def Ledger.KeepsUsers (l l' : Ledger) : Prop :=
  ∀ (user : Bytes) (record : TreasuryUserRecord), l.userAt c user = some (.hashOf record.expr) →
    ∃ guaranteed, l'.userAt c user = some (.hashOf { record with guaranteed := guaranteed }.expr)

variable {c} {l l' : Ledger}

instance : IsPreorder Ledger (Ledger.KeepsUsers c) where
  refl l _ record h := ⟨record.guaranteed, h⟩
  trans _ _ _ h h' user record hr := by
    obtain ⟨g, hg⟩ := h user record hr
    obtain ⟨g', hg'⟩ := h' user _ hg
    exact ⟨g', hg'⟩

theorem userAt_of_account
    (h : (l'.account c treasuryAddress).map Account.data =
      (l.account c treasuryAddress).map Account.data) : l'.userAt c = l.userAt c := by
  funext user
  rw [Ledger.userAt, Ledger.userAt, h]

theorem Ledger.KeepsUsers.of_same (h : l'.userAt c = l.userAt c) : l.KeepsUsers c l' := by
  intro user record hr
  exact ⟨record.guaranteed, (congrFun h user).trans hr⟩

theorem userAt_of_mutate {a : Bytes} {f : Account → Account}
    (hf : ∀ account, (f account).data = account.data) (h : mutate a f l = (.ok (), l')) :
    l'.userAt c = l.userAt c := by
  refine userAt_of_account ?_
  rw [account_of_mutate h, Option.map_map]
  congr 1
  funext account
  simp only [Function.comp]
  split
  · exact hf account
  · rfl

/-- Steps that leave the user records. -/
abbrev KeepsUserAt (c : Ctx) {α : Type} (m : Stateful Ledger α) : Prop :=
  Keeps (fun l l' => l'.userAt c = l.userAt c) m

theorem KeepsUserAt.users {α : Type} {m : Stateful Ledger α} (h : KeepsUserAt c m) :
    Keeps (Ledger.KeepsUsers c) m :=
  fun l => .of_same (h l)

theorem users_mutate (a : Bytes) {f : Account → Account}
    (hf : ∀ account, (f account).data = account.data) : KeepsUserAt c (mutate a f) := by
  intro l
  rcases h : mutate a f l with ⟨e | _, l'⟩
  · rw [mutate] at h
    split at h
    · cases h
    · obtain ⟨-, rfl⟩ := Prod.mk.inj h
      rfl
  · exact userAt_of_mutate hf h

theorem users_addBalance (a : Bytes) (n : Int) : KeepsUserAt c (addBalance a n) :=
  users_mutate a fun _ => rfl

theorem users_getAccount (a : Bytes) : KeepsUserAt c (getAccount c a) :=
  fun l => userAt_of_account (by rw [account_getAccount])

theorem users_update {f : Ledger → Ledger} (hf : ∀ l, (f l).cache = l.cache) :
    KeepsUserAt c (Eff.update f : Stateful Ledger Unit) := by
  intro l
  refine userAt_of_account ?_
  change (Ledger.account c (f l) treasuryAddress).map _ = _
  rw [Ledger.account, hf, Ledger.account]

theorem users_involve (a : Bytes) : KeepsUserAt c (involve a) := users_update fun _ => rfl

theorem users_extendPendingExprs (exprs : List Expr) : KeepsUserAt c (extendPendingExprs exprs) :=
  users_update fun _ => rfl

theorem users_addDefaulted (amount : Int) : KeepsUserAt c (addDefaulted amount) :=
  users_update fun _ => rfl

theorem users_addLoaned (amount : Int) : KeepsUserAt c (addLoaned amount) :=
  users_update fun _ => rfl

theorem users_creditOwner (owner : Bytes) (amount : Int) :
    KeepsUserAt c (creditOwner c owner amount) := by
  refine .ite ((users_addBalance _ _).bind fun _ => .pure _) ?_
  refine (users_getAccount _).bind fun _ => .ite (.pure _) ?_
  exact (users_addBalance _ _).bind fun _ => (users_involve _).bind fun _ => .pure _

theorem users_creditOwnerIf (owed : Bool) (owner : Bytes) (amount : Int) :
    KeepsUserAt c (creditOwnerIf c owed owner amount) :=
  .ite (users_creditOwner _ _) (.pure _)

theorem users_returnToSender (sender : Bytes) (amount : Int) :
    KeepsUserAt c (returnToSender c sender amount) := by
  refine (users_getAccount _).bind fun _ => .ite (.pure _) ?_
  exact (users_addBalance _ _).bind fun _ => (users_involve _).bind fun _ => .pure _

end Views

section Writes

variable {c : Ctx} {l l' : Ledger}

/-- The treasury that a write goes through is held, so it is the one that is seen. -/
theorem writesUser_putUserRecord {user : Bytes} {record : TreasuryUserRecord}
    (h : putUserRecord user record l = (.ok (), l')) : l.WritesUser c l' user record := by
  obtain ⟨treasury, l₁, h₁, h₂⟩ := bind_eq_ok.mp h
  obtain ⟨htreasury, rfl⟩ := held_eq_ok.mp h₁
  obtain ⟨tree, l₂, h₃, h₄⟩ := bind_eq_ok.mp h₂
  obtain ⟨htree, rfl⟩ := Prod.mk.inj h₃
  obtain ⟨account, haccount, rfl⟩ := mutate_eq_ok.mp h₄
  obtain rfl := putInRadixTree_eq_ok htree
  intro u
  simp only [Ledger.userAt, Ledger.account_insert, if_true, Option.map_some, Option.bind_some,
    Ledger.account_of_cached htreasury, Dict.get?_insert]
  by_cases hu : user = u
  · simp [hu]
  · simp [hu, Ne.symm hu]

theorem Ledger.WritesUser.of_same {user : Bytes} {record : TreasuryUserRecord} {l₁ l₂ : Ledger}
    (h : l₁.WritesUser c l₂ user record) (h₁ : l₁.userAt c = l.userAt c)
    (h₂ : l'.userAt c = l₂.userAt c) : l.WritesUser c l' user record := by
  intro u
  rw [h₂, h u, h₁]

/-- The record that a handler loads has the cells of the one that the tree names. -/
theorem loadUserRecord_eq {record record' : TreasuryUserRecord} {user : Bytes} {treasury : Account}
    (hreads : c.node.ReadsUsers) (htreasury : l.cache.get? treasuryAddress = some treasury)
    (hu : l.userAt c user = some (.hashOf record.expr))
    (h : loadUserRecord c.node treasury.data user = .ok (some record')) :
    record'.expr = record.expr := by
  rw [Ledger.userAt, Ledger.account_of_cached htreasury, Option.map_some, Option.bind_some] at hu
  rw [loadUserRecord, getFromRadixTree, hu] at h
  exact hreads record record' h

/-- Writing what is guaranteed into the record that the tree names. -/
theorem Ledger.WritesUser.keepsUsers {user : Bytes} {record : TreasuryUserRecord} {guaranteed : Int}
    (h : l.WritesUser c l' user { record with guaranteed := guaranteed })
    (hrecord : ∀ record' : TreasuryUserRecord, l.userAt c user = some (.hashOf record'.expr) →
      record.expr = record'.expr) : l.KeepsUsers c l' := by
  intro u record' hu
  rw [h u]
  by_cases huser : u = user
  · subst huser
    rw [if_pos rfl, TreasuryUserRecord.expr_guaranteed (hrecord record' hu) guaranteed]
    exact ⟨guaranteed, rfl⟩
  · exact ⟨record'.guaranteed, (if_neg huser).trans hu⟩

theorem keepsUsers_putUserRecord_of_error {user : Bytes} {record : TreasuryUserRecord} {e : PyError}
    (h : putUserRecord user record l = (.error e, l')) : l' = l := by
  rcases hc : l.cache.get? treasuryAddress with _ | treasury
  · simp only [putUserRecord, bind_apply, held, hc, Prod.mk.injEq] at h
    exact h.2.symm
  · rw [putUserRecord, bind_of_ok (held_eq_ok.mpr ⟨hc, rfl⟩)] at h
    rcases bind_eq_error.mp h with h | ⟨tree, l₁, h₁, h₂⟩
    · exact (Prod.mk.inj h).2.symm
    · obtain ⟨-, rfl⟩ := Prod.mk.inj h₁
      simp [setData, mutate, hc] at h₂

/-- A release changes what is guaranteed, and nothing else of a record. -/
theorem users_releaseEach (hreads : c.node.ReadsUsers) (returned : List (Bytes × Int)) :
    Keeps (Ledger.KeepsUsers c) (releaseEach c returned) := by
  induction returned with
  | nil => exact .pure _
  | cons entry rest ih =>
    obtain ⟨guarantor, amount⟩ := entry
    rw [releaseEach]
    refine .ite ih (Keeps.bind_of (keeps_held _) fun l treasury l₁ h₁ => ?_)
    obtain ⟨htreasury, rfl⟩ := held_eq_ok.mp h₁
    rcases hload : loadUserRecord c.node treasury.data guarantor with e | record
    · exact refl_of (Ledger.KeepsUsers c) l₁
    rcases record with _ | record
    · exact ih l₁
    change Ledger.KeepsUsers c l₁ ((putUserRecord guarantor _ >>= fun _ => _) l₁).2
    rcases hput : putUserRecord guarantor { record with
        guaranteed := max 0 (record.guaranteed - amount) } l₁ with ⟨e | _, l₂⟩
    · rw [bind_of_error hput]
      exact keepsUsers_putUserRecord_of_error hput ▸ refl_of (Ledger.KeepsUsers c) l₁
    · rw [bind_of_ok hput]
      have hwrite := (writesUser_putUserRecord (c := c) hput).keepsUsers fun record' hu =>
        loadUserRecord_eq hreads htreasury hu hload
      refine trans_of (Ledger.KeepsUsers c) hwrite ?_
      exact ((keeps_innerExprs _).bind fun _ => ih.bind fun _ => .pure _) l₂

theorem users_releaseGuarantees (hreads : c.node.ReadsUsers) (loan : TreasuryLoanRecord) :
    Keeps (Ledger.KeepsUsers c) (releaseGuarantees c loan) :=
  .ite (.pure _) (users_releaseEach hreads _)

theorem users_releaseGuaranteesIf (hreads : c.node.ReadsUsers) (done : Bool)
    (loan : TreasuryLoanRecord) : Keeps (Ledger.KeepsUsers c) (releaseGuaranteesIf c done loan) :=
  .ite (users_releaseGuarantees hreads _) (.pure _)

end Writes

end Astreum
