import Astreum.StakeBacking

namespace Astreum

open Eff

section Owed

/-- What a loan still takes of the stake: its installments left, where it is secured. -/
def TreasuryLoanRecord.owed (loan : TreasuryLoanRecord) : Int :=
  match loan.loanType with
  | .secured => loan.unsettled * loan.paymentAmount
  | .unsecured => 0

/-- A loan with positive payments that is somewhere on its schedule. -/
structure TreasuryLoanRecord.Lawful (loan : TreasuryLoanRecord) : Prop where
  payment : 0 < loan.paymentAmount
  total : 0 ≤ loan.totalInterest
  due : ∃ k, loan.Due k

variable {loan loan' : TreasuryLoanRecord} {k n interest : Int}

theorem unsettled_eq (hd : loan.Due k) : loan.unsettled = loan.paymentCount + 1 - k := by
  by_cases hopen : loan.nextPaymentBlockNumber = 0
  · have hk : loan.paymentCount < k := by
      by_contra hcon
      have hpos := dueAt_pos hd.scheduled hd.first (not_lt.mp hcon)
      rw [← hd.pointer, hopen] at hpos
      exact lt_irrefl _ hpos
    have hlast := hd.last
    rw [TreasuryLoanRecord.unsettled, paidPaymentCount, if_pos hopen, Option.getD_some]
    omega
  · exact (unsettled_of_due hd hopen).2

theorem owed_nonneg (h : loan.Lawful) : 0 ≤ loan.owed := by
  obtain ⟨k, hd⟩ := h.due
  rw [TreasuryLoanRecord.owed]
  split
  · refine Int.mul_nonneg ?_ h.payment.le
    rw [unsettled_eq hd]
    have hlast := hd.last
    omega
  · exact le_rfl

/-- A loan whose pointer goes forward owes no more than before. -/
theorem owed_of_advances (h : loan.Lawful) (hd : loan.Due k)
    (ha : Advances loan loan' k n interest) :
    loan'.Lawful ∧ loan'.owed ≤ loan.owed := by
  have hdue := ha.due hd
  have hnonneg := ha.nonneg
  have hleft := unsettled_eq hd
  have hleft' := unsettled_eq hdue
  obtain ⟨missed, owner, rfl⟩ := ha.record
  refine ⟨⟨h.payment, h.total, _, hdue⟩, ?_⟩
  rw [TreasuryLoanRecord.owed, TreasuryLoanRecord.owed]
  have hkind : (loan.moved (loan.dueAt (k + n)) missed owner).loanType = loan.loanType := rfl
  have hpayment : (loan.moved (loan.dueAt (k + n)) missed owner).paymentAmount =
      loan.paymentAmount := rfl
  have hcount : (loan.moved (loan.dueAt (k + n)) missed owner).paymentCount =
      loan.paymentCount := rfl
  rw [hkind]
  split
  · rw [hleft, hleft', hpayment, hcount]
    refine Int.mul_le_mul_of_nonneg_right ?_ h.payment.le
    omega
  · exact le_rfl

/-- The cells of a loan tell all of it but the guarantees behind it. -/
theorem TreasuryLoanRecord.expr_inj (h : loan'.expr = loan.expr) :
    loan' = { loan with claimedGuarantees := loan'.claimedGuarantees } := by
  obtain ⟨creation, kind, discounted, payment, interval, next, count, claimed, fee, missed,
    owner⟩ := loan
  obtain ⟨creation', kind', discounted', payment', interval', next', count', claimed', fee',
    missed', owner'⟩ := loan'
  simp only [expr, link, int_, typed, Expr.link.injEq, Child.loaded.injEq, Val.int.injEq,
    Expr.bytes.injEq, and_true, true_and] at h
  obtain ⟨rfl, rfl, rfl, hkind, rfl, rfl, rfl, -, rfl, rfl, rfl⟩ := h
  have hsame : kind' = kind := by
    cases kind <;> cases kind' <;> first | rfl | cases hkind
  rw [hsame]

theorem owed_of_expr (h : loan'.expr = loan.expr) : loan'.owed = loan.owed := by
  rw [TreasuryLoanRecord.expr_inj h]
  rfl

theorem Lawful.of_expr (h : loan'.expr = loan.expr) (hl : loan.Lawful) : loan'.Lawful := by
  obtain ⟨k, hd⟩ := hl.due
  rw [TreasuryLoanRecord.expr_inj h]
  have hs := hd.scheduled
  exact ⟨hl.payment, hl.total, k, ⟨hs.creation, hs.interval, hs.count⟩, hd.first, hd.last,
    hd.pointer⟩

open Classical in
/-- What the loan that a value of a loans tree names still takes of the stake. -/
noncomputable def TreeValue.owed (v : TreeValue) : Int :=
  if h : ∃ loan : TreasuryLoanRecord, v = .hashOf loan.expr then h.choose.owed else 0

theorem owed_hashOf (loan : TreasuryLoanRecord) :
    (TreeValue.hashOf loan.expr).owed = loan.owed := by
  have h : ∃ loan' : TreasuryLoanRecord, TreeValue.hashOf loan.expr = .hashOf loan'.expr :=
    ⟨loan, rfl⟩
  rw [TreeValue.owed, dif_pos h]
  exact owed_of_expr (TreeValue.hashOf.inj h.choose_spec).symm

end Owed

section Trees

/-- The loans of a tree, which a stake covers. -/
structure Tree.CoveredBy (loans : Tree) (balance : Int) : Prop where
  lawful : ∀ key v, loans.get? key = some v →
    ∃ loan : TreasuryLoanRecord, v = .hashOf loan.expr ∧ loan.Lawful
  covers : (loans.sum fun _ v => v.owed) ≤ balance

variable {loans loans' : Tree} {balance balance' : Int} {loan : TreasuryLoanRecord} {key : Bytes}

theorem owed_nonneg_of_get? (h : ∀ key v, loans.get? key = some v →
      ∃ loan : TreasuryLoanRecord, v = .hashOf loan.expr ∧ loan.Lawful) {v : TreeValue}
    (hv : loans.get? key = some v) : 0 ≤ v.owed := by
  obtain ⟨loan, rfl, hlawful⟩ := h key v hv
  rw [owed_hashOf]
  exact owed_nonneg hlawful

theorem elim_owed_nonneg (h : ∀ key v, loans.get? key = some v →
      ∃ loan : TreasuryLoanRecord, v = .hashOf loan.expr ∧ loan.Lawful) (key : Bytes) :
    0 ≤ (loans.get? key).elim 0 TreeValue.owed := by
  rcases hvalue : loans.get? key with _ | v
  · exact le_rfl
  · exact owed_nonneg_of_get? h hvalue

/-- A part of a tree owes no more than the tree. -/
theorem Tree.CoveredBy.part (h : Tree.CoveredBy loans balance)
    (hpart : ∀ key v, loans'.get? key = some v → loans.get? key = some v) :
    Tree.CoveredBy loans' balance := by
  refine ⟨fun key v hv => h.lawful key v (hpart key v hv), le_trans ?_ h.covers⟩
  have hsubset : loans'.pairs ⊆ loans.pairs := fun p hp =>
    Dict.get?_eq_some.mp (hpart p.1 p.2 (Dict.get?_eq_some.mpr hp))
  have hnodup : loans'.pairs.Nodup := List.Nodup.of_map _ loans'.nodup
  obtain ⟨sub, hperm, hsub⟩ := List.subperm_of_subset hnodup hsubset
  rw [Dict.sum, Dict.sum, ← (hperm.map _).sum_eq]
  refine (hsub.map _).sum_le_sum fun n hn => ?_
  obtain ⟨p, hp, rfl⟩ := List.mem_map.mp hn
  exact owed_nonneg_of_get? h.lawful (Dict.get?_eq_some.mpr hp)

/-- A loan put into a tree adds what it owes over what it replaces. -/
theorem Tree.CoveredBy.insert (h : Tree.CoveredBy loans balance) (hlawful : loan.Lawful)
    (hle : loan.owed + balance ≤ balance' + ((loans.get? key).elim 0 TreeValue.owed)) :
    Tree.CoveredBy (loans.insert key (.hashOf loan.expr)) balance' := by
  refine ⟨fun k v hv => ?_, ?_⟩
  · rw [Dict.get?_insert] at hv
    split at hv
    · exact ⟨loan, (Option.some.inj hv).symm, hlawful⟩
    · exact h.lawful k v hv
  · have hsum : ((loans.insert key (.hashOf loan.expr)).sum fun _ v => v.owed) =
        (loans.sum fun _ v => v.owed) + (TreeValue.hashOf loan.expr).owed -
          (loans.get? key).elim 0 TreeValue.owed :=
      Dict.sum_insert (fun _ v => TreeValue.owed v) loans key (.hashOf loan.expr)
    have hcovers := h.covers
    rw [owed_hashOf] at hsum
    omega

theorem Tree.CoveredBy.empty (h : 0 ≤ balance) : Tree.CoveredBy .empty balance :=
  ⟨fun key _ hv => absurd ((Dict.get?_empty key).symm.trans hv) nofun, h⟩

end Trees

section Records

/-- What storage holds under the hash of a loan is read as a loan of the same cells. -/
def Node.ReadsLoans (node : Node) : Prop :=
  ∀ loan loan' : TreasuryLoanRecord, TreasuryLoanRecord.fromStorage node
    (getExpr node (node.hash loan.expr)) = .ok (some loan') → loan'.expr = loan.expr

/-- The nodes read records and loans as they were written, and open nothing under the root of a
tree that is not in the tree. -/
structure ReadsTreasury (nodes : Set Node) : Prop where
  users : ∀ node ∈ nodes, node.ReadsUsers
  loans : ∀ node ∈ nodes, node.ReadsLoans
  trees : ∀ node ∈ nodes, ∀ node' ∈ nodes, ∀ (tree : Tree) key v,
    (openTree node' (pointerTo node tree)).get? key = some v → tree.get? key = some v

/-- The stake of a record covers its secured loans, whichever node opens them. -/
def TreasuryUserRecord.Covered (nodes : Set Node) (record : TreasuryUserRecord) : Prop :=
  ∃ loans : Tree, Tree.CoveredBy loans record.balance ∧ ∀ node ∈ nodes, ∀ key v,
    (openTree node record.loansRoot).get? key = some v → loans.get? key = some v

/-- Every record that the treasury names is covered. -/
def Ledger.Secured (c : Ctx) (nodes : Set Node) (l : Ledger) : Prop :=
  ∀ user v, l.userAt c user = some v →
    ∃ record : TreasuryUserRecord, v = .hashOf record.expr ∧ record.Covered nodes

variable {nodes : Set Node} {c : Ctx} {l l' : Ledger} {record record' : TreasuryUserRecord}

theorem id_of_rootItem {p q : Pointer} (h : p.rootItem = q.rootItem) : p.id = q.id := by
  obtain ⟨id, block⟩ := p
  obtain ⟨id', block'⟩ := q
  rcases block with _ | b <;> rcases block' with _ | b' <;>
    simp only [Pointer.rootItem, refTo, link] at h
  · simpa using h
  · split at h <;> simp_all
  · split at h <;> simp_all
  · split at h <;> split at h <;> simp_all

theorem openTree_of_rootItem {p q : Pointer} (h : p.rootItem = q.rootItem) (node : Node) :
    openTree node p = openTree node q := by
  rw [openTree, openTree, id_of_rootItem h]

/-- Whether a record is covered is told by its cells. -/
theorem TreasuryUserRecord.Covered.of_expr (h : record.Covered nodes)
    (hexpr : record'.expr = record.expr) : record'.Covered nodes := by
  obtain ⟨loans, hcovered, hopens⟩ := h
  obtain ⟨hbalance, hroot, -⟩ := TreasuryUserRecord.expr_inj hexpr
  refine ⟨loans, hbalance ▸ hcovered, fun node hnode key v hv => hopens node hnode key v ?_⟩
  rwa [openTree_of_rootItem hroot] at hv

/-- The loans that a node opens of a covered record are covered. -/
theorem TreasuryUserRecord.Covered.opened (h : record.Covered nodes) {node : Node}
    (hnode : node ∈ nodes) : Tree.CoveredBy (openTree node record.loansRoot) record.balance := by
  obtain ⟨loans, hcovered, hopens⟩ := h
  exact hcovered.part (hopens node hnode)

/-- A record with a covered tree of loans under its root. -/
theorem covered_of_written (hreads : ReadsTreasury nodes) {node : Node} (hnode : node ∈ nodes)
    {loans : Tree} (hroot : record.loansRoot = pointerTo node loans)
    (hcovered : Tree.CoveredBy loans record.balance) : record.Covered nodes := by
  refine ⟨loans, hcovered, fun node' hnode' key v hv => ?_⟩
  rw [hroot] at hv
  exact hreads.trees node hnode node' hnode' loans key v hv

theorem covered_of_bare (hroot : record.loansRoot.id = zero32) (hbalance : 0 ≤ record.balance) :
    record.Covered nodes := by
  refine ⟨.empty, Tree.CoveredBy.empty hbalance, fun node _ key v hv => ?_⟩
  rwa [openTree, if_pos hroot] at hv

theorem Ledger.Secured.of_same (h : l.Secured c nodes) (hsame : l'.userAt c = l.userAt c) :
    l'.Secured c nodes := fun user v hv => h user v (hsame ▸ hv)

theorem Ledger.Secured.write {user : Bytes} (h : l.Secured c nodes)
    (hwrite : l.WritesUser c l' user record) (hcovered : record.Covered nodes) :
    l'.Secured c nodes := by
  intro u v hv
  rw [hwrite u] at hv
  split at hv
  · exact ⟨record, (Option.some.inj hv).symm, hcovered⟩
  · exact h u v hv

/-- What is loaded of a user is covered. -/
theorem covered_of_load (hreads : c.node.ReadsUsers) (h : l.Secured c nodes) {account : Account}
    (haccount : l.cache.get? treasuryAddress = some account) {user : Bytes}
    (hload : loadUserRecord c.node account.data user = .ok (some record)) :
    record.Covered nodes := by
  have hat : l.userAt c user = account.data.get? user := by
    rw [Ledger.userAt, Ledger.account_of_cached haccount]
    rfl
  rcases hvalue : account.data.get? user with _ | v
  · rw [loadUserRecord, getFromRadixTree, hvalue] at hload
    cases hload
  · obtain ⟨named, rfl, hcovered⟩ := h user v (hat.trans hvalue)
    exact hcovered.of_expr (loadUserRecord_eq hreads haccount (hat.trans hvalue) hload)

end Records

section Totals

variable {c : Ctx} {loans : Tree}

/-- One turn of the loop of `secured_loan_remaining_total`. -/
def addRemaining (c : Ctx) (loans : Tree) (total : Option Int) (key : Bytes) : Py (Option Int) := do
  let some total := total | return none
  let some loan ← loadLoanRecord c.node loans key | return none
  if loan.loanType ≠ .secured ∨ loan.nextPaymentBlockNumber = 0 then return some total
  let some remaining := remainingPaymentCount loan | return none
  return some (total + remaining * loan.paymentAmount)

/-- A loan that is read adds what it owes. -/
theorem addRemaining_eq_some (hreads : c.node.ReadsLoans)
    (hlawful : ∀ key v, loans.get? key = some v →
      ∃ loan : TreasuryLoanRecord, v = .hashOf loan.expr ∧ loan.Lawful)
    {acc : Option Int} {key : Bytes} {total : Int}
    (h : addRemaining c loans acc key = .ok (some total)) :
    ∃ a, acc = some a ∧ total = a + ((loans.get? key).map TreeValue.owed).getD 0 := by
  rcases acc with _ | a
  · cases h
  refine ⟨a, rfl, ?_⟩
  obtain ⟨found, hload, h₁⟩ := except_bind_eq_ok.mp h
  rcases found with _ | found
  · cases h₁
  rcases hvalue : loans.get? key with _ | v
  · rw [loadLoanRecord, getFromRadixTree, hvalue] at hload
    cases hload
  obtain ⟨loan, rfl, hloan⟩ := hlawful key v hvalue
  have hexpr : found.expr = loan.expr := by
    rw [loadLoanRecord, getFromRadixTree, hvalue] at hload
    exact hreads loan found hload
  rw [Option.map_some, Option.getD_some, owed_hashOf, ← owed_of_expr hexpr]
  obtain ⟨k, hd⟩ := (Lawful.of_expr hexpr hloan).due
  have hleft := unsettled_eq hd
  simp only at h₁
  split at h₁
  · rename_i hskip
    obtain rfl := Option.some.inj (Except.ok.inj h₁)
    rcases hskip with hkind | hdone
    · rw [TreasuryLoanRecord.owed]
      split
      · exact absurd ‹_› hkind
      · omega
    · have hzero : found.unsettled = 0 := by
        rw [TreasuryLoanRecord.unsettled, paidPaymentCount, if_pos hdone, Option.getD_some,
          sub_self]
      rw [TreasuryLoanRecord.owed, hzero]
      split <;> omega
  · rename_i hopen
    obtain ⟨hkind, hnext⟩ := not_or.mp hopen
    obtain ⟨hk, hunsettled⟩ := unsettled_of_due hd hnext
    have hpaid := paidPaymentCount_of_due hd.scheduled hd.pointer hd.first hk
    rw [remainingPaymentCount, hpaid] at h₁
    simp only at h₁
    rw [if_neg (by omega)] at h₁
    simp only at h₁
    obtain rfl := Option.some.inj (Except.ok.inj h₁)
    rw [TreasuryLoanRecord.owed, not_not.mp hkind, hunsettled]
    simp only
    congr 2
    omega

theorem foldlM_addRemaining (hreads : c.node.ReadsLoans)
    (hlawful : ∀ key v, loans.get? key = some v →
      ∃ loan : TreasuryLoanRecord, v = .hashOf loan.expr ∧ loan.Lawful)
    {keys : List Bytes} {acc : Option Int} {total : Int}
    (h : keys.foldlM (addRemaining c loans) acc = .ok (some total)) :
    ∃ a, acc = some a ∧
      total = a + (keys.map fun key => ((loans.get? key).map TreeValue.owed).getD 0).sum := by
  induction keys generalizing acc with
  | nil =>
    cases h
    exact ⟨total, rfl, by simp⟩
  | cons key keys ih =>
    rw [List.foldlM_cons] at h
    obtain ⟨next, hnext, h₁⟩ := except_bind_eq_ok.mp h
    obtain ⟨b, rfl, htotal⟩ := ih h₁
    obtain ⟨a, rfl, hb⟩ := addRemaining_eq_some hreads hlawful hnext
    refine ⟨a, rfl, ?_⟩
    rw [List.map_cons, List.sum_cons]
    omega

/-- The total that is computed is what the loans owe. -/
theorem securedLoanRemainingTotal_eq (hreads : c.node.ReadsLoans) {root : Pointer}
    (hlawful : ∀ key v, (openTree c.node root).get? key = some v →
      ∃ loan : TreasuryLoanRecord, v = .hashOf loan.expr ∧ loan.Lawful) {total : Int}
    (h : securedLoanRemainingTotal c root = .ok (some total)) :
    total = (openTree c.node root).sum fun _ v => v.owed := by
  obtain ⟨a, ha, htotal⟩ := foldlM_addRemaining hreads hlawful h
  obtain rfl := Option.some.inj ha
  rw [htotal, zero_add, Dict.sum, Dict.keys, List.map_map]
  congr 1
  refine List.map_congr_left fun p hp => ?_
  simp only [Function.comp, Dict.get?_eq_some.mpr hp, Option.map_some, Option.getD_some]

end Totals

section Handlers

variable {nodes : Set Node} {c : Ctx} {t : Transaction} {l l' : Ledger} {α β : Type}

/-- Steps that leave the user records go before the rest, which knows how they ran. -/
theorem secured_bind {x : Stateful Ledger α} {k : α → Stateful Ledger β} {Q : β → Ledger → Prop}
    (hx : KeepsUserAt c x)
    (hk : ∀ a l l', x l = (.ok a, l') → Triple (Ledger.Secured c nodes) (k a) Q) :
    Triple (Ledger.Secured c nodes) (x >>= k) Q := by
  intro l hl b l' h
  obtain ⟨a, l₁, h₁, h₂⟩ := bind_eq_ok.mp h
  exact hk a l l₁ h₁ l₁ (hl.of_same (hx.of_ok h₁)) b l' h₂

theorem secured_pure (a : α) :
    Triple (Ledger.Secured c nodes) (pure a : Stateful Ledger α) fun _ => Ledger.Secured c nodes :=
  .pure fun _ h => h

theorem secured_putUserRecord {user : Bytes} {record : TreasuryUserRecord}
    (hcovered : record.Covered nodes) : Triple (Ledger.Secured c nodes) (putUserRecord user record)
      fun _ => Ledger.Secured c nodes :=
  fun _ hl _ _ hrun => hl.write (writesUser_putUserRecord hrun) hcovered

variable (c nodes) in
/-- A loan that is opened from a covered record, in the tree under its root. -/
structure OpensCovered (loanId : Bytes) (o : OpenLoan) : Prop where
  covered : o.record.Covered nodes
  tree : o.loans = openTree c.node o.record.loansRoot
  lawful : o.loan.Lawful
  listed : (o.loans.get? loanId).elim 0 TreeValue.owed = o.loan.owed
  unfinished : o.loan.nextPaymentBlockNumber ≠ 0

theorem secured_openLoan_bind (hreads : ReadsTreasury nodes) (hc : c.node ∈ nodes)
    {user loanId : Bytes} {k : Option OpenLoan → Stateful Ledger β} {Q : β → Ledger → Prop}
    (hnone : Triple (Ledger.Secured c nodes) (k none) Q)
    (hsome : ∀ o : OpenLoan, OpensCovered nodes c loanId o →
      Triple (Ledger.Secured c nodes) (k (some o)) Q) :
    Triple (Ledger.Secured c nodes) (openLoan c user loanId >>= k) Q := by
  intro l hl b l' h
  obtain ⟨o, l₁, hopen, hrest⟩ := bind_eq_ok.mp h
  obtain rfl := (keeps_openLoan (R := Eq) user loanId).of_ok hopen
  rcases o with _ | o
  · exact hnone l hl b l' hrest
  refine hsome o ?_ l hl b l' hrest
  obtain ⟨treasury, l₁, h₁, h₂⟩ := bind_eq_ok.mp hopen
  obtain ⟨htreasury, rfl⟩ := held_eq_ok.mp h₁
  obtain ⟨record, l₂, h₃, h₄⟩ := bind_eq_ok.mp h₂
  obtain ⟨hrecord, rfl⟩ := Prod.mk.inj h₃
  rcases record with _ | record
  · cases h₄
  have hcovered := covered_of_load (hreads.users c.node hc) hl htreasury hrecord
  simp only at h₄
  split at h₄
  · cases h₄
  obtain ⟨loan, l₃, h₅, h₆⟩ := bind_eq_ok.mp h₄
  obtain ⟨hloan, rfl⟩ := Prod.mk.inj h₅
  rcases loan with _ | loan
  · cases h₆
  simp only at h₆
  split at h₆
  · cases h₆
  rename_i hnext
  obtain ⟨ho, -⟩ := Prod.mk.inj h₆
  obtain rfl := Option.some.inj (Except.ok.inj ho)
  have hopened := hcovered.opened hc
  rcases hvalue : (openTree c.node record.loansRoot).get? loanId with _ | v
  · rw [loadLoanRecord, getFromRadixTree, hvalue] at hloan
    cases hloan
  obtain ⟨named, rfl, hlawful⟩ := hopened.lawful loanId v hvalue
  have hexpr : loan.expr = named.expr := by
    rw [loadLoanRecord, getFromRadixTree, hvalue] at hloan
    exact hreads.loans c.node hc named loan hloan
  refine ⟨hcovered, rfl, Lawful.of_expr hexpr hlawful, ?_, hnext⟩
  simp only [hvalue, Option.elim_some, owed_hashOf, owed_of_expr hexpr]

/-- A record whose stake does not fall, with an opened loan replaced by one that owes no more. -/
theorem OpensCovered.put {loanId : Bytes} {o : OpenLoan} {loan : TreasuryLoanRecord}
    {record : TreasuryUserRecord} (h : OpensCovered nodes c loanId o)
    (hreads : ReadsTreasury nodes) (hc : c.node ∈ nodes) (hlawful : loan.Lawful)
    (hle : loan.owed ≤ o.loan.owed) (hbalance : o.record.balance ≤ record.balance)
    (hroot : record.loansRoot = pointerTo c.node (o.loans.insert loanId (.hashOf loan.expr))) :
    record.Covered nodes := by
  refine covered_of_written hreads hc hroot ?_
  have hopened := h.covered.opened hc
  rw [← h.tree] at hopened
  refine hopened.insert hlawful ?_
  rw [h.listed]
  omega

/-- What follows a load of a user's record, which is covered. -/
theorem secured_load (hreads : c.node.ReadsUsers) {user : Bytes}
    {k : Account → Option TreasuryUserRecord → Stateful Ledger β} {Q : β → Ledger → Prop}
    (hnone : ∀ treasury, Triple (Ledger.Secured c nodes) (k treasury none) Q)
    (hsome : ∀ treasury record, record.Covered nodes →
      Triple (Ledger.Secured c nodes) (k treasury (some record)) Q) :
    Triple (Ledger.Secured c nodes) (do
      let treasury ← held treasuryAddress
      let record ← .ofExcept (loadUserRecord c.node treasury.data user)
      k treasury record) Q :=
  triple_load (fun _ _ _ hl ht hr => covered_of_load hreads hl ht hr) hnone hsome

/-- `putLoan` leaves what the loans take covered. -/
theorem secured_putLoan (hreads : ReadsTreasury nodes) (hc : c.node ∈ nodes)
    {user loanId : Bytes} {o : OpenLoan} {loan : TreasuryLoanRecord}
    {update : TreasuryUserRecord → TreasuryUserRecord} (h : OpensCovered nodes c loanId o)
    (hlawful : loan.Lawful) (hle : loan.owed ≤ o.loan.owed)
    (hbalance : o.record.balance ≤ (update o.record).balance) :
    Triple (Ledger.Secured c nodes) (putLoan c user loanId o loan update)
      fun _ => Ledger.Secured c nodes := by
  refine secured_bind (.ofExcept _) fun loans l l' hloans => ?_
  obtain ⟨htree, -⟩ := Prod.mk.inj hloans
  obtain rfl := putInRadixTree_eq_ok htree
  refine secured_bind (keeps_innerExprs _) fun exprs _ _ _ => ?_
  have hput : Triple (Ledger.Secured c nodes) (putUserRecord user { update o.record with
      loansRoot := pointerTo c.node (o.loans.insert loanId (.hashOf loan.expr)) })
      fun _ => Ledger.Secured c nodes :=
    secured_putUserRecord (h.put hreads hc hlawful hle hbalance rfl)
  exact hput.bind fun _ => secured_pure _

theorem TreasuryUserRecord.Covered.guaranteed {record : TreasuryUserRecord}
    (h : record.Covered nodes) (guaranteed : Int) :
    { record with guaranteed := guaranteed }.Covered nodes := h

/-- A release leaves what the loans take covered. -/
theorem secured_releaseEach (hreads : c.node.ReadsUsers) (returned : List (Bytes × Int)) :
    Triple (Ledger.Secured c nodes) (releaseEach c returned) fun _ => Ledger.Secured c nodes := by
  induction returned with
  | nil => exact secured_pure _
  | cons entry rest ih =>
    obtain ⟨guarantor, amount⟩ := entry
    rw [releaseEach]
    refine .ite (fun _ => ih) fun _ => ?_
    refine secured_load hreads (fun _ => ih) fun _ record hcovered => ?_
    have hput : Triple (Ledger.Secured c nodes) (putUserRecord guarantor { record with
        guaranteed := max 0 (record.guaranteed - amount) }) fun _ => Ledger.Secured c nodes :=
      secured_putUserRecord (hcovered.guaranteed _)
    exact hput.bind fun _ => secured_bind (keeps_innerExprs _) fun _ _ _ _ => ih.bind fun _ =>
      secured_pure _

theorem secured_releaseGuarantees (hreads : c.node.ReadsUsers) (loan : TreasuryLoanRecord) :
    Triple (Ledger.Secured c nodes) (releaseGuarantees c loan) fun _ => Ledger.Secured c nodes :=
  .ite (fun _ => secured_pure _) fun _ => secured_releaseEach hreads _

/-- What a handler does once it has written everything. -/
theorem secured_finish (exprs : List Expr) : Triple (Ledger.Secured c nodes) (do
    extendPendingExprs exprs
    involve treasuryAddress
    return Status.success : Stateful Ledger Status) fun _ => Ledger.Secured c nodes :=
  secured_bind (users_extendPendingExprs _) fun _ _ _ _ => secured_bind (users_involve _)
    fun _ _ _ _ => secured_pure _

/-- A repayment leaves what the loans take covered. -/
theorem secured_handleTreasuryRepay (hreads : ReadsTreasury nodes) (hc : c.node ∈ nodes) :
    Triple (Ledger.Secured c nodes) (handleTreasuryRepay c t) fun _ => Ledger.Secured c nodes := by
  rw [handleTreasuryRepay]
  refine .ite (fun _ => secured_pure _) fun hguard => ?_
  refine secured_bind (users_getAccount _) fun _ _ _ _ => .ite (fun _ => secured_pure _) fun _ => ?_
  split
  rotate_left
  · exact secured_pure _
  refine secured_openLoan_bind hreads hc (secured_pure _) fun o ho => ?_
  refine .ite (fun _ => secured_pure _) fun hamount => ?_
  split
  rotate_left
  · exact secured_pure _
  refine .ite (fun _ => secured_pure _) fun _ => ?_
  refine secured_bind (.ofExcept _) fun missed _ _ hmissed => ?_
  refine secured_bind (.ofExcept _) fun paid _ _ hpaid => ?_
  refine secured_bind (users_repayOrReturn _ _ _) fun repaid _ _ hrepaid => ?_
  rcases repaid with _ | repaid
  · exact secured_pure _
  simp only
  split
  rotate_left
  · exact secured_pure _
  rename_i interest hinterest
  obtain ⟨n, hchange⟩ := repaidLoan_of_repayOrReturn (Prod.mk.inj hmissed).1
    (Prod.mk.inj hpaid).1 hrepaid hinterest
  obtain ⟨k, hd⟩ := ho.lawful.due
  obtain ⟨hlawful, hle⟩ := owed_of_advances ho.lawful hd
    (repaid_advances hd ho.lawful.total (by omega) (by omega) hchange)
  refine (secured_putLoan hreads hc ho hlawful hle le_rfl).bind fun _ => ?_
  refine secured_bind (users_creditOwnerIf _ _ _) fun _ _ _ _ => ?_
  refine .ite (fun _ => secured_pure _) fun _ => ?_
  refine secured_bind (keeps_innerExprs _) fun _ _ _ _ => ?_
  refine secured_bind (users_when (users_addDefaulted _)) fun _ _ _ _ => ?_
  refine Triple.bind (.ite (fun _ => secured_releaseGuarantees (hreads.users c.node hc) _)
    fun _ => secured_pure _) fun _ => secured_finish _

/-- Closing a loan leaves what the loans take covered. -/
theorem secured_handleTreasuryClose (hreads : ReadsTreasury nodes) (hc : c.node ∈ nodes) :
    Triple (Ledger.Secured c nodes) (handleTreasuryClose c t) fun _ => Ledger.Secured c nodes := by
  rw [handleTreasuryClose]
  refine .ite (fun _ => secured_pure _) fun hguard => ?_
  refine secured_bind (users_getAccount _) fun _ _ _ _ => .ite (fun _ => secured_pure _) fun _ => ?_
  split
  rotate_left
  · exact secured_pure _
  refine secured_openLoan_bind hreads hc (secured_pure _) fun o ho => ?_
  refine .ite (fun _ => secured_pure _) fun hcount => ?_
  refine secured_bind ?_ fun closing _ _ hclosing => ?_
  · split
    · exact users_closeUnsecured _
    · exact .ofExcept _
  rcases closing with _ | closing
  · exact secured_pure _
  simp only
  obtain ⟨k, hd⟩ := ho.lawful.due
  obtain ⟨hlawful, hle⟩ := owed_of_advances ho.lawful hd
    (closed_advances hd ho.lawful.total closing.missedDelta)
  refine (secured_putLoan hreads hc ho hlawful hle ?_).bind fun _ => ?_
  · rcases hkind : o.loan.loanType with _ | _ <;> rw [hkind] at hclosing
    · obtain ⟨-, hcovers, -⟩ := closeSecured_eq_some (Prod.mk.inj hclosing).1
      exact Int.le_add_of_nonneg_right (Int.sub_nonneg_of_le hcovers)
  refine secured_bind (users_creditOwnerIf _ _ _) fun _ _ _ _ => ?_
  refine .ite (fun _ => secured_pure _) fun _ => ?_
  refine secured_bind (users_when ((users_returnToSender _ _).map _)) fun _ _ _ _ => ?_
  refine secured_bind (keeps_innerExprs _) fun _ _ _ _ => ?_
  refine secured_bind (users_when (users_addDefaulted _)) fun _ _ _ _ => ?_
  exact (secured_releaseGuarantees (hreads.users c.node hc) _).bind fun _ => secured_finish _

variable (c nodes) in
/-- What a handler that looks a loan up by its id finds. -/
def NamesCovered (r : Option (Bytes × Bytes × OpenLoan)) (l : Ledger) : Prop :=
  l.Secured c nodes ∧ ∀ named ∈ r, OpensCovered nodes c named.1 named.2.2

theorem secured_namedLoan (hreads : ReadsTreasury nodes) (hc : c.node ∈ nodes) :
    Triple (Ledger.Secured c nodes) (namedLoan c t) (NamesCovered nodes c) := by
  have hnone : Triple (Ledger.Secured c nodes)
      (pure none : Stateful Ledger (Option (Bytes × Bytes × OpenLoan))) (NamesCovered nodes c) :=
    .pure fun _ h => ⟨h, fun _ hnamed => by cases hnamed⟩
  rw [namedLoan]
  split
  rotate_left
  · exact hnone
  refine secured_bind (.ofExcept _) fun borrowerTx _ _ _ => ?_
  refine secured_bind (users_getAccount _) fun _ _ _ _ => .ite (fun _ => hnone) fun _ => ?_
  refine secured_openLoan_bind hreads hc hnone fun o ho => .pure fun _ h => ⟨h, fun named hn => ?_⟩
  obtain rfl := Option.some.inj hn
  exact ho

variable (c nodes) in
def QuotesCovered (r : Option BuyQuote) (l : Ledger) : Prop :=
  l.Secured c nodes ∧ ∀ quote ∈ r, OpensCovered nodes c quote.loanId quote.o

theorem secured_buyQuote (hreads : ReadsTreasury nodes) (hc : c.node ∈ nodes) :
    Triple (Ledger.Secured c nodes) (buyQuote c t) (QuotesCovered nodes c) := by
  have hnone : Triple (Ledger.Secured c nodes) (pure none : Stateful Ledger (Option BuyQuote))
      (QuotesCovered nodes c) := .pure fun _ h => ⟨h, fun _ hquote => by cases hquote⟩
  rw [buyQuote]
  refine (secured_namedLoan hreads hc).bind fun named => ?_
  rcases named with _ | ⟨loanId, borrower, o⟩
  · exact fun l hl => hnone l hl.1
  refine .given (p := OpensCovered nodes c loanId o) (fun _ h => h.2 _ rfl) fun ho => ?_
  intro l hl
  refine Triple.ite (P := Ledger.Secured c nodes) (fun _ => hnone) (fun _ => ?_) l hl.1
  split
  rotate_left
  · exact hnone
  refine .ite (fun _ => hnone) fun _ => secured_bind (.ofExcept _) fun rate _ _ _ => ?_
  rcases rate with _ | rate
  · exact hnone
  simp only
  split
  rotate_left
  · exact hnone
  refine .ite (fun _ => hnone) fun _ => .pure fun _ h => ⟨h, fun quote hquote => ?_⟩
  obtain rfl := Option.some.inj hquote
  exact ho

/-- A purchase leaves what the loans take covered. -/
theorem secured_handleTreasuryBuy (hreads : ReadsTreasury nodes) (hc : c.node ∈ nodes) :
    Triple (Ledger.Secured c nodes) (handleTreasuryBuy c t) fun _ => Ledger.Secured c nodes := by
  rw [handleTreasuryBuy]
  refine .ite (fun _ => secured_pure _) fun _ => (secured_buyQuote hreads hc).bind fun quote => ?_
  rcases quote with _ | ⟨loanId, borrower, o, price⟩
  · exact fun l hl => secured_pure _ l hl.1
  refine .given (p := OpensCovered nodes c loanId o) (fun _ h => h.2 _ rfl) fun ho => ?_
  intro l hl
  obtain ⟨k, hd⟩ := ho.lawful.due
  obtain ⟨hlawful, hle⟩ := owed_of_advances ho.lawful hd
    (bought_advances hd ho.lawful.total t.sender)
  refine secured_bind (users_debitOwner _ _) (fun _ _ _ _ => ?_) l hl.1
  refine .ite (fun _ => secured_pure _) fun _ => ?_
  refine secured_bind (users_refundBuyer _ _) fun _ _ _ _ => ?_
  refine .ite (fun _ => secured_pure _) fun _ => ?_
  refine (secured_putLoan hreads hc ho hlawful hle le_rfl).bind fun _ => ?_
  exact secured_bind (keeps_innerExprs _) fun _ _ _ _ => secured_finish _

/-- A claim leaves what the loans take covered. -/
theorem secured_handleTreasuryClaim (hreads : ReadsTreasury nodes) (hc : c.node ∈ nodes) :
    Triple (Ledger.Secured c nodes) (handleTreasuryClaim c t) fun _ => Ledger.Secured c nodes := by
  rw [handleTreasuryClaim]
  refine .ite (fun _ => secured_pure _) fun _ => (secured_namedLoan hreads hc).bind fun named => ?_
  rcases named with _ | ⟨loanId, borrower, o⟩
  · exact fun l hl => secured_pure _ l hl.1
  refine .given (p := OpensCovered nodes c loanId o) (fun _ h => h.2 _ rfl) fun ho => ?_
  intro l hl
  refine Triple.ite (P := Ledger.Secured c nodes) (fun _ => secured_pure _) (fun _ => ?_) l hl.1
  refine secured_bind (.ofExcept _) fun missed _ _ hmissed => ?_
  split
  rotate_left
  · exact secured_pure _
  rename_i paid hpaid
  refine .ite (fun _ => secured_pure _) fun _ => .ite (fun _ => secured_pure _) fun _ => ?_
  refine secured_bind (keeps_held _) fun treasury _ _ _ => ?_
  refine .ite (fun _ => secured_pure _) fun _ => ?_
  refine secured_bind (users_addBalance _ _) fun _ _ _ _ => ?_
  refine secured_bind (users_getAccount _) fun _ _ _ _ => .ite (fun _ => secured_pure _) fun _ => ?_
  refine secured_bind (users_addBalance _ _) fun _ _ _ _ => ?_
  refine secured_bind (users_involve _) fun _ _ _ _ => ?_
  split
  rotate_left
  · exact secured_pure _
  rename_i next hnext
  have hdue : installmentsDue c o.loan = .ok missed := (Prod.mk.inj hmissed).1
  have hchange : claimedLoan c o.loan = .ok (some ({ o.loan with nextPaymentBlockNumber := next },
      claimable missed (o.loan.paymentCount - paid))) := by
    simp only [claimedLoan, hdue, hpaid, hnext, bind, Except.bind, pure, Except.pure]
  obtain ⟨k, hd⟩ := ho.lawful.due
  obtain ⟨hlawful, hle⟩ := owed_of_advances ho.lawful hd
    (claimed_advances hd ho.lawful.total ho.unfinished hchange)
  refine secured_bind (.ofExcept _) fun loans _ _ hloans => ?_
  obtain ⟨htree, -⟩ := Prod.mk.inj hloans
  obtain rfl := putInRadixTree_eq_ok htree
  refine secured_bind (keeps_innerExprs _) fun _ _ _ _ => ?_
  refine secured_bind (users_when (users_addDefaulted _)) fun _ _ _ _ => ?_
  refine (secured_putUserRecord (ho.put hreads hc hlawful hle ?_ rfl)).bind fun _ => ?_
  · cases o.loan.loanType <;> exact le_rfl
  exact secured_bind (keeps_innerExprs _) fun _ _ _ _ => secured_finish _

/-- The record of a secured loan made now owes all its payments. -/
theorem owed_newLoan {interval count discounted : Int} {claimed : List (Bytes × Bytes × Int)}
    {fee : Int} (hpayment : 0 < t.amount) (hheight : 0 ≤ c.header.height)
    (hfees : c.header.CountsFees) {kind : LoanType}
    (hmade : LoanMade c t (newLoan c t kind interval count discounted claimed fee)) :
    (newLoan c t kind interval count discounted claimed fee).Lawful ∧
      (newLoan c t kind interval count discounted claimed fee).owed =
        if kind = .secured then t.amount * count else 0 := by
  have hstart := hmade.onSchedule hheight hfees
  have hleft := unsettled_eq hstart.due
  refine ⟨⟨hpayment, hstart.total, 1, hstart.due⟩, ?_⟩
  rw [TreasuryLoanRecord.owed]
  cases kind with
  | secured =>
    change _ * t.amount = t.amount * count
    rw [hleft, Int.mul_comm]
    congr 1
    exact Int.add_sub_cancel count 1
  | unsecured => rfl

/-- A secured borrow is only made where the stake covers it with the loans there are. -/
theorem secured_handleSecuredBorrow (hreads : ReadsTreasury nodes) (hc : c.node ∈ nodes)
    {hash : Bytes} {request : TreasuryBorrowRequest} (hpayment : 0 < t.amount)
    (hheight : 0 ≤ c.header.height) (hfees : c.header.CountsFees)
    (hkind : request.loanType = .secured) :
    Triple (Ledger.Secured c nodes) (handleSecuredBorrow c t hash request)
      fun _ => Ledger.Secured c nodes := by
  rw [handleSecuredBorrow]
  refine secured_bind (.ofExcept _) fun interval _ _ _ => ?_
  refine secured_bind (.ofExcept _) fun count _ _ _ => ?_
  refine secured_bind (.ofExcept _) fun rate _ _ hrate => ?_
  rcases rate with _ | rate
  · exact secured_pure _
  simp only
  refine secured_load (hreads.users c.node hc) (fun _ => secured_pure _)
    fun treasury record hcovered => ?_
  have hopened := hcovered.opened hc
  refine secured_bind (.ofExcept _) fun existing _ _ hexisting => ?_
  rcases existing with _ | existing
  · exact secured_pure _
  have htotal := securedLoanRemainingTotal_eq (hreads.loans c.node hc) hopened.lawful
    (Prod.mk.inj hexisting).1
  simp only
  split
  rotate_left
  · exact secured_pure _
  rename_i discounted hdiscounted
  refine .ite (fun _ => secured_pure _) fun hguard => .ite (fun _ => secured_pure _) fun _ => ?_
  have hmade : LoanMade c t (newLoan c t request.loanType interval count discounted [] 0) :=
    ⟨rate.1, rate.2, interval, count, discounted, (Prod.mk.inj hrate).1, hdiscounted,
      request.loanType, [], 0, rfl⟩
  obtain ⟨hlawful, howed⟩ := owed_newLoan hpayment hheight hfees hmade
  have howed := howed.trans (if_pos hkind)
  refine secured_bind (.ofExcept _) fun loans _ _ hloans => ?_
  obtain ⟨htree, -⟩ := Prod.mk.inj hloans
  obtain rfl := putInRadixTree_eq_ok htree
  refine secured_bind (keeps_innerExprs _) fun _ _ _ _ => ?_
  refine (secured_putUserRecord (covered_of_written hreads hc rfl ?_)).bind fun _ => ?_
  · have htight : Tree.CoveredBy (openTree c.node record.loansRoot) existing :=
      ⟨hopened.lawful, htotal.ge⟩
    refine htight.insert hlawful ?_
    have hreplaced := elim_owed_nonneg hopened.lawful hash
    change _ ≤ record.balance + _
    omega
  refine secured_bind (users_addBalance _ _) fun _ _ _ _ => ?_
  refine secured_bind (users_addBalance _ _) fun _ _ _ _ => ?_
  refine secured_bind (keeps_innerExprs _) fun _ _ _ _ => ?_
  exact secured_bind (users_extendPendingExprs _) fun _ _ _ _ => secured_pure _

/-- An unsecured borrow takes nothing of a stake. -/
theorem secured_handleUnsecuredBorrow (hreads : ReadsTreasury nodes) (hc : c.node ∈ nodes)
    {hash : Bytes} {request : TreasuryBorrowRequest} {refs : List (Bytes × Bytes)}
    (hpayment : 0 < t.amount) (hheight : 0 ≤ c.header.height) (hfees : c.header.CountsFees)
    (hl : l.Secured c nodes)
    (h : handleUnsecuredBorrow c t hash request refs l = (.ok .success, l')) :
    l'.Secured c nodes := by
  obtain ⟨account, record, claimed, loan, hrun, hmade, -, hkind⟩ := handleUnsecuredBorrow_run h
  have husers := hreads.users c.node hc
  have hborrower : record.Covered nodes := by
    have hload := hrun.borrower
    rcases hfound : loadUserRecord c.node account.data t.sender with e | found <;>
      rw [hfound] at hload
    · cases hload
    obtain rfl := Except.ok.inj hload
    rcases found with _ | found
    · exact covered_of_bare rfl le_rfl
    · exact covered_of_load husers hl hrun.treasury hfound
  have hopened := hborrower.opened hc
  have howed : loan.owed = 0 := by
    rw [TreasuryLoanRecord.owed, hkind]
  have hlawful : loan.Lawful := by
    have hstart := hmade.onSchedule hheight hfees
    refine ⟨?_, hstart.total, 1, hstart.due⟩
    obtain ⟨_, _, _, _, _, -, -, _, _, _, rfl⟩ := hmade
    exact hpayment
  intro u v hv
  rw [hrun.users u] at hv
  split at hv
  · refine ⟨_, (Option.some.inj hv).symm, covered_of_written hreads hc rfl ?_⟩
    refine hopened.insert hlawful ?_
    have hreplaced := elim_owed_nonneg hopened.lawful hash
    change _ ≤ record.balance + _
    omega
  · rcases hstate : claimed.states.get? u with _ | state <;> rw [hstate] at hv
    · exact hl u v hv
    · have hclaims := hrun.claims u
      rw [hstate] at hclaims
      have hcovered : state.record.Covered nodes :=
        covered_of_load husers hl hrun.treasury hclaims.2.loaded
      exact ⟨guarantorRecord c state, (Option.some.inj hv).symm, hcovered⟩

/-- A borrow leaves what the loans take covered. -/
theorem secured_handleTreasuryBorrow (hreads : ReadsTreasury nodes) (hc : c.node ∈ nodes)
    {hash : Bytes} (hheight : 0 ≤ c.header.height) (hfees : c.header.CountsFees)
    (hl : l.Secured c nodes) (h : handleTreasuryBorrow c t hash l = (.ok .success, l')) :
    l'.Secured c nodes := by
  obtain ⟨-, hpayment, account, l₁, loanType, interval, count, refs, kind, hread, -, -, hmade⟩ :=
    handleTreasuryBorrow_steps h
  have hl₁ := hl.of_same ((users_getAccount (c := c) _).of_ok hread)
  rcases hmade with ⟨rfl, hsecured⟩ | ⟨rfl, named, -, hunsecured⟩
  · exact secured_handleSecuredBorrow hreads hc hpayment hheight hfees rfl _ hl₁ _ _ hsecured
  · exact secured_handleUnsecuredBorrow hreads hc hpayment hheight hfees hl₁ hunsecured

/-- Selling a guarantee takes nothing of a stake. -/
theorem secured_handleTreasuryGuarantee (hreads : ReadsTreasury nodes) (hc : c.node ∈ nodes)
    {hash : Bytes} (hl : l.Secured c nodes)
    (h : handleTreasuryGuarantee c t hash l = (.ok .success, l')) : l'.Secured c nodes := by
  obtain ⟨l₁, account, found, guarantees, guarantee, amount, hread, haccount, hload, hwrite, -⟩ :=
    handleTreasuryGuarantee_run h
  have hl₁ := hl.of_same hread.userAt
  have hfound : (found.getD .empty).Covered nodes := by
    rcases found with _ | found
    · exact covered_of_bare rfl le_rfl
    · exact covered_of_load (hreads.users c.node hc) hl₁ haccount hload
  exact hl₁.write hwrite hfound

/-- A deposit that is not below zero leaves what the loans take covered. -/
theorem secured_applyTreasuryDeposit (hreads : ReadsTreasury nodes) (hc : c.node ∈ nodes)
    {g : Guarded} {r : Handled} (hamount : 0 ≤ g.transferAmount) (hl : l.Secured c nodes)
    (h : applyTreasuryDeposit c t g l = (.ok r, l')) (hs : r.status = .success) :
    l'.Secured c nodes := by
  obtain ⟨l₁, hsame, -, heffect⟩ := applyTreasuryDeposit_eq_success h hs
  have hl₁ := hl.of_same hsame
  rcases heffect with ⟨-, rfl⟩ | ⟨account, record, haccount, hload, hwrite, -⟩
  · exact hl₁
  · obtain ⟨loans, hcovered, hopens⟩ :=
      covered_of_load (hreads.users c.node hc) hl₁ haccount hload
    refine hl₁.write hwrite ⟨loans, ⟨hcovered.lawful, hcovered.covers.trans ?_⟩, hopens⟩
    exact Int.le_add_of_nonneg_right hamount

/-- A treasury transaction that succeeds, and is no deposit below zero, leaves what the loans take
covered. -/
theorem secured_treasury (hreads : ReadsTreasury nodes) (hc : c.node ∈ nodes)
    {g : Guarded} {r : Handled} {nested : Bool} {keys : List Bytes} {apply : NestedApply}
    {hash : Bytes} (hheight : 0 ≤ c.header.height) (hfees : c.header.CountsFees)
    (hamount : t.code = .treasuryDeposit → 0 ≤ g.transferAmount) (hcode : t.code ∈ treasuryCodes)
    (hl : l.Secured c nodes)
    (h : runHandler c t nested keys apply hash g l = (.ok r, l')) (hs : r.status = .success) :
    l'.Secured c nodes := by
  rw [runHandler] at h
  simp only [treasuryCodes, List.mem_cons, List.not_mem_nil, or_false] at hcode
  rcases hcode with hcode | hcode | hcode | hcode | hcode | hcode | hcode <;>
    simp only [hcode] at h
  · exact secured_applyTreasuryDeposit hreads hc (hamount hcode) hl h hs
  all_goals
    obtain ⟨l₁, hread, hrun⟩ := applyTreasury_eq_success h hs
    have hl₁ := hl.of_same hread.userAt
  · exact secured_handleTreasuryBorrow hreads hc hheight hfees hl₁ hrun
  · exact secured_handleTreasuryRepay hreads hc _ hl₁ _ _ hrun
  · exact secured_handleTreasuryClose hreads hc _ hl₁ _ _ hrun
  · exact secured_handleTreasuryGuarantee hreads hc hl₁ hrun
  · exact secured_handleTreasuryBuy hreads hc _ hl₁ _ _ hrun
  · exact secured_handleTreasuryClaim hreads hc _ hl₁ _ _ hrun

end Handlers

section Draws

variable {R : Random} {nodes : Set Node} {c : Ctx} {l l' : Ledger} {key : Bytes}

theorem users_openAccount (key : Bytes) : KeepsUserAt c (openAccount c key) := by
  intro l
  have hget := eq_of_fst (getAccount_fst c l key)
  obtain ⟨-, hread, -⟩ := getAccount_eq_ok hget
  have hview : (getAccount c key l).2.account c = l.account c := funext hread.account
  rcases haccount : l.account c key with _ | account <;> rw [haccount] at hget
  · let l₁ := (getAccount c key l).2
    let l₂ : Ledger := { l₁ with
      cache := l₁.cache.insert key (createAccount 0 zero32)
      involved := l₁.involved.insert key }
    have hrun : openAccount c key l = (.ok (), l₂) := (bind_of_ok hget _).trans rfl
    have hinsert : l₂.account c treasuryAddress =
        if key = treasuryAddress then some (createAccount 0 zero32)
        else l₁.account c treasuryAddress :=
      Ledger.account_insert c l₁ key treasuryAddress (createAccount 0 zero32)
    rw [hrun]
    change l₂.userAt c = l.userAt c
    funext user
    by_cases hkey : key = treasuryAddress
    · subst hkey
      rw [if_pos rfl] at hinsert
      rw [Ledger.userAt, Ledger.userAt, hinsert, haccount]
      rfl
    · rw [if_neg hkey, hview] at hinsert
      rw [Ledger.userAt, Ledger.userAt, hinsert]
  · have hrun : openAccount c key l = (.ok (), (getAccount c key l).2) :=
      (bind_of_ok hget _).trans rfl
    rw [hrun]
    exact hread.userAt

theorem users_payValidator (key : Bytes) (n : Int) : KeepsUserAt c (payValidator c key n) :=
  (users_openAccount key).bind fun _ => (users_addBalance key n).bind fun _ => users_involve key

theorem users_payPass (loans : List (Bytes × TreasuryLoanRecord)) (p : LoanPass) :
    KeepsUserAt c (payPass loans p) := by
  induction loans generalizing p with
  | nil => exact .pure _
  | cons loan rest ih =>
    obtain ⟨loanId, loan⟩ := loan
    rw [payPass]
    exact .ite (ih _) (.ite (ih _) (.ite (.pure _) (.raise _)))

theorem users_payPasses (n : Nat) (loans : List (Bytes × TreasuryLoanRecord)) (p : LoanPass) :
    KeepsUserAt c (payPasses n loans p) := by
  induction n generalizing loans p with
  | zero => exact .raise _
  | succ n ih =>
    rw [payPasses]
    refine .ite (.pure _) ((users_payPass _ _).bind fun p' => ?_)
    rcases p' with _ | p'
    · exact .pure _
    · exact .ite (ih _ _) (.pure _)

/-- What is returned of a stake and would pay loans leaves the records, as its payments raise. -/
theorem users_applyStakeReturn (borrower : Bytes) (amount : Int) :
    KeepsUserAt c (applyTreasuryLoanPaymentsFromStakeReturn c borrower amount) := by
  rw [applyTreasuryLoanPaymentsFromStakeReturn]
  refine .ite (.pure _) ((users_getAccount _).bind fun _ => .ite (.pure _) ?_)
  refine (keeps_held _).bind fun treasury => (Keeps.ofExcept _).bind fun record => ?_
  rcases record with _ | record
  · exact .pure _
  refine .ite (.pure _) (.ite (.pure _) ?_)
  refine (Keeps.ofExcept _).bind fun active => (users_payPasses _ _ _).bind fun p => ?_
  rcases p with _ | p
  · exact .pure _
  · exact (users_when (users_involve _)).bind fun _ => .pure _

/-- Halving a stake leaves what the loans take covered: what it halves has no loans. -/
theorem secured_halveStake (d : Draw R) :
    Triple (Ledger.Secured c nodes) (halveStake c key d) fun _ => Ledger.Secured c nodes := by
  rw [halveStake]
  refine .ite (fun _ => .raise _) fun _ => .ite (fun _ => secured_pure _) fun _ => ?_
  split
  rotate_left
  · exact .raise _
  rename_i record hrecord
  refine Triple.bind (Q := fun _ => Ledger.Secured c nodes) (.ite (fun hroot => ?_) fun _ => ?_)
    fun d' => secured_bind (users_involve _) fun _ _ _ _ => secured_pure _
  · have hhalf := halvedStake_pos ((d.stakes.get? key).getD 0)
    have hnonneg : 0 ≤ halvedStake ((d.stakes.get? key).getD 0) := by omega
    have hcovered : ({ record with balance := halvedStake ((d.stakes.get? key).getD 0) } :
      TreasuryUserRecord).Covered nodes := covered_of_bare hroot hnonneg
    refine (secured_putUserRecord hcovered).bind fun _ => ?_
    refine secured_bind (keeps_innerExprs _) fun _ _ _ _ => ?_
    refine secured_bind (users_extendPendingExprs _) fun _ _ _ _ => ?_
    refine secured_bind (users_addBalance _ _) fun _ _ _ _ => ?_
    exact secured_bind (users_payValidator _ _) fun _ _ _ _ => secured_pure _
  · refine secured_bind (users_applyStakeReturn _ _) fun paid _ _ _ => .ite (fun _ => .raise _) ?_
    refine fun _ => secured_bind (keeps_held _) fun _ _ _ _ => ?_
    refine secured_bind (.ofExcept _) fun found _ _ _ => ?_
    rcases found with _ | found
    · exact .raise _
    · exact secured_pure _

theorem secured_drawSlot (d : Draw R) :
    Triple (Ledger.Secured c nodes) (drawSlot c d) fun _ => Ledger.Secured c nodes :=
  secured_bind (.ofExcept _) fun _ _ _ _ =>
    (secured_halveStake _).bind fun _ => secured_pure _

theorem secured_drawSlots (n : Nat) (d : Draw R) :
    Triple (Ledger.Secured c nodes) (drawSlots c n d) fun _ => Ledger.Secured c nodes := by
  induction n generalizing d with
  | zero => exact secured_drawSlot d
  | succ n ih => exact (secured_drawSlot d).bind fun slot => ih slot.2

/-- The draw of a validator leaves what the loans take covered. -/
theorem secured_currentValidator (entries : List (Bytes × Option Expr)) (blockHash : Bytes)
    (timestamp : Option Int) (targetTime : Int) :
    Triple (Ledger.Secured c nodes) (currentValidator R c entries blockHash timestamp targetTime)
      fun _ => Ledger.Secured c nodes := by
  rcases timestamp with _ | blockTimestamp
  · exact .raise _
  rw [currentValidator]
  refine secured_bind (users_getAccount _) fun account _ _ _ => ?_
  refine .ite (fun _ => .raise _) fun _ => ?_
  refine secured_bind (.ofExcept _) fun d _ _ _ => ?_
  refine .ite (fun _ => .raise _) fun _ => (secured_drawSlots _ d).bind fun _ => secured_pure _

end Draws

section Runs

/-- What the guards leave to transfer is below zero only where the transaction's amount is. -/
theorem guards_nonneg {t : Transaction} (h : 0 ≤ t.amount) (nested : Bool) (sender : Account) :
    0 ≤ (guards nested t sender).transferAmount := by
  simp only [guards]
  split_ifs <;> first | exact le_rfl | exact h

variable (nodes : Set Node)

/-- The blocks and the ledgers of a chain that starts from stakes without loans, with the treasury
transactions on the way: those that succeed, draws of a validator, and anything in between that
leaves the records of the treasury. -/
inductive CollateralRun : Ctx → Ledger → List Transaction → Prop
  | start {c : Ctx} {l : Ledger} (hl : ∀ user v, l.userAt c user = some v →
      ∃ record : TreasuryUserRecord, v = .hashOf record.expr ∧ record.loansRoot.id = zero32 ∧
        0 ≤ record.balance) : CollateralRun c l []
  | between {c c' : Ctx} {l l' : Ledger} {ts : List Transaction} (run : CollateralRun c l ts)
      (hsame : l'.userAt c' = l.userAt c) : CollateralRun c' l' ts
  | transaction {c : Ctx} {t : Transaction} {r : Handled} {l l' : Ledger} {ts : List Transaction}
      {nested : Bool} {sender : Account} {keys : List Bytes} {apply : NestedApply} {hash : Bytes}
      (run : CollateralRun c l ts) (hnode : c.node ∈ nodes) (hheight : 0 ≤ c.header.height)
      (hfees : c.header.CountsFees) (hcode : t.code ∈ treasuryCodes)
      (h : runHandler c t nested keys apply hash (guards nested t sender) l = (.ok r, l'))
      (hs : r.status = .success) : CollateralRun c l' (ts ++ [t])
  | draw {R : Random} {c : Ctx} {l l' : Ledger} {ts : List Transaction} {blockHash key : Bytes}
      {entries : List (Bytes × Option Expr)} {timestamp : Option Int} {targetTime : Int}
      (run : CollateralRun c l ts)
      (h : currentValidator R c entries blockHash timestamp targetTime l = (.ok key, l')) :
      CollateralRun c l' ts

variable {nodes} {c : Ctx} {l : Ledger} {ts : List Transaction}

theorem CollateralRun.secured (hreads : ReadsTreasury nodes) (run : CollateralRun nodes c l ts)
    (hdeposits : ∀ t ∈ ts, t.code = .treasuryDeposit → 0 ≤ t.amount) : l.Secured c nodes := by
  induction run with
  | start hl =>
    intro user v hv
    obtain ⟨record, hrecord, hroot, hbalance⟩ := hl user v hv
    exact ⟨record, hrecord, covered_of_bare hroot hbalance⟩
  | between run hsame ih =>
    intro user v hv
    rw [hsame] at hv
    exact ih hdeposits user v hv
  | @transaction c t r l l' ts nested sender keys apply hash run hnode hheight hfees hcode h hs
      ih =>
    have hbefore := ih fun t ht => hdeposits t (List.mem_append_left _ ht)
    have hamount : t.code = .treasuryDeposit → 0 ≤ (guards nested t sender).transferAmount :=
      fun hdeposit => guards_nonneg (hdeposits t (by simp) hdeposit) nested sender
    exact secured_treasury hreads hnode hheight hfees hamount hcode hbefore h hs
  | draw run h ih => exact secured_currentValidator _ _ _ _ _ (ih hdeposits) _ _ h

end Runs

section Samples

/-- Storage without cells has no loans. -/
theorem readsLoans_bareNode : bareNode.ReadsLoans := by
  intro loan loan' h
  have hnil : TreasuryLoanRecord.fromStorage bareNode (some .nil) = .ok none := rfl
  have hsymbol : ∀ s, TreasuryLoanRecord.fromStorage bareNode (some (.symbol s)) = .ok none :=
    fun s => rfl
  rw [getExpr] at h
  split at h
  · cases hnil.symm.trans h
  · change TreasuryLoanRecord.fromStorage bareNode
      ((builtinTypeOfHash id (bareNode.hash loan.expr)).map .symbol) = _ at h
    rcases builtinTypeOfHash id (bareNode.hash loan.expr) with _ | s
    · cases h
    · cases (hsymbol s).symm.trans h

theorem readsTreasury_bareNode : ReadsTreasury {bareNode} := by
  refine ⟨?_, ?_, ?_⟩
  · rintro node rfl
    exact readsUsers_bareNode
  · rintro node rfl
    exact readsLoans_bareNode
  · rintro node rfl node' rfl tree key v hv
    cases hv

/-- A treasury transaction of this block, with the guards before it. -/
def guarded (c : Ctx) (t : Transaction) : Stateful Ledger Handled :=
  runHandler c t false [] callsNothing aliceHash (guards false t (createAccount 9 zero32))

def bobGuarantees : Transaction := { aliceGuarantees with sender := bobAddress }

/-- A chain may start from Alice's stake. -/
theorem run_aliceStake (nodes : Set Node) (c : Ctx) :
    CollateralRun nodes c (treasuryWith aliceStake) [] := by
  refine .start fun user v hv => ?_
  have htree : (treasuryWith aliceStake).userTree c =
      Dict.empty.insert aliceAddress (.hashOf aliceStake.expr) := rfl
  rw [userAt_eq_get?, htree, Dict.get?_insert] at hv
  split at hv
  · exact ⟨aliceStake, (Option.some.inj hv).symm, rfl, by decide⟩
  · cases hv

/-- Alice deposits less than nothing. -/
def aliceTakesBack : Transaction := aliceSends .treasuryDeposit treasuryAddress (-15)

def aliceDrained : TreasuryUserRecord := { aliceIndebted with balance := 5 }

end Samples

end Astreum
