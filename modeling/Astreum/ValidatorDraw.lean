import Astreum.Guarantees
import Astreum.Validator

namespace Astreum

open Eff

section Picks

variable {R : Random}

/-- A choice below the weights together falls on one of them. -/
theorem firstAbove_of_lt {weights : List (Bytes × Int)} {choice cumulative : Int}
    (h : cumulative ≤ choice) (hlt : choice < cumulative + (weights.map Prod.snd).sum) :
    ∃ key weight, (key, weight) ∈ weights ∧ firstAbove choice cumulative weights = some key := by
  induction weights generalizing cumulative with
  | nil =>
    rw [List.map_nil, List.sum_nil] at hlt
    omega
  | cons p rest ih =>
    obtain ⟨key, weight⟩ := p
    rw [firstAbove]
    split
    · exact ⟨key, weight, List.mem_cons_self, rfl⟩
    · rename_i hge
      rw [List.map_cons, List.sum_cons] at hlt
      obtain ⟨key', weight', hmem, hfirst⟩ := ih (not_lt.mp hge) (by omega)
      exact ⟨key', weight', List.mem_cons_of_mem _ hmem, hfirst⟩

/-- The stakes that are drawn from. -/
def Draw.weights (d : Draw R) : List (Bytes × Int) := d.stakes.pairs.filter fun p => 0 < p.2

theorem mem_weights {d : Draw R} {key : Bytes} {n : Int} :
    (key, n) ∈ d.weights ↔ d.stakes.get? key = some n ∧ 0 < n := by
  rw [Draw.weights, List.mem_filter, Dict.get?_eq_some]
  simp

/-- The stakes that are drawn from, by key. -/
def Draw.sorted (d : Draw R) : List (Bytes × Int) :=
  d.weights.mergeSort fun p q => decide (p.1 ≤ q.1)

/-- What the generator gives for the stakes together. -/
def Draw.choice (d : Draw R) : Int × R.State := R.randrange d.rng (d.weights.map Prod.snd).sum

/-- A draw from stakes of which one is positive falls on a positive one. -/
theorem pickValidator_eq_ok {d : Draw R} (h : ∃ key n, d.stakes.get? key = some n ∧ 0 < n) :
    ∃ key n, pickValidator d = .ok (key, { d with rng := d.choice.2 }) ∧
      firstAbove d.choice.1 0 d.sorted = some key ∧ d.stakes.get? key = some n ∧ 0 < n := by
  obtain ⟨key₀, n₀, hget, hpos⟩ := h
  have hmem := mem_weights.mpr ⟨hget, hpos⟩
  rcases hlast : d.weights.getLast? with _ | last
  · rw [List.getLast?_eq_none_iff.mp hlast] at hmem
    cases hmem
  have htotal : 0 < (d.weights.map Prod.snd).sum := by
    refine List.sum_pos _ ?_ (List.ne_nil_of_mem (List.mem_map_of_mem hmem))
    intro x hx
    obtain ⟨⟨key, n⟩, hn, rfl⟩ := List.mem_map.mp hx
    exact (mem_weights.mp hn).2
  have hperm : d.sorted.Perm d.weights := List.mergeSort_perm _ _
  have hsum : (d.sorted.map Prod.snd).sum = (d.weights.map Prod.snd).sum :=
    (hperm.map Prod.snd).sum_eq
  obtain ⟨key, n, hkey, hfirst⟩ := firstAbove_of_lt (R.nonneg d.rng _ htotal)
    (by rw [hsum, Int.zero_add]; exact R.lt d.rng _ htotal)
  obtain ⟨hn, hnpos⟩ := mem_weights.mp (hperm.mem_iff.mp hkey)
  refine ⟨key, n, ?_, hfirst, hn, hnpos⟩
  have hpick : pickValidator d =
      .ok ((firstAbove d.choice.1 0 d.sorted).getD last.1, { d with rng := d.choice.2 }) := by
    rw [Draw.weights] at hlast
    simp only [pickValidator, hlast]
    rfl
  have hsame : firstAbove d.choice.1 0 d.sorted = some key := hfirst
  rw [hpick, hsame, Option.getD_some]

end Picks

section Loans

variable {c : Ctx} {l : Ledger}

/-- A payment that this loan takes out of what is available. -/
def TreasuryLoanRecord.Takes (loan : TreasuryLoanRecord) (available : Int) : Prop :=
  0 < loan.paymentAmount ∧ loan.paymentAmount ≤ available

/-- A pass over loans that take nothing pays nothing. -/
theorem payPass_of_spared {ordered : List (Bytes × TreasuryLoanRecord)} {p : LoanPass}
    (h : ∀ e ∈ ordered, ¬e.2.Takes p.available) :
    ∃ next, payPass ordered p l = (.ok (some { p with nextPass := next }), l) := by
  induction ordered generalizing p with
  | nil => exact ⟨p.nextPass, rfl⟩
  | cons e rest ih =>
    obtain ⟨loanId, loan⟩ := e
    have hrest : ∀ e ∈ rest, ¬e.2.Takes p.available := fun e he => h e (List.mem_cons_of_mem _ he)
    rw [payPass]
    by_cases hpayment : loan.paymentAmount ≤ 0
    · rw [if_pos hpayment]
      exact ih hrest
    · have hshort : p.available < loan.paymentAmount := by
        by_contra hcon
        exact h _ List.mem_cons_self ⟨not_le.mp hpayment, not_lt.mp hcon⟩
      rw [if_neg hpayment, if_pos hshort]
      exact ih (p := { p with nextPass := p.nextPass ++ [(loanId, loan)] }) hrest

/-- A pass over loans of which one takes a payment does not get through. -/
theorem payPass_of_taken {ordered : List (Bytes × TreasuryLoanRecord)} {p : LoanPass}
    (h : ∃ e ∈ ordered, e.2.Takes p.available) :
    payPass ordered p l = (.error .typeError, l) ∨ payPass ordered p l = (.ok none, l) := by
  induction ordered generalizing p with
  | nil =>
    obtain ⟨e, he, -⟩ := h
    cases he
  | cons e rest ih =>
    obtain ⟨loanId, loan⟩ := e
    obtain ⟨e, he, htakes⟩ := h
    rw [payPass]
    by_cases hpayment : loan.paymentAmount ≤ 0
    · rw [if_pos hpayment]
      refine ih ⟨e, ?_, htakes⟩
      rcases List.mem_cons.mp he with rfl | he
      · exact absurd htakes.1 (not_lt.mpr hpayment)
      · exact he
    by_cases hshort : p.available < loan.paymentAmount
    · rw [if_neg hpayment, if_pos hshort]
      refine ih ⟨e, ?_, htakes⟩
      rcases List.mem_cons.mp he with rfl | he
      · exact absurd htakes.2 (not_le.mpr hshort)
      · exact he
    rw [if_neg hpayment, if_neg hshort]
    by_cases hbalance : p.record.balance - loan.paymentAmount < 0
    · exact .inr (by rw [if_pos hbalance]; rfl)
    · exact .inl (by rw [if_neg hbalance]; rfl)

variable (c) in
/-- The loans under a root are read, and none of them takes a payment out of what is returned. -/
def SparesLoans (root : Pointer) (returned : Int) : Prop :=
  ∃ active, activeLoans c root = .ok active ∧ ∀ e ∈ active, ¬e.2.2.Takes returned

theorem mem_orderedLoans {active : List (Int × Bytes × TreasuryLoanRecord)}
    {e : Bytes × TreasuryLoanRecord} : e ∈ orderedLoans active ↔ ∃ next, (next, e) ∈ active := by
  rw [orderedLoans, List.mem_map]
  constructor
  · rintro ⟨⟨next, e⟩, he, rfl⟩
    exact ⟨next, List.mem_mergeSort.mp he⟩
  · rintro ⟨next, he⟩
    exact ⟨(next, e), List.mem_mergeSort.mpr he, rfl⟩

theorem getAccount_of_cached {a : Bytes} {account : Account} (h : l.cache.get? a = some account) :
    getAccount c a l = (.ok (some account), l) := by
  simp only [getAccount, h]

theorem payPasses_of_spared {ordered : List (Bytes × TreasuryLoanRecord)} {p : LoanPass} (n : Nat)
    (h : ∀ e ∈ ordered, ¬e.2.Takes p.available) :
    ∃ p', p'.applied = p.applied ∧ payPasses (n + 1) ordered p l = (.ok (some p'), l) := by
  rw [payPasses]
  split
  · exact ⟨p, rfl, rfl⟩
  · obtain ⟨next, hpass⟩ := payPass_of_spared (l := l)
      (p := { p with appliedThisPass := false, nextPass := [] }) h
    refine ⟨_, ?_, (bind_of_ok hpass _).trans rfl⟩
    rfl

theorem payPasses_of_taken {ordered : List (Bytes × TreasuryLoanRecord)} {p : LoanPass} (n : Nat)
    (h : ∃ e ∈ ordered, e.2.Takes p.available) :
    payPasses (n + 1) ordered p l = (.error .typeError, l) ∨
      payPasses (n + 1) ordered p l = (.ok none, l) := by
  have hgoes : ¬(p.available ≤ 0 ∨ ordered = []) := by
    obtain ⟨e, he, hpositive, hle⟩ := h
    rintro (hnone | rfl)
    · omega
    · cases he
  rw [payPasses, if_neg hgoes]
  rcases payPass_of_taken (l := l) (p := { p with appliedThisPass := false, nextPass := [] }) h with
    hpass | hpass
  · exact .inl (bind_of_error hpass _)
  · exact .inr ((bind_of_ok hpass _).trans rfl)

theorem payLoans_of_spared {record : TreasuryUserRecord} {amount : Int}
    (h : SparesLoans c record.loansRoot amount) : payLoans c record amount l = (.ok true, l) := by
  obtain ⟨active, hactive, hspared⟩ := h
  have hordered : ∀ e ∈ orderedLoans active, ¬e.2.Takes amount := by
    intro e he
    obtain ⟨next, hnext⟩ := mem_orderedLoans.mp he
    exact hspared _ hnext
  obtain ⟨p, happlied, hpasses⟩ := payPasses_of_spared (l := l)
    (p := ⟨record, amount, 0, false, []⟩) amount.toNat hordered
  have hread : (Eff.ofExcept (activeLoans c record.loansRoot) :
      Stateful Ledger (List (Int × Bytes × TreasuryLoanRecord))) l = (.ok active, l) := by
    rw [hactive]
    rfl
  rw [payLoans, bind_of_ok hread, bind_of_ok hpasses]
  have hzero : p.applied = 0 := happlied
  simp only [hzero, Eff.when, ne_eq, not_true_eq_false, if_false]
  rfl

theorem sparesLoans_of_payLoans {record : TreasuryUserRecord} {amount : Int} {l' : Ledger}
    (h : payLoans c record amount l = (.ok true, l')) : SparesLoans c record.loansRoot amount := by
  obtain ⟨active, l₁, h₁, h₂⟩ := bind_eq_ok.mp h
  obtain ⟨hactive, rfl⟩ := Prod.mk.inj h₁
  refine ⟨active, hactive, fun e he htakes => ?_⟩
  have htaken : ∃ e ∈ orderedLoans active, e.2.Takes amount :=
    ⟨e.2, mem_orderedLoans.mpr ⟨e.1, he⟩, htakes⟩
  rcases payPasses_of_taken (l := l) (p := ⟨record, amount, 0, false, []⟩) amount.toNat htaken with
    hpasses | hpasses
  · rw [bind_of_error hpasses] at h₂
    cases h₂
  · rw [bind_of_ok hpasses] at h₂
    cases h₂

/-- What is left of an application of returned stake once its early exits are passed. -/
theorem applyStakeReturn_eq {account : Account} {borrower : Bytes} {record : TreasuryUserRecord}
    {amount : Int} (hamount : 0 < amount)
    (haccount : l.cache.get? treasuryAddress = some account)
    (hrecord : loadUserRecord c.node account.data borrower = .ok (some record))
    (hbalance : amount ≤ record.balance) (hroot : record.loansRoot.id ≠ zero32) :
    applyTreasuryLoanPaymentsFromStakeReturn c borrower amount l = payLoans c record amount l := by
  rw [applyTreasuryLoanPaymentsFromStakeReturn, if_neg (not_le.mpr hamount),
    bind_of_ok (getAccount_of_cached haccount)]
  simp only [Option.isNone_some, Bool.false_eq_true, if_false]
  rw [bind_of_ok (held_eq_ok.mpr ⟨haccount, rfl⟩), hrecord]
  change (if record.balance < amount then _ else _ : Stateful Ledger Bool) l = _
  rw [if_neg (not_lt.mpr hbalance), if_neg hroot]

end Loans

section Halving

variable {R : Random} {c : Ctx} {l l' : Ledger}

/-- The treasury is held, with this tree in it. -/
def Ledger.TreasuryTree (l : Ledger) (tree : Tree) : Prop :=
  ∃ account, l.cache.get? treasuryAddress = some account ∧ account.data = tree

/-- Walks over a user record end within the fuel, whatever its stake. -/
def Node.Walks (node : Node) (record : TreasuryUserRecord) : Prop :=
  ∀ balance, ∃ r, resolveInnerExprs node { record with balance := balance }.expr = .ok r

theorem treasuryTree_addBalance {a : Bytes} {n : Int} {tree : Tree} (h : l.TreasuryTree tree)
    (hrun : addBalance a n l = (.ok (), l')) : l'.TreasuryTree tree := by
  obtain ⟨treasury, htreasury, rfl⟩ := h
  obtain ⟨account, haccount, rfl⟩ := mutate_eq_ok.mp hrun
  by_cases ha : a = treasuryAddress
  · subst ha
    obtain rfl := Option.some.inj (htreasury.symm.trans haccount)
    exact ⟨_, Dict.get?_insert_self _ _ _, rfl⟩
  · exact ⟨treasury, (Dict.get?_insert_of_ne _ _ ha).trans htreasury, rfl⟩

/-- A record whose user is in the tree is written. -/
theorem putUserRecord_of_held {tree : Tree} (h : l.TreasuryTree tree) {user : Bytes}
    (huser : (tree.get? user).isSome) (record : TreasuryUserRecord) :
    ∃ l', putUserRecord user record l = (.ok (), l') ∧
      l'.TreasuryTree (tree.insert user (.hashOf record.expr)) := by
  obtain ⟨treasury, htreasury, rfl⟩ := h
  have hends : endsInsideNode treasury.data user = false := by
    rw [endsInsideNode, Option.isNone_eq_false_iff.mpr huser]
    rfl
  have hput : (Eff.ofExcept (putInRadixTree treasury.data user (.hashOf record.expr)) :
      Stateful Ledger Tree) l = (.ok (treasury.data.insert user (.hashOf record.expr)), l) := by
    rw [putInRadixTree, hends]
    rfl
  let updated := { treasury with data := treasury.data.insert user (.hashOf record.expr) }
  refine ⟨{ l with cache := l.cache.insert treasuryAddress updated }, ?_, updated,
    Dict.get?_insert_self _ _ _, rfl⟩
  rw [putUserRecord, bind_of_ok (held_eq_ok.mpr ⟨htreasury, rfl⟩), bind_of_ok hput]
  exact mutate_eq_ok.mpr ⟨treasury, htreasury, rfl⟩

/-- An account that is missing is made, without a balance. -/
theorem openAccount_of_held {tree : Tree} (h : l.TreasuryTree tree) (key : Bytes) :
    ∃ l' account, openAccount c key l = (.ok (), l') ∧ l'.cache.get? key = some account ∧
      l'.TreasuryTree tree ∧ l'.userAt c = l.userAt c ∧ balanceAt c l' = balanceAt c l := by
  obtain ⟨treasury, htreasury, rfl⟩ := h
  have hget := eq_of_fst (getAccount_fst c l key)
  obtain ⟨-, hread, hcached⟩ := getAccount_eq_ok hget
  have hview : (getAccount c key l).2.account c = l.account c := funext hread.account
  rcases haccount : l.account c key with _ | account
  · have hne : key ≠ treasuryAddress := by
      rintro rfl
      rw [Ledger.account_of_cached htreasury] at haccount
      cases haccount
    rw [haccount] at hget
    let l₁ := (getAccount c key l).2
    have hinsert : ∀ a, ({ l₁ with
        cache := l₁.cache.insert key (createAccount 0 zero32)
        involved := l₁.involved.insert key } : Ledger).account c a =
          if key = a then some (createAccount 0 zero32) else l.account c a := fun a => by
      rw [← hview]
      exact Ledger.account_insert c l₁ key a (createAccount 0 zero32)
    refine ⟨_, createAccount 0 zero32, (bind_of_ok hget _).trans rfl,
      Dict.get?_insert_self _ _ _, ⟨treasury, ?_, rfl⟩, userAt_of_account ?_, funext fun a => ?_⟩
    · exact (Dict.get?_insert_of_ne _ _ hne).trans (hread.cached _ _ htreasury)
    · rw [hinsert, if_neg hne]
    · rw [balanceAt, hinsert, balanceAt]
      by_cases ha : key = a
      · subst ha
        simp [createAccount, haccount]
      · simp [ha]
  · rw [haccount] at hget hcached
    exact ⟨_, account, (bind_of_ok hget _).trans rfl, hcached,
      ⟨treasury, hread.cached _ _ htreasury, rfl⟩, userAt_of_account (by rw [hview]),
      balanceAt_of_account hview⟩

theorem payValidator_of_held {tree : Tree} (h : l.TreasuryTree tree) (key : Bytes) (n : Int) :
    ∃ l', payValidator c key n l = (.ok (), l') ∧ l'.TreasuryTree tree ∧
      l'.userAt c = l.userAt c ∧
      ∀ a, balanceAt c l' a = balanceAt c l a + if a = key then n else 0 := by
  obtain ⟨l₁, account, hopen, hcached, htree, husers, hbalances⟩ := openAccount_of_held (c := c) h key
  have hadd : addBalance key n l₁ = (.ok (),
      { l₁ with cache := l₁.cache.insert key { account with balance := account.balance + n } }) :=
    mutate_eq_ok.mpr ⟨account, hcached, rfl⟩
  obtain ⟨treasury, htreasury, hdata⟩ := treasuryTree_addBalance htree hadd
  refine ⟨_, (bind_of_ok hopen _).trans ((bind_of_ok hadd _).trans rfl), ⟨treasury, htreasury, hdata⟩,
    ?_, fun a => ?_⟩
  · exact ((users_addBalance (c := c) key n).of_ok hadd).trans husers
  · rw [← hbalances]
    exact balanceAt_addBalance hadd a

variable {d d' : Draw R} {key : Bytes}

variable (c) in
/-- What the draw knows of the stakes is what the treasury holds, and one of them is positive. -/
structure Drawing (d : Draw R) (l : Ledger) (tree : Tree) : Prop where
  held : l.TreasuryTree tree
  listed : ∀ key record, d.records.get? key = some record → (tree.get? key).isSome
  loads : ∀ key record, d.records.get? key = some record → record.loansRoot.id ≠ zero32 →
    loadUserRecord c.node tree key = .ok (some record)
  stakes : ∀ key n, d.stakes.get? key = some n →
    ∃ record, d.records.get? key = some record ∧ record.balance = n
  positive : ∃ key n, d.stakes.get? key = some n ∧ 0 < n
  walks : ∀ key record, d.records.get? key = some record → c.node.Walks record

variable (c) in
/-- What halving the stake of a drawn validator comes to. -/
structure StakeReturned (key : Bytes) (d : Draw R) (l : Ledger) (d' : Draw R) (l' : Ledger)
    (record : TreasuryUserRecord) (returned : Int) : Prop where
  recorded : d.records.get? key = some record
  stake : d.stakes.get? key = some record.balance
  nonneg : 0 ≤ returned
  halved : record.loansRoot.id = zero32 → record.balance - returned = halvedStake record.balance
  stake' : d'.stakes.get? key = some (record.balance - returned)
  staked : 1 ≤ record.balance - returned
  user : (returned = 0 ∧ l'.userAt c key = l.userAt c key) ∨
    l'.userAt c key = some (.hashOf { record with balance := record.balance - returned }.expr)
  stakes : ∀ k, k ≠ key → d'.stakes.get? k = d.stakes.get? k
  users : ∀ k, k ≠ key → l'.userAt c k = l.userAt c k
  balances : ∀ a, balanceAt c l' a + (if a = treasuryAddress then returned else 0) =
    balanceAt c l a + if a = key then returned else 0

variable (c) in
/-- The loans of a drawn validator take nothing of the half of its stake. -/
def SparesHalf (d : Draw R) (key : Bytes) : Prop :=
  ∀ record, d.records.get? key = some record →
    0 < record.balance - halvedStake record.balance → record.loansRoot.id ≠ zero32 →
    SparesLoans c record.loansRoot (record.balance - halvedStake record.balance)

theorem halvedStake_pos (n : Int) : 1 ≤ halvedStake n := le_max_left _ _

theorem halvedStake_le {n : Int} (h : 0 < n) : halvedStake n ≤ n := by
  rw [halvedStake, Python.floorDiv, Int.fdiv_eq_ediv_of_nonneg _ (by decide)]
  omega

/-- The half of a stake without loans is paid out. -/
theorem returnStake_of_held {tree : Tree} (h : Drawing c d l tree)
    {record : TreasuryUserRecord} (hrecord : d.records.get? key = some record)
    (newAmount returned : Int) :
    ∃ l', returnStake c key record newAmount returned d l =
        (.ok (d.put key { record with balance := newAmount }), l') ∧
      l'.TreasuryTree (tree.insert key (.hashOf { record with balance := newAmount }.expr)) ∧
      (∀ u, l'.userAt c u = if u = key then
        some (.hashOf { record with balance := newAmount }.expr) else l.userAt c u) ∧
      ∀ a, balanceAt c l' a + (if a = treasuryAddress then returned else 0) =
        balanceAt c l a + if a = key then returned else 0 := by
  let updated := { record with balance := newAmount }
  obtain ⟨l₁, hput, htree⟩ := putUserRecord_of_held h.held (h.listed key record hrecord) updated
  obtain ⟨walk, hwalk⟩ := h.walks key record hrecord newAmount
  have hinner : innerExprs c updated.expr l₁ = (.ok walk.1, l₁) := by
    have hread : (Eff.ofExcept (resolveInnerExprs c.node updated.expr) :
        Stateful Ledger (List Expr × List Bytes)) l₁ = (.ok walk, l₁) := by
      rw [hwalk]
      rfl
    rw [innerExprs, bind_of_ok hread]
    rfl
  let l₂ : Ledger := { l₁ with pendingExprs := l₁.pendingExprs ++ walk.1 }
  have htree₂ : l₂.TreasuryTree (tree.insert key (.hashOf updated.expr)) := htree
  obtain ⟨treasury, htreasury, hdata⟩ := htree₂
  have hdebit : addBalance treasuryAddress (-returned) l₂ = (.ok (), { l₂ with
      cache := l₂.cache.insert treasuryAddress
        { treasury with balance := treasury.balance + -returned } }) :=
    mutate_eq_ok.mpr ⟨treasury, htreasury, rfl⟩
  have htree₃ := treasuryTree_addBalance ⟨treasury, htreasury, hdata⟩ hdebit
  obtain ⟨l₄, hpay, htree₄, husers, hbalances⟩ := payValidator_of_held (c := c) htree₃ key returned
  refine ⟨l₄, ?_, htree₄, fun u => ?_, fun a => ?_⟩
  · rw [returnStake, bind_of_ok hput, bind_of_ok hinner]
    exact (bind_of_ok (show extendPendingExprs walk.1 l₁ = (.ok (), l₂) from rfl) _).trans
      ((bind_of_ok hdebit _).trans ((bind_of_ok hpay _).trans rfl))
  · have hwrite := writesUser_putUserRecord (c := c) hput u
    rw [husers, (users_addBalance (c := c) _ _).of_ok hdebit]
    exact hwrite
  · have hdebited := balanceAt_addBalance (c := c) hdebit a
    have hwritten := balanceAt_putUserRecord (c := c) hput
    have hpended : balanceAt c l₂ a = balanceAt c l₁ a := rfl
    rw [hbalances, hdebited, hpended, hwritten]
    split <;> omega

/-- The draw goes on from the stake that is left. -/
theorem Drawing.put {tree tree' : Tree} (h : Drawing c d l tree) {record : TreasuryUserRecord}
    (hheld : l'.TreasuryTree tree') (hkey : (tree'.get? key).isSome)
    (hothers : ∀ k, k ≠ key → tree'.get? k = tree.get? k)
    (hloads : record.loansRoot.id ≠ zero32 →
      loadUserRecord c.node tree' key = .ok (some record))
    (hpos : 0 < record.balance) (hwalks : c.node.Walks record) :
    Drawing c (d.put key record) l' tree' := by
  have hsame : ∀ k, k ≠ key → loadUserRecord c.node tree' k = loadUserRecord c.node tree k := by
    intro k hk
    rw [loadUserRecord, loadUserRecord, getFromRadixTree, getFromRadixTree, hothers k hk]
  refine ⟨hheld, fun k r hr => ?_, fun k r hr hroot => ?_, fun k n hn => ?_, ?_, fun k r hr => ?_⟩
  · rw [Draw.put, Dict.get?_insert] at hr
    by_cases hk : key = k
    · exact hk ▸ hkey
    · rw [hothers k (Ne.symm hk)]
      exact h.listed k r (by rwa [if_neg hk] at hr)
  · rw [Draw.put, Dict.get?_insert] at hr
    by_cases hk : key = k
    · rw [if_pos hk] at hr
      obtain rfl := Option.some.inj hr
      exact hk ▸ hloads hroot
    · rw [hsame k (Ne.symm hk)]
      exact h.loads k r (by rwa [if_neg hk] at hr) hroot
  · rw [Draw.put, Dict.get?_insert] at hn
    rw [Draw.put, Dict.get?_insert]
    by_cases hk : key = k
    · rw [if_pos hk] at hn ⊢
      exact ⟨record, rfl, Option.some.inj hn⟩
    · rw [if_neg hk] at hn ⊢
      exact h.stakes k n hn
  · exact ⟨key, record.balance, Dict.get?_insert_self _ _ _, hpos⟩
  · rw [Draw.put, Dict.get?_insert] at hr
    by_cases hk : key = k
    · rw [if_pos hk] at hr
      obtain rfl := Option.some.inj hr
      exact hwalks
    · exact h.walks k r (by rwa [if_neg hk] at hr)

/-- Halving a stake that has a half to return. -/
theorem halveStake_eq {record : TreasuryUserRecord} (hrecord : d.records.get? key = some record)
    (hn : d.stakes.get? key = some record.balance) (hpos : 0 < record.balance)
    (hhalf : 0 < record.balance - halvedStake record.balance) :
    halveStake c key d l = ((if record.loansRoot.id = zero32 then
        returnStake c key record (halvedStake record.balance)
          (record.balance - halvedStake record.balance) d
      else returnStakeToLoans c key (record.balance - halvedStake record.balance) d) >>= fun d => do
        involve treasuryAddress
        return d : Stateful Ledger (Draw R)) l := by
  have hcurrent : ¬(d.stakes.get? key).getD 0 ≤ 0 := by
    rw [hn, Option.getD_some]
    exact not_le.mpr hpos
  rw [halveStake]
  simp only [if_neg hcurrent]
  rw [hn, Option.getD_some, if_neg (not_le.mpr hhalf)]
  simp only [hrecord]

/-- A stake of 1 stays. -/
theorem halveStake_of_one {record : TreasuryUserRecord}
    (hn : d.stakes.get? key = some record.balance) (hpos : 0 < record.balance)
    (hhalf : record.balance - halvedStake record.balance ≤ 0) :
    halveStake c key d l = (.ok d, l) := by
  have hcurrent : ¬(d.stakes.get? key).getD 0 ≤ 0 := by
    rw [hn, Option.getD_some]
    exact not_le.mpr hpos
  rw [halveStake]
  simp only [if_neg hcurrent]
  rw [hn, Option.getD_some, if_pos hhalf]
  rfl

theorem returnStakeToLoans_of_spared {tree : Tree} (h : Drawing c d l tree)
    {record : TreasuryUserRecord} (hrecord : d.records.get? key = some record) {returned : Int}
    (hreturned : 0 < returned) (hle : returned ≤ record.balance)
    (hroot : record.loansRoot.id ≠ zero32) (hspares : SparesLoans c record.loansRoot returned) :
    returnStakeToLoans c key returned d l = (.ok (d.put key record), l) := by
  obtain ⟨treasury, htreasury, rfl⟩ := h.held
  have hloads := h.loads key record hrecord hroot
  have hpaid := (applyStakeReturn_eq hreturned htreasury hloads hle hroot).trans
    (payLoans_of_spared hspares)
  rw [returnStakeToLoans, bind_of_ok hpaid]
  simp only [Bool.not_true, Bool.false_eq_true, if_false]
  rw [bind_of_ok (held_eq_ok.mpr ⟨htreasury, rfl⟩), hloads]
  rfl

theorem sparesLoans_of_returnStakeToLoans {tree : Tree} (h : Drawing c d l tree)
    {record : TreasuryUserRecord} (hrecord : d.records.get? key = some record) {returned : Int}
    (hreturned : 0 < returned) (hle : returned ≤ record.balance)
    (hroot : record.loansRoot.id ≠ zero32)
    (hrun : returnStakeToLoans c key returned d l = (.ok d', l')) :
    SparesLoans c record.loansRoot returned := by
  obtain ⟨treasury, htreasury, rfl⟩ := h.held
  have hloads := h.loads key record hrecord hroot
  obtain ⟨paid, l₁, h₁, h₂⟩ := bind_eq_ok.mp hrun
  rw [applyStakeReturn_eq hreturned htreasury hloads hle hroot] at h₁
  cases paid with
  | false => cases h₂
  | true => exact sparesLoans_of_payLoans h₁

/-- A stake that is drawn is halved where the loans of its record leave the half alone. -/
theorem halveStake_of_spared {tree : Tree}
    (h : Drawing c d l tree) {n : Int} (hn : d.stakes.get? key = some n) (hpos : 0 < n)
    (hspares : SparesHalf c d key) :
    ∃ d' l' record returned tree', halveStake c key d l = (.ok d', l') ∧
      StakeReturned c key d l d' l' record returned ∧ Drawing c d' l' tree' := by
  obtain ⟨record, hrecord, rfl⟩ := h.stakes key n hn
  have hone := halvedStake_pos record.balance
  have hle := halvedStake_le hpos
  by_cases hhalf : record.balance - halvedStake record.balance ≤ 0
  · refine ⟨d, l, record, 0, tree, halveStake_of_one hn hpos hhalf, ⟨hrecord, hn, le_rfl,
      fun _ => ?_, ?_, ?_, .inl ⟨rfl, rfl⟩, fun _ _ => rfl, fun _ _ => rfl, fun a => ?_⟩, h⟩
    · omega
    · rw [hn, Int.sub_zero]
    · omega
    · simp
  have hreturned := not_le.mp hhalf
  by_cases hroot : record.loansRoot.id = zero32
  · let updated := { record with balance := halvedStake record.balance }
    obtain ⟨l₁, hreturn, htree, husers, hbalances⟩ := returnStake_of_held h hrecord
      (halvedStake record.balance) (record.balance - halvedStake record.balance)
    have hsub : record.balance - (record.balance - halvedStake record.balance) =
        halvedStake record.balance := by omega
    have hrun : halveStake c key d l = (.ok (d.put key updated),
        { l₁ with involved := l₁.involved.insert treasuryAddress }) := by
      rw [halveStake_eq hrecord hn hpos hreturned, if_pos hroot, bind_of_ok hreturn]
      rfl
    refine ⟨_, _, record, record.balance - halvedStake record.balance,
      tree.insert key (.hashOf updated.expr), hrun, ⟨hrecord, hn, hreturned.le, fun _ => hsub, ?_, ?_,
      .inr ?_, ?_, ?_, hbalances⟩, ?_⟩
    · rw [hsub]
      exact Dict.get?_insert_self _ _ _
    · rw [hsub]
      exact hone
    · rw [hsub]
      exact (husers key).trans (if_pos rfl)
    · exact fun k hk => Dict.get?_insert_of_ne _ _ (Ne.symm hk)
    · exact fun k hk => (husers k).trans (if_neg hk)
    · refine h.put htree ?_ (fun k hk => Dict.get?_insert_of_ne _ _ (Ne.symm hk)) ?_ hone
        (h.walks key record hrecord)
      · rw [Dict.get?_insert_self]
        rfl
      · exact fun hcon => absurd hroot hcon
  · have hreturn := returnStakeToLoans_of_spared h hrecord hreturned (by omega) hroot
      (hspares record hrecord hreturned hroot)
    have hrun : halveStake c key d l = (.ok (d.put key record),
        { l with involved := l.involved.insert treasuryAddress }) := by
      rw [halveStake_eq hrecord hn hpos hreturned, if_neg hroot, bind_of_ok hreturn]
      rfl
    refine ⟨_, _, record, 0, tree, hrun, ⟨hrecord, hn, le_rfl, fun hcon => absurd hcon hroot, ?_, ?_,
      .inl ⟨rfl, rfl⟩, ?_, fun _ _ => rfl, fun a => ?_⟩, ?_⟩
    · rw [Int.sub_zero]
      exact Dict.get?_insert_self _ _ _
    · omega
    · exact fun k hk => Dict.get?_insert_of_ne _ _ (Ne.symm hk)
    · rw [ite_self, ite_self]
      rfl
    · exact h.put h.held (h.listed key record hrecord) (fun _ _ => rfl)
        (h.loads key record hrecord) hpos (h.walks key record hrecord)

theorem sparesHalf_of_halveStake {tree : Tree} (h : Drawing c d l tree) {n : Int}
    (hn : d.stakes.get? key = some n) (hpos : 0 < n)
    (hrun : halveStake c key d l = (.ok d', l')) : SparesHalf c d key := by
  intro record hrecord hhalf hroot
  obtain ⟨record', hrecord', rfl⟩ := h.stakes key n hn
  obtain rfl := Option.some.inj (hrecord.symm.trans hrecord')
  have hone := halvedStake_pos record.balance
  rw [halveStake_eq hrecord hn hpos hhalf, if_neg hroot] at hrun
  obtain ⟨d₁, l₁, h₁, -⟩ := bind_eq_ok.mp hrun
  exact sparesLoans_of_returnStakeToLoans h hrecord hhalf (by omega) hroot h₁

end Halving

section Slots

variable {R : Random} {c : Ctx} {l l' : Ledger} {d d' : Draw R} {key : Bytes}

variable (c) in
/-- The validators that are drawn in the first slot and `n` more have no loans that take a payment
out of the half of their stake. -/
def SparesHalves : Nat → Draw R → Ledger → Prop
  | 0, d, _ => ∀ key d₁, pickValidator d = .ok (key, d₁) → SparesHalf c d₁ key
  | n + 1, d, l => ∀ key d₁, pickValidator d = .ok (key, d₁) → SparesHalf c d₁ key ∧
      ∀ d₂ l₂, halveStake c key d₁ l = (.ok d₂, l₂) → SparesHalves n d₂ l₂

variable (c) in
/-- The first slot and `n` more, each of which returns half of the stake of the validator drawn. -/
inductive SlotsReturned : Nat → Draw R → Ledger → Bytes → Draw R → Ledger → Prop
  | last {d d₁ d₂ : Draw R} {l l₂ : Ledger} {key : Bytes} {record : TreasuryUserRecord}
      {returned : Int} (hpick : pickValidator d = .ok (key, d₁))
      (hreturn : StakeReturned c key d₁ l d₂ l₂ record returned) : SlotsReturned 0 d l key d₂ l₂
  | more {n : Nat} {d d₁ d₂ d₃ : Draw R} {l l₂ l₃ : Ledger} {key key' : Bytes}
      {record : TreasuryUserRecord} {returned : Int} (hpick : pickValidator d = .ok (key, d₁))
      (hreturn : StakeReturned c key d₁ l d₂ l₂ record returned)
      (hrest : SlotsReturned n d₂ l₂ key' d₃ l₃) : SlotsReturned (n + 1) d l key' d₃ l₃

/-- A draw of the generator changes no stake. -/
theorem Drawing.pick {tree : Tree} (h : Drawing c d l tree) :
    ∃ key n d₁, pickValidator d = .ok (key, d₁) ∧ d₁.stakes.get? key = some n ∧ 0 < n ∧
      Drawing c d₁ l tree := by
  obtain ⟨key, n, hpick, -, hn, hpos⟩ := pickValidator_eq_ok h.positive
  exact ⟨key, n, { d with rng := d.choice.2 }, hpick, hn, hpos,
    ⟨h.held, h.listed, h.loads, h.stakes, h.positive, h.walks⟩⟩

theorem drawSlot_eq (hpick : pickValidator d = .ok (key, d')) :
    drawSlot c d l = (halveStake c key d' >>= fun d => pure (key, d)) l := by
  have hread : (Eff.ofExcept (pickValidator d) : Stateful Ledger (Bytes × Draw R)) l =
      (.ok (key, d'), l) := by
    rw [hpick]
    rfl
  rw [drawSlot, bind_of_ok hread]

theorem drawSlots_of_spared {tree : Tree} {n : Nat}
    (h : Drawing c d l tree) (hspares : SparesHalves c n d l) :
    ∃ key d' l', drawSlots c n d l = (.ok (key, d'), l') ∧ SlotsReturned c n d l key d' l' := by
  induction n generalizing d l tree with
  | zero =>
    obtain ⟨key, m, d₁, hpick, hm, hpos, h₁⟩ := h.pick
    obtain ⟨d₂, l₂, record, returned, tree', hrun, hreturned, -⟩ :=
      halveStake_of_spared h₁ hm hpos (hspares key d₁ hpick)
    refine ⟨key, d₂, l₂, ?_, .last hpick hreturned⟩
    rw [drawSlots, drawSlot_eq hpick, bind_of_ok hrun]
    rfl
  | succ n ih =>
    obtain ⟨key, m, d₁, hpick, hm, hpos, h₁⟩ := h.pick
    obtain ⟨hhalf, hrest⟩ := hspares key d₁ hpick
    obtain ⟨d₂, l₂, record, returned, tree', hrun, hreturned, h₂⟩ :=
      halveStake_of_spared h₁ hm hpos hhalf
    obtain ⟨key', d₃, l₃, hslots, hdrawn⟩ := ih h₂ (hrest d₂ l₂ hrun)
    refine ⟨key', d₃, l₃, ?_, .more hpick hreturned hdrawn⟩
    have hslot : drawSlot c d l = (.ok (key, d₂), l₂) := by
      rw [drawSlot_eq hpick, bind_of_ok hrun]
      rfl
    rw [drawSlots, bind_of_ok hslot]
    exact hslots

/-- What a slot that goes through has gone through. -/
theorem Drawing.slot {tree : Tree} (h : Drawing c d l tree)
    (hrun : drawSlot c d l = (.ok (key, d'), l')) :
    ∃ d₁, pickValidator d = .ok (key, d₁) ∧ SparesHalf c d₁ key ∧
      halveStake c key d₁ l = (.ok d', l') ∧ ∃ tree', Drawing c d' l' tree' := by
  obtain ⟨key₁, n, d₁, hpick, hn, hpos, h₁⟩ := h.pick
  rw [drawSlot_eq hpick] at hrun
  obtain ⟨d₂, l₂, hhalve, hpure⟩ := bind_eq_ok.mp hrun
  obtain ⟨hkey, rfl⟩ := Prod.mk.inj hpure
  obtain ⟨rfl, rfl⟩ := Prod.mk.inj (Except.ok.inj hkey)
  have hhalf := sparesHalf_of_halveStake h₁ hn hpos hhalve
  obtain ⟨d₃, l₃, record, returned, tree', hrun', -, h₂⟩ :=
    halveStake_of_spared h₁ hn hpos hhalf
  obtain ⟨hd, rfl⟩ := Prod.mk.inj (hhalve.symm.trans hrun')
  obtain rfl := Except.ok.inj hd
  exact ⟨d₁, hpick, hhalf, hhalve, tree', h₂⟩

theorem sparesHalves_of_drawSlots {tree : Tree} {n : Nat}
    (h : Drawing c d l tree) (hrun : drawSlots c n d l = (.ok (key, d'), l')) :
    SparesHalves c n d l := by
  induction n generalizing d l tree with
  | zero =>
    intro key₁ d₁ hpick
    obtain ⟨d₂, hpick₂, hhalf, -⟩ := h.slot hrun
    obtain ⟨rfl, rfl⟩ := Prod.mk.inj (Except.ok.inj (hpick₂.symm.trans hpick))
    exact hhalf
  | succ n ih =>
    intro key₁ d₁ hpick
    obtain ⟨⟨key₂, d₂⟩, l₂, hslot, hslots⟩ := bind_eq_ok.mp hrun
    obtain ⟨d₃, hpick₃, hhalf, hhalve, tree', h₂⟩ := h.slot hslot
    obtain ⟨rfl, rfl⟩ := Prod.mk.inj (Except.ok.inj (hpick₃.symm.trans hpick))
    refine ⟨hhalf, fun d₄ l₄ hhalve' => ?_⟩
    obtain ⟨hd, rfl⟩ := Prod.mk.inj (hhalve.symm.trans hhalve')
    obtain rfl := Except.ok.inj hd
    exact ih h₂ hslots

end Slots

section Orders

variable {R : Random} {c : Ctx} {l l' : Ledger} {d d' d₁ : Draw R} {key : Bytes}

/-- The same stakes, records and generator, whatever order they are kept in. -/
structure Draw.Same (d d' : Draw R) : Prop where
  stakes : ∀ key, d'.stakes.get? key = d.stakes.get? key
  records : ∀ key, d'.records.get? key = d.records.get? key
  rng : d'.rng = d.rng

theorem Draw.Same.put (h : d.Same d') (record : TreasuryUserRecord) :
    (d.put key record).Same (d'.put key record) := by
  refine ⟨fun k => ?_, fun k => ?_, h.rng⟩
  · rw [Draw.put, Draw.put, Dict.get?_insert, Dict.get?_insert, h.stakes k]
  · rw [Draw.put, Draw.put, Dict.get?_insert, Dict.get?_insert, h.records k]

theorem nodup_weights (d : Draw R) : d.weights.Nodup :=
  (List.Nodup.of_map Prod.fst d.stakes.nodup).filter _

theorem Draw.Same.perm (h : d.Same d') : d'.weights.Perm d.weights := by
  refine (List.perm_ext_iff_of_nodup (nodup_weights d') (nodup_weights d)).mpr ?_
  rintro ⟨key, n⟩
  rw [mem_weights, mem_weights, h.stakes key]

/-- The stakes that are drawn from come in one order. -/
theorem Draw.Same.sorted (h : d.Same d') : d'.sorted = d.sorted := by
  have htrans : ∀ p q r : Bytes × Int, decide (p.1 ≤ q.1) = true → decide (q.1 ≤ r.1) = true →
      decide (p.1 ≤ r.1) = true := fun p q r hpq hqr =>
    decide_eq_true (List.le_trans (of_decide_eq_true hpq) (of_decide_eq_true hqr))
  have htotal : ∀ p q : Bytes × Int, (decide (p.1 ≤ q.1) || decide (q.1 ≤ p.1)) = true := fun p q => by
    simpa using List.le_total p.1 q.1
  have hperm : d'.sorted.Perm d.sorted :=
    (List.mergeSort_perm _ _).trans (h.perm.trans (List.mergeSort_perm _ _).symm)
  refine List.Perm.eq_of_pairwise ?_ (List.pairwise_mergeSort htrans htotal _)
    (List.pairwise_mergeSort htrans htotal _) hperm
  rintro ⟨key, n⟩ ⟨key', n'⟩ hp hq hle hge
  obtain rfl : key = key' := List.le_antisymm (of_decide_eq_true hle) (of_decide_eq_true hge)
  have hn := (mem_weights.mp ((List.mergeSort_perm _ _).mem_iff.mp hp)).1
  have hn' := (mem_weights.mp ((List.mergeSort_perm _ _).mem_iff.mp hq)).1
  rw [h.stakes key, hn'] at hn
  rw [Option.some.inj hn]

theorem Draw.Same.choice (h : d.Same d') : d'.choice = d.choice := by
  rw [Draw.choice, Draw.choice, h.rng, (h.perm.map Prod.snd).sum_eq]

theorem Draw.Same.pick (h : d.Same d') (hpositive : ∃ key n, d.stakes.get? key = some n ∧ 0 < n)
    (hpick : pickValidator d = .ok (key, d₁)) :
    ∃ d₁', pickValidator d' = .ok (key, d₁') ∧ d₁.Same d₁' := by
  have hpositive' : ∃ key n, d'.stakes.get? key = some n ∧ 0 < n := by
    obtain ⟨k, n, hn, hpos⟩ := hpositive
    exact ⟨k, n, (h.stakes k).trans hn, hpos⟩
  obtain ⟨k, n, hk, hfirst, -, -⟩ := pickValidator_eq_ok hpositive
  obtain ⟨k', n', hk', hfirst', -, -⟩ := pickValidator_eq_ok hpositive'
  obtain ⟨rfl, rfl⟩ := Prod.mk.inj (Except.ok.inj (hk.symm.trans hpick))
  rw [h.choice, h.sorted, hfirst] at hfirst'
  obtain rfl := Option.some.inj hfirst'
  exact ⟨_, hk', ⟨h.stakes, h.records, by rw [h.choice]⟩⟩

/-- A half that is paid out is paid out in the same way whatever the order. -/
theorem returnStake_same {record : TreasuryUserRecord} {newAmount returned : Int}
    (hrun : returnStake c key record newAmount returned d l = (.ok d₁, l')) (d' : Draw R) :
    d₁ = d.put key { record with balance := newAmount } ∧
      returnStake c key record newAmount returned d' l =
        (.ok (d'.put key { record with balance := newAmount }), l') := by
  obtain ⟨_, l₁, h₁, h₂⟩ := bind_eq_ok.mp hrun
  obtain ⟨exprs, l₂, h₃, h₄⟩ := bind_eq_ok.mp h₂
  obtain ⟨_, l₃, h₅, h₆⟩ := bind_eq_ok.mp h₄
  obtain ⟨_, l₄, h₇, h₈⟩ := bind_eq_ok.mp h₆
  obtain ⟨_, l₅, h₉, h₁₀⟩ := bind_eq_ok.mp h₈
  obtain ⟨hd, rfl⟩ := Prod.mk.inj h₁₀
  refine ⟨(Except.ok.inj hd).symm, ?_⟩
  rw [returnStake, bind_of_ok h₁, bind_of_ok h₃, bind_of_ok h₅, bind_of_ok h₇, bind_of_ok h₉]
  rfl

theorem returnStakeToLoans_same {returned : Int}
    (hrun : returnStakeToLoans c key returned d l = (.ok d₁, l')) (d' : Draw R) :
    ∃ record, d₁ = d.put key record ∧
      returnStakeToLoans c key returned d' l = (.ok (d'.put key record), l') := by
  obtain ⟨paid, l₁, h₁, h₂⟩ := bind_eq_ok.mp hrun
  cases paid with
  | false => cases h₂
  | true =>
    obtain ⟨treasury, l₂, h₃, h₄⟩ := bind_eq_ok.mp h₂
    obtain ⟨record, l₃, h₅, h₆⟩ := bind_eq_ok.mp h₄
    rcases record with _ | record
    · cases h₆
    obtain ⟨hd, rfl⟩ := Prod.mk.inj h₆
    refine ⟨record, (Except.ok.inj hd).symm, ?_⟩
    rw [returnStakeToLoans, bind_of_ok h₁]
    exact (bind_of_ok h₃ _).trans ((bind_of_ok h₅ _).trans rfl)

theorem Draw.Same.halve (h : d.Same d') (hrun : halveStake c key d l = (.ok d₁, l')) :
    ∃ d₁', halveStake c key d' l = (.ok d₁', l') ∧ d₁.Same d₁' := by
  rw [halveStake] at hrun ⊢
  simp only [h.stakes, h.records] at hrun ⊢
  generalize (d.stakes.get? key).getD 0 = n at hrun ⊢
  by_cases hn : n ≤ 0
  · rw [if_pos hn] at hrun
    cases hrun
  rw [if_neg hn] at hrun ⊢
  by_cases hhalf : n - halvedStake n ≤ 0
  · rw [if_pos hhalf] at hrun ⊢
    obtain ⟨hd, rfl⟩ := Prod.mk.inj hrun
    obtain rfl := Except.ok.inj hd
    exact ⟨d', rfl, h⟩
  rw [if_neg hhalf] at hrun ⊢
  generalize d.records.get? key = found at hrun ⊢
  rcases found with _ | record
  · cases hrun
  obtain ⟨d₂, l₂, h₁, h₂⟩ := bind_eq_ok.mp hrun
  obtain ⟨_, l₃, h₃, h₄⟩ := bind_eq_ok.mp h₂
  obtain ⟨hd, rfl⟩ := Prod.mk.inj h₄
  obtain rfl := Except.ok.inj hd
  simp only
  split at h₁
  · rename_i hroot
    obtain ⟨rfl, hreturn⟩ := returnStake_same h₁ d'
    rw [if_pos hroot]
    exact ⟨_, (bind_of_ok hreturn _).trans ((bind_of_ok h₃ _).trans rfl), h.put _⟩
  · rename_i hroot
    obtain ⟨record', rfl, hreturn⟩ := returnStakeToLoans_same h₁ d'
    rw [if_neg hroot]
    exact ⟨_, (bind_of_ok hreturn _).trans ((bind_of_ok h₃ _).trans rfl), h.put _⟩

theorem Draw.Same.slot {tree : Tree} (h : d.Same d')
    (hdrawing : Drawing c d l tree) (hrun : drawSlot c d l = (.ok (key, d₁), l')) :
    ∃ d₁', drawSlot c d' l = (.ok (key, d₁'), l') ∧ d₁.Same d₁' := by
  obtain ⟨d₂, hpick, -, hhalve, -⟩ := hdrawing.slot hrun
  obtain ⟨d₂', hpick', h₂⟩ := h.pick hdrawing.positive hpick
  obtain ⟨d₁', hhalve', h₁⟩ := h₂.halve hhalve
  refine ⟨d₁', ?_, h₁⟩
  rw [drawSlot_eq hpick', bind_of_ok hhalve']
  rfl

/-- The slots draw the same validator and leave the same accounts whatever order the stakes are
listed in. -/
theorem Draw.Same.slots {tree : Tree} {n : Nat} (h : d.Same d')
    (hdrawing : Drawing c d l tree) (hrun : drawSlots c n d l = (.ok (key, d₁), l')) :
    ∃ d₁', drawSlots c n d' l = (.ok (key, d₁'), l') := by
  induction n generalizing d d' l tree with
  | zero =>
    obtain ⟨d₁', hslot, -⟩ := h.slot hdrawing hrun
    exact ⟨d₁', hslot⟩
  | succ n ih =>
    obtain ⟨⟨key₂, d₂⟩, l₂, hslot, hslots⟩ := bind_eq_ok.mp hrun
    obtain ⟨d₂', hslot', h₂⟩ := h.slot hdrawing hslot
    obtain ⟨-, -, -, -, tree', hdrawing₂⟩ := hdrawing.slot hslot
    obtain ⟨d₁', hslots'⟩ := ih h₂ hdrawing₂ hslots
    exact ⟨d₁', (bind_of_ok hslot' _).trans hslots'⟩

end Orders

section Stakes

variable {R : Random} {c : Ctx} {rng : R.State} {d d₀ : Draw R}

/-- What a listed cell adds to a draw. -/
def addStake (c : Ctx) (d : Draw R) (entry : Bytes × Option Expr) : Py (Draw R) := do
  let some record ← stakeRecord c entry | return d
  return d.put entry.1 record

/-- One key of a draw made from listed cells. -/
def ReadAt (c : Ctx) (entries : List (Bytes × Option Expr)) (d₀ d : Draw R) (key : Bytes) : Prop :=
  (∃ entry ∈ entries, entry.1 = key ∧ ∃ record, stakeRecord c entry = .ok (some record) ∧
    d.records.get? key = some record ∧ d.stakes.get? key = some record.balance) ∨
  ((∀ entry ∈ entries, entry.1 = key → stakeRecord c entry = .ok none) ∧
    d.records.get? key = d₀.records.get? key ∧ d.stakes.get? key = d₀.stakes.get? key)

theorem foldlM_addStake {entries : List (Bytes × Option Expr)}
    (hnodup : (entries.map Prod.fst).Nodup) (h : entries.foldlM (addStake c) d₀ = .ok d) :
    d.rng = d₀.rng ∧ (∀ entry ∈ entries, ∃ r, stakeRecord c entry = .ok r) ∧
      ∀ key, ReadAt c entries d₀ d key := by
  induction entries generalizing d₀ with
  | nil =>
    obtain rfl := Except.ok.inj h
    exact ⟨rfl, nofun, fun key => .inr ⟨nofun, rfl, rfl⟩⟩
  | cons entry rest ih =>
    obtain ⟨hnew, hrest⟩ := List.nodup_cons.mp hnodup
    obtain ⟨d₁, hadd, hfold⟩ := except_bind_eq_ok.mp h
    obtain ⟨hrng, hreads, hkeys⟩ := ih hrest hfold
    obtain ⟨r, hr, hput⟩ := except_bind_eq_ok.mp hadd
    have hout : ∀ e ∈ rest, e.1 ≠ entry.1 := fun e he hcon =>
      hnew (hcon ▸ List.mem_map_of_mem he)
    refine ⟨?_, ?_, fun key => ?_⟩
    · rcases r with _ | record
      · obtain rfl := Except.ok.inj hput
        exact hrng
      · obtain rfl := Except.ok.inj hput
        exact hrng
    · intro e he
      rcases List.mem_cons.mp he with rfl | he
      · exact ⟨r, hr⟩
      · exact hreads e he
    · rcases hkeys key with ⟨e, he, hek, record, hrecord, hget⟩ | ⟨hnone, hrecords, hstakes⟩
      · exact .inl ⟨e, List.mem_cons_of_mem _ he, hek, record, hrecord, hget⟩
      · rcases r with _ | record
        · obtain rfl := Except.ok.inj hput
          refine .inr ⟨fun e he hek => ?_, hrecords, hstakes⟩
          rcases List.mem_cons.mp he with rfl | he
          · exact hr
          · exact hnone e he hek
        · obtain rfl := Except.ok.inj hput
          rw [Draw.put, Dict.get?_insert] at hrecords hstakes
          by_cases hkey : entry.1 = key
          · rw [if_pos hkey] at hrecords hstakes
            exact .inl ⟨entry, List.mem_cons_self, hkey, record, hr, hrecords, hstakes⟩
          · rw [if_neg hkey] at hrecords hstakes
            refine .inr ⟨fun e he hek => ?_, hrecords, hstakes⟩
            rcases List.mem_cons.mp he with rfl | he
            · exact absurd hek hkey
            · exact hnone e he hek

theorem foldlM_addStake_of_read {entries : List (Bytes × Option Expr)}
    (h : ∀ entry ∈ entries, ∃ r, stakeRecord c entry = .ok r) :
    ∃ d, entries.foldlM (addStake c) d₀ = .ok d := by
  induction entries generalizing d₀ with
  | nil => exact ⟨d₀, rfl⟩
  | cons entry rest ih =>
    obtain ⟨r, hr⟩ := h entry List.mem_cons_self
    obtain ⟨d₁, hd₁⟩ : ∃ d₁, addStake c d₀ entry = .ok d₁ := by
      rw [addStake, hr]
      rcases r with _ | record
      · exact ⟨d₀, rfl⟩
      · exact ⟨_, rfl⟩
    obtain ⟨d, hd⟩ : ∃ d, rest.foldlM (addStake c) d₁ = .ok d :=
      ih fun e he => h e (List.mem_cons_of_mem _ he)
    exact ⟨d, except_bind_eq_ok.mpr ⟨d₁, hd₁, hd⟩⟩

/-- The stakes are the same whatever order they are listed in. -/
theorem readStakes_same {entries entries' : List (Bytes × Option Expr)}
    (hperm : entries'.Perm entries) (hnodup : (entries.map Prod.fst).Nodup)
    (h : readStakes R c rng entries = .ok d) :
    ∃ d', readStakes R c rng entries' = .ok d' ∧ d.Same d' := by
  have hnodup' : (entries'.map Prod.fst).Nodup := (hperm.map Prod.fst).nodup_iff.mpr hnodup
  obtain ⟨hrng, hreads, hkeys⟩ := foldlM_addStake hnodup h
  obtain ⟨d', hd'⟩ : ∃ d', readStakes R c rng entries' = .ok d' :=
    foldlM_addStake_of_read fun entry he => hreads entry (hperm.mem_iff.mp he)
  obtain ⟨hrng', hreads', hkeys'⟩ := foldlM_addStake hnodup' hd'
  have hsame : ∀ key, d'.records.get? key = d.records.get? key ∧
      d'.stakes.get? key = d.stakes.get? key := by
    intro key
    rcases hkeys key with ⟨e, he, hek, record, hrecord, hr, hs⟩ | ⟨hnone, hr, hs⟩
    · rcases hkeys' key with ⟨e', he', hek', record', hrecord', hr', hs'⟩ | ⟨hnone', -, -⟩
      · obtain rfl : e = e' := List.inj_on_of_nodup_map hnodup he (hperm.mem_iff.mp he')
          (hek.trans hek'.symm)
        obtain rfl := Option.some.inj (Except.ok.inj (hrecord.symm.trans hrecord'))
        exact ⟨hr'.trans hr.symm, hs'.trans hs.symm⟩
      · have hcon := hrecord.symm.trans (hnone' e (hperm.mem_iff.mpr he) hek)
        cases hcon
    · rcases hkeys' key with ⟨e', he', hek', record', hrecord', -, -⟩ | ⟨-, hr', hs'⟩
      · have hcon := hrecord'.symm.trans (hnone e' (hperm.mem_iff.mp he') hek')
        cases hcon
      · exact ⟨hr'.trans hr.symm, hs'.trans hs.symm⟩
  exact ⟨d', hd', ⟨fun key => (hsame key).2, fun key => (hsame key).1, hrng'.trans hrng.symm⟩⟩

/-- What is read from storage is found there under its own hash. -/
def Node.FindsByHash (node : Node) : Prop :=
  ∀ h e, getExpr node h = some e → getExpr node (node.hash e) = some e

/-- The tree names its values by their hashes. -/
def Tree.Hashed (tree : Tree) : Prop := ∀ key v, tree.get? key = some v → ∃ e, v = .hashOf e

/-- A record that is listed is the one that is loaded. -/
theorem loadUserRecord_of_stakeRecord {tree : Tree} (hfinds : c.node.FindsByHash)
    (hhashed : Tree.Hashed tree) {key : Bytes} {record : TreasuryUserRecord}
    (h : stakeRecord c (key, getFromRadixTree c.node tree key) = .ok (some record)) :
    loadUserRecord c.node tree key = .ok (some record) := by
  rcases hget : getFromRadixTree c.node tree key with _ | head
  · rw [hget] at h
    cases key <;> cases h
  rw [hget] at h
  have hfound : getExpr c.node (c.node.hash head) = some head := by
    rw [getFromRadixTree] at hget
    rcases hvalue : tree.get? key with _ | v
    · rw [hvalue] at hget
      cases hget
    · obtain ⟨e, rfl⟩ := hhashed key v hvalue
      rw [hvalue] at hget
      exact hfinds _ _ hget
  cases key with
  | nil => cases h
  | cons b key =>
    obtain ⟨hash, hhash, hload⟩ := except_bind_eq_ok.mp h
    rw [Node.hash?] at hhash
    split at hhash
    · obtain rfl := Except.ok.inj hhash
      rw [loadUserRecord, hget, ← hfound]
      exact hload
    · cases hhash

theorem mem_stakeEntries {tree : Tree} {entry : Bytes × Option Expr}
    (h : entry ∈ stakeEntries c tree) :
    (tree.get? entry.1).isSome ∧ entry.2 = getFromRadixTree c.node tree entry.1 := by
  obtain ⟨key, hkey, rfl⟩ := List.mem_map.mp h
  refine ⟨?_, rfl⟩
  rw [← Option.ne_none_iff_isSome]
  exact fun hnone => Dict.get?_eq_none.mp hnone hkey

theorem nodup_of_subperm {tree : Tree} {entries : List (Bytes × Option Expr)}
    (h : entries.Subperm (stakeEntries c tree)) : (entries.map Prod.fst).Nodup := by
  obtain ⟨listed, hperm, hsub⟩ := h
  have hkeys : ((stakeEntries c tree).map Prod.fst).Nodup := by
    rw [stakeEntries, List.map_map]
    exact (List.map_id tree.keys).symm ▸ tree.nodup
  exact (hperm.map Prod.fst).nodup_iff.mp (hkeys.sublist (hsub.map Prod.fst))

/-- What the draw reads is the records that the treasury's tree names. -/
theorem loads_of_readStakes {tree : Tree} {entries : List (Bytes × Option Expr)}
    (hfinds : c.node.FindsByHash) (hhashed : Tree.Hashed tree)
    (hentries : entries.Subperm (stakeEntries c tree)) (hread : readStakes R c rng entries = .ok d)
    {key : Bytes} {record : TreasuryUserRecord} (hrecord : d.records.get? key = some record) :
    (tree.get? key).isSome ∧ loadUserRecord c.node tree key = .ok (some record) := by
  obtain ⟨-, -, hkeys⟩ := foldlM_addStake (nodup_of_subperm hentries) hread
  rcases hkeys key with ⟨⟨k, head⟩, he, rfl, record', hread', hr, -⟩ | ⟨-, hr, -⟩
  · obtain rfl := Option.some.inj (hr.symm.trans hrecord)
    obtain ⟨hsome, hhead⟩ := mem_stakeEntries (hentries.subset he)
    simp only at hsome hhead
    rw [hhead] at hread'
    exact ⟨hsome, loadUserRecord_of_stakeRecord hfinds hhashed hread'⟩
  · rw [hrecord] at hr
    cases hr

/-- The draw starts from what the treasury holds. -/
theorem drawing_of_readStakes {l : Ledger} {account : Account}
    {entries : List (Bytes × Option Expr)} (hfinds : c.node.FindsByHash)
    (hhashed : Tree.Hashed account.data)
    (haccount : l.cache.get? treasuryAddress = some account)
    (hentries : entries.Subperm (stakeEntries c account.data))
    (hread : readStakes R c rng entries = .ok d)
    (hpositive : ∃ key n, d.stakes.get? key = some n ∧ 0 < n)
    (hwalks : ∀ key record, d.records.get? key = some record → c.node.Walks record) :
    Drawing c d l account.data := by
  obtain ⟨-, -, hkeys⟩ := foldlM_addStake (nodup_of_subperm hentries) hread
  have hlisted : ∀ key record, d.records.get? key = some record →
      (account.data.get? key).isSome ∧
        loadUserRecord c.node account.data key = .ok (some record) :=
    fun key record h => loads_of_readStakes hfinds hhashed hentries hread h
  refine ⟨⟨account, haccount, rfl⟩, fun key record h => (hlisted key record h).1,
    fun key record h _ => (hlisted key record h).2, fun key n hn => ?_, hpositive, hwalks⟩
  rcases hkeys key with ⟨e, -, rfl, record, -, hr, hs⟩ | ⟨-, -, hs⟩
  · exact ⟨record, hr, Option.some.inj (hs.symm.trans hn)⟩
  · rw [hn] at hs
    cases hs

end Stakes

section Schedule

variable {R : Random} {c : Ctx} {l : Ledger}

/-- What holds before a validator is drawn: the treasury is there, with a tree that names its values
by their hashes, `entries` lists cells of the tree, the stakes read from them are not all zero, and
walks over their records end within the fuel. -/
structure DrawStarts (R : Random) (c : Ctx) (l : Ledger) (blockHash : Bytes) (account : Account)
    (entries : List (Bytes × Option Expr)) (d : Draw R) : Prop where
  treasury : l.account c treasuryAddress = some account
  hashed : Tree.Hashed account.data
  listed : entries.Subperm (stakeEntries c account.data)
  stakes : readStakes R c (R.seed (Python.fromBytesBig blockHash)) entries = .ok d
  positive : ∃ key n, d.stakes.get? key = some n ∧ 0 < n
  walks : ∀ key record, d.records.get? key = some record → c.node.Walks record

variable {blockHash : Bytes} {account : Account} {entries : List (Bytes × Option Expr)} {d : Draw R}

theorem currentValidator_eq (h : DrawStarts R c l blockHash account entries d)
    (blockTimestamp targetTime : Int) :
    currentValidator R c entries blockHash (some blockTimestamp) targetTime l =
      (drawSlots c ((slotsToProcess blockTimestamp targetTime).toNat - 1) d >>= fun r =>
        pure r.1) (getAccount c treasuryAddress l).2 := by
  have hget := eq_of_fst (getAccount_fst c l treasuryAddress)
  rw [h.treasury] at hget
  have hsome : d.stakes.pairs ≠ [] := by
    obtain ⟨key, n, hn, -⟩ := h.positive
    exact List.ne_nil_of_mem (Dict.get?_eq_some.mp hn)
  have hread : (Eff.ofExcept (readStakes R c (R.seed (Python.fromBytesBig blockHash)) entries) :
      Stateful Ledger (Draw R)) (getAccount c treasuryAddress l).2 =
        (.ok d, (getAccount c treasuryAddress l).2) := by
    rw [h.stakes]
    rfl
  rw [currentValidator, bind_of_ok hget]
  simp only [Option.isNone_some, Bool.false_eq_true, if_false]
  rw [bind_of_ok hread, if_neg hsome]

theorem DrawStarts.drawing (h : DrawStarts R c l blockHash account entries d)
    (hfinds : c.node.FindsByHash) :
    Drawing c d (getAccount c treasuryAddress l).2 account.data :=
  drawing_of_readStakes hfinds h.hashed ((cache_getAccount c l _).trans h.treasury) h.listed
    h.stakes h.positive h.walks

end Schedule

section Samples

/-- Storage that holds every cell under its hash finds what is read from it. -/
theorem findsByHash_of_addressed {node : Node}
    (h : ∀ key e, node.stored key = some e → node.hash e = key) : node.FindsByHash := by
  intro key e hget
  have hself : node.hash e = key := by
    rw [getExpr] at hget
    split at hget
    · rename_i hzero
      obtain rfl := Option.some.inj hget
      rw [hzero, Node.hash, Expr.hash]
    · rcases hstored : node.stored key with _ | found
      · rw [hstored] at hget
        obtain ⟨name, hname, rfl⟩ := Option.map_eq_some_iff.mp hget
        have hfound := List.find?_some hname
        rw [Node.hash, Expr.hash]
        exact eq_of_beq hfound
      · rw [hstored] at hget
        obtain rfl := Option.some.inj hget
        exact h key found hstored
  rw [hself]
  exact hget

/-- A generator that gives 0, as the real one does from the seed below for the stake of 20. -/
def zeroRandom : Random where
  State := Unit
  seed _ := ()
  randrange _ _ := (0, ())
  nonneg _ _ _ := le_rfl
  lt _ _ h := h

def seedHash : Bytes := List.replicate 32 6

def drawTree (record : TreasuryUserRecord) : Tree :=
  Dict.empty.insert aliceAddress (.hashOf record.expr)

def drawCtx (record : TreasuryUserRecord) : Ctx := ⟨loanNode record aliceLoan, rateHeader 2⟩

/-- The draw after a block whose treasury holds the stake of Alice alone. -/
def drawOf (record : TreasuryUserRecord) : Stateful Ledger Bytes :=
  currentValidator zeroRandom (drawCtx record) (stakeEntries (drawCtx record) (drawTree record))
    seedHash (some 0) 1

/-- The stake of Alice alone. -/
def drawStart (record : TreasuryUserRecord) : Draw zeroRandom :=
  (⟨.empty, .empty, ()⟩ : Draw zeroRandom).put aliceAddress record

theorem drawStarts_alice : DrawStarts zeroRandom (drawCtx aliceStake) (treasuryWith aliceStake)
    seedHash { createAccount 100 zero32 with data := drawTree aliceStake }
    (stakeEntries (drawCtx aliceStake) (drawTree aliceStake)) (drawStart aliceStake) := by
  have hread : stakeRecord (drawCtx aliceStake) (aliceAddress, some aliceStake.expr) =
      .ok (some aliceStake) := by decide +kernel
  have hentries : stakeEntries (drawCtx aliceStake) (drawTree aliceStake) =
      [(aliceAddress, some aliceStake.expr)] := by decide +kernel
  have hstakes : readStakes zeroRandom (drawCtx aliceStake) ()
      [(aliceAddress, some aliceStake.expr)] = .ok (drawStart aliceStake) :=
    except_bind_eq_ok.mpr ⟨_, except_bind_eq_ok.mpr ⟨_, hread, rfl⟩, rfl⟩
  refine ⟨by decide, fun key v h => ?_, List.Subperm.refl _, hentries ▸ hstakes,
    ⟨aliceAddress, 20, rfl, by decide⟩, fun key record h balance => ?_⟩
  · change (drawTree aliceStake).get? key = some v at h
    rw [drawTree, Dict.get?_insert] at h
    split at h
    · exact ⟨_, (Option.some.inj h).symm⟩
    · cases h
  · rw [drawStart, Draw.put, Dict.get?_insert] at h
    split at h
    · obtain rfl := Option.some.inj h
      exact ⟨_, rfl⟩
    · cases h

end Samples

end Astreum
