import Astreum.LoanRuns
import Mathlib.Algebra.Order.BigOperators.Group.List

namespace Astreum

open Eff

section Claims

variable (c : Ctx)

/-- The guarantee that a record's tree names under an id. -/
def guaranteeAt (record : TreasuryUserRecord) (id : Bytes) : Option TreasuryGuarantee :=
  match TreasuryGuarantee.fromStorage c.node
    (getFromRadixTree c.node (openTree c.node record.guaranteesRoot) id) with
  | .ok guarantee => guarantee
  | .error _ => none

/-- What the guarantee under an id is for, and zero for none. -/
def amountAt (record : TreasuryUserRecord) (id : Bytes) : Int :=
  match (guaranteeAt c record id).map TreasuryGuarantee.amount with
  | some (.int n) => n
  | _ => 0

/-- What the guarantee under an id costs, and zero for none. -/
def priceAt (record : TreasuryUserRecord) (id : Bytes) : Int :=
  match (guaranteeAt c record id).map TreasuryGuarantee.price with
  | some (.int n) => n
  | _ => 0

/-- The guarantees of one guarantor among those named. -/
def idsOf (refs : List (Bytes × Bytes)) (guarantor : Bytes) : List Bytes :=
  (refs.filter fun ref => ref.1 = guarantor).map Prod.snd

/-- What the claims of these guarantees come to: each is unclaimed in the record's tree and marked
in the new one, which names the others as before. -/
structure ClaimsIds (hash : Bytes) (record : TreasuryUserRecord) (ids : List Bytes)
    (guarantees : Tree) : Prop where
  marked : ∀ id ∈ ids, ∃ guarantee, guaranteeAt c record id = some guarantee ∧
    guarantee.claimedBy = .raw zero32 ∧
    guarantees.get? id = some (.hashOf { guarantee with claimedBy := .raw hash }.expr)
  others : ∀ id ∉ ids, guarantees.get? id = (openTree c.node record.guaranteesRoot).get? id

/-- The state of a guarantor once these guarantees of it are claimed. -/
structure GuarantorClaims (data : Tree) (hash guarantor : Bytes) (ids : List Bytes)
    (state : GuarantorState) : Prop where
  notTreasury : guarantor ≠ treasuryAddress
  loaded : loadUserRecord c.node data guarantor = .ok (some state.record)
  claims : ClaimsIds c hash state.record ids state.guarantees
  price : state.priceTotal = (ids.map (priceAt c state.record)).sum
  amount : state.addedGuaranteed = (ids.map (amountAt c state.record)).sum

/-- The guarantors and no others have a state, after these guarantees are claimed. -/
def ClaimsSoFar (data : Tree) (hash : Bytes) (refs : List (Bytes × Bytes)) (claimed : Claimed) :
    Prop :=
  ∀ guarantor, match claimed.states.get? guarantor with
    | none => idsOf refs guarantor = []
    | some state => idsOf refs guarantor ≠ [] ∧
      GuarantorClaims c data hash guarantor (idsOf refs guarantor) state

variable {c} {data : Tree} {hash : Bytes} {refs : List (Bytes × Bytes)} {claimed claimed' : Claimed}

theorem idsOf_snoc (refs : List (Bytes × Bytes)) (g id guarantor : Bytes) :
    idsOf (refs ++ [(g, id)]) guarantor =
      if g = guarantor then idsOf refs guarantor ++ [id] else idsOf refs guarantor := by
  by_cases h : g = guarantor <;> simp [idsOf, List.filter_append, h]

theorem mem_idsOf {g id : Bytes} : id ∈ idsOf refs g ↔ (g, id) ∈ refs := by
  simp [idsOf]

/-- A claim marks a guarantee that nobody has claimed. -/
theorem claimGuarantee_eq_some {guarantees guarantees' : Tree} {id : Bytes} {height : Int}
    {guarantee' : TreasuryGuarantee}
    (h : claimGuarantee c guarantees id hash height = .ok (some (guarantee', guarantees'))) :
    ∃ guarantee, TreasuryGuarantee.fromStorage c.node (getFromRadixTree c.node guarantees id) =
        .ok (some guarantee) ∧ guarantee.claimedBy = .raw zero32 ∧
      guarantee' = { guarantee with claimedBy := .raw hash } ∧
      guarantees' = guarantees.insert id (.hashOf guarantee'.expr) := by
  rw [claimGuarantee] at h
  obtain ⟨guarantee, hguarantee, h₁⟩ := except_bind_eq_ok.mp h
  rcases guarantee with _ | guarantee
  · cases h₁
  simp only at h₁
  split at h₁
  · cases h₁
  rename_i hclaimed
  obtain ⟨expiry, -, h₂⟩ := except_bind_eq_ok.mp h₁
  split at h₂
  · cases h₂
  obtain ⟨tree, htree, h₃⟩ := except_bind_eq_ok.mp h₂
  obtain ⟨rfl, rfl⟩ := Prod.mk.inj (Option.some.inj (Except.ok.inj h₃))
  exact ⟨guarantee, hguarantee, not_not.mp hclaimed, rfl, putInRadixTree_eq_ok htree⟩

/-- One more guarantee of a guarantor is claimed. -/
theorem GuarantorClaims.snoc {guarantor id : Bytes} {ids : List Bytes} {state : GuarantorState}
    (h : GuarantorClaims c data hash guarantor ids state) (hid : id ∉ ids)
    {guarantee : TreasuryGuarantee} {price amount : Int}
    (hguarantee : TreasuryGuarantee.fromStorage c.node
      (getFromRadixTree c.node state.guarantees id) = .ok (some guarantee))
    (hclaimed : guarantee.claimedBy = .raw zero32) (hprice : guarantee.price.toInt = .ok price)
    (hamount : guarantee.amount.toInt = .ok amount) :
    GuarantorClaims c data hash guarantor (ids ++ [id])
      ⟨state.record, state.guarantees.insert id
        (.hashOf { guarantee with claimedBy := .raw hash }.expr),
        state.priceTotal + price, state.addedGuaranteed + amount⟩ := by
  have hat : guaranteeAt c state.record id = some guarantee := by
    have hsame : getFromRadixTree c.node state.guarantees id =
        getFromRadixTree c.node (openTree c.node state.record.guaranteesRoot) id := by
      rw [getFromRadixTree, getFromRadixTree, h.claims.others id hid]
    rw [guaranteeAt, ← hsame, hguarantee]
  have hpriceAt : priceAt c state.record id = price := by
    rw [priceAt, hat, Option.map_some, toInt_eq_ok hprice]
  have hamountAt : amountAt c state.record id = amount := by
    rw [amountAt, hat, Option.map_some, toInt_eq_ok hamount]
  refine ⟨h.notTreasury, h.loaded, ⟨?_, ?_⟩, ?_, ?_⟩
  · intro x hx
    rcases List.mem_append.mp hx with hx | hx
    · obtain ⟨g, hg, hzero, hget⟩ := h.claims.marked x hx
      have hne : id ≠ x := by
        rintro rfl
        exact hid hx
      exact ⟨g, hg, hzero, (Dict.get?_insert_of_ne _ _ hne).trans hget⟩
    · obtain rfl := List.mem_singleton.mp hx
      exact ⟨guarantee, hat, hclaimed, Dict.get?_insert_self _ _ _⟩
  · intro x hx
    have hne : id ≠ x := by
      rintro rfl
      exact hx (List.mem_append_right _ List.mem_cons_self)
    rw [Dict.get?_insert_of_ne _ _ hne]
    exact h.claims.others x fun hcon => hx (List.mem_append_left _ hcon)
  · simp [h.price, hpriceAt]
  · simp [h.amount, hamountAt]

/-- One turn of the loop over the named guarantees. -/
theorem claimNamed_claims {duration : Int} {g id : Bytes} (h : ClaimsSoFar c data hash refs claimed)
    (hnew : (g, id) ∉ refs)
    (hrun : claimNamed c data hash duration claimed g id = .ok (some claimed')) :
    ClaimsSoFar c data hash (refs ++ [(g, id)]) claimed' := by
  rw [claimNamed] at hrun
  split at hrun
  · cases hrun
  rename_i htreasury
  obtain ⟨found, hfound, h₁⟩ := except_bind_eq_ok.mp hrun
  rcases found with _ | state
  · cases h₁
  have hstate : GuarantorClaims c data hash g (idsOf refs g) state := by
    have hg := h g
    rcases hget : claimed.states.get? g with _ | old
    · simp only [hget] at hfound hg
      obtain ⟨record, hrecord, h₂⟩ := except_bind_eq_ok.mp hfound
      rcases record with _ | record
      · cases h₂
      obtain rfl := Option.some.inj (Except.ok.inj h₂)
      rw [hg]
      exact ⟨htreasury, hrecord, ⟨fun _ h => (by cases h), fun _ _ => rfl⟩, rfl, rfl⟩
    · simp only [hget] at hfound hg
      obtain rfl := Option.some.inj (Except.ok.inj hfound)
      exact hg.2
  obtain ⟨marked, hmarked, h₃⟩ := except_bind_eq_ok.mp h₁
  rcases marked with _ | ⟨guarantee', guarantees'⟩
  · cases h₃
  obtain ⟨guarantee, hguarantee, hzero, rfl, rfl⟩ := claimGuarantee_eq_some hmarked
  simp only at h₃
  split at h₃
  · cases h₃
  obtain ⟨price, hprice, h₄⟩ := except_bind_eq_ok.mp h₃
  obtain ⟨amount, hamount, h₅⟩ := except_bind_eq_ok.mp h₄
  obtain rfl := Option.some.inj (Except.ok.inj h₅)
  have hsnoc := hstate.snoc (fun hcon => hnew (mem_idsOf.mp hcon)) hguarantee hzero hprice hamount
  intro x
  rw [Dict.get?_insert, idsOf_snoc]
  by_cases hx : g = x
  · subst hx
    simp only [if_true]
    exact ⟨by simp, hsnoc⟩
  · simp only [if_neg hx]
    exact h x

theorem foldlM_claimNamed_none {duration : Int} (rest : List (Bytes × Bytes)) :
    rest.foldlM (fun claimed ref => do
      let some claimed := claimed | return none
      claimNamed c data hash duration claimed ref.1 ref.2) none = .ok none := by
  induction rest with
  | nil => rfl
  | cons ref rest ih => exact ih

theorem foldlM_claimNamed_claims {duration : Int} {rest : List (Bytes × Bytes)}
    (h : ClaimsSoFar c data hash refs claimed) (hnodup : (refs ++ rest).Nodup)
    (hrun : rest.foldlM (fun claimed ref => do
      let some claimed := claimed | return none
      claimNamed c data hash duration claimed ref.1 ref.2) (some claimed) =
        .ok (some claimed')) :
    ClaimsSoFar c data hash (refs ++ rest) claimed' := by
  induction rest generalizing refs claimed with
  | nil =>
    obtain rfl := Option.some.inj (Except.ok.inj hrun)
    rwa [List.append_nil]
  | cons ref rest ih =>
    obtain ⟨next, hnext, hrest⟩ := except_bind_eq_ok.mp hrun
    rcases next with _ | next
    · rw [foldlM_claimNamed_none rest] at hrest
      cases hrest
    have hfresh : ref ∉ refs := fun hcon =>
      (List.nodup_append.mp hnodup).2.2 ref hcon ref List.mem_cons_self rfl
    have hassoc : refs ++ ref :: rest = (refs ++ [ref]) ++ rest := by simp
    rw [hassoc] at hnodup ⊢
    exact ih (claimNamed_claims h hfresh hnext) hnodup hrest

theorem claimAllNamed_claims {duration : Int} (hnodup : refs.Nodup)
    (hrun : claimAllNamed c data hash duration refs = .ok (some claimed)) :
    ClaimsSoFar c data hash refs claimed := by
  have hempty : ClaimsSoFar c data hash [] ⟨.empty, []⟩ := fun _ => rfl
  exact foldlM_claimNamed_claims hempty hnodup hrun

end Claims

section Payments

variable {c : Ctx} {l l' : Ledger}

def balanceAt (c : Ctx) (l : Ledger) (a : Bytes) : Int :=
  ((l.account c a).map Account.balance).getD 0

theorem balanceAt_addBalance {a : Bytes} {n : Int} (h : addBalance a n l = (.ok (), l'))
    (b : Bytes) : balanceAt c l' b = balanceAt c l b + if b = a then n else 0 := by
  obtain ⟨account, haccount, -⟩ := mutate_eq_ok.mp h
  rw [balanceAt, account_of_mutate h, balanceAt]
  by_cases hb : b = a
  · subst hb
    simp [Ledger.account_of_cached haccount]
  · simp [hb]

theorem balanceAt_of_account (h : l'.account c = l.account c) : balanceAt c l' = balanceAt c l := by
  funext a
  rw [balanceAt, balanceAt, h]

theorem balanceAt_putUserRecord {user : Bytes} {record : TreasuryUserRecord}
    (h : putUserRecord user record l = (.ok (), l')) : balanceAt c l' = balanceAt c l := by
  obtain ⟨treasury, l₁, h₁, h₂⟩ := bind_eq_ok.mp h
  obtain ⟨-, rfl⟩ := held_eq_ok.mp h₁
  obtain ⟨tree, l₂, h₃, h₄⟩ := bind_eq_ok.mp h₂
  obtain ⟨-, rfl⟩ := Prod.mk.inj h₃
  funext a
  rw [balanceAt, account_of_mutate h₄, balanceAt, Option.map_map]
  congr 2
  funext account
  simp only [Function.comp]
  split <;> rfl

/-- A guarantor is paid its price, into an account made for it where it has none. -/
theorem payGuarantor_eq_ok {g : Bytes} {price : Int} (hg : g ≠ treasuryAddress)
    (h : payGuarantor c g price l = (.ok (), l')) :
    l'.userAt c = l.userAt c ∧
      ∀ a, balanceAt c l' a = balanceAt c l a + if a = g then price else 0 := by
  obtain ⟨account, l₁, h₁, h₂⟩ := bind_eq_ok.mp h
  obtain ⟨haccount, hread, -⟩ := getAccount_eq_ok h₁
  have hview : l₁.account c = l.account c := funext hread.account
  have husers : l₁.userAt c = l.userAt c := userAt_of_account (by rw [hview])
  rcases account with _ | account
  · obtain ⟨-, rfl⟩ := Prod.mk.inj h₂
    have hinsert : ∀ a, ({ l₁ with
        cache := l₁.cache.insert g (createAccount price zero32)
        involved := l₁.involved.insert g } : Ledger).account c a =
          if g = a then some (createAccount price zero32) else l.account c a := fun a => by
      rw [← hview]
      exact Ledger.account_insert c l₁ g a (createAccount price zero32)
    refine ⟨?_, fun a => ?_⟩
    · refine (userAt_of_account ?_).trans husers
      rw [hinsert, if_neg hg, hview]
    · rw [balanceAt, hinsert, balanceAt]
      by_cases ha : g = a
      · subst ha
        simp [createAccount, ← haccount]
      · simp [ha, Ne.symm ha]
  · obtain ⟨_, l₂, h₃, h₄⟩ := bind_eq_ok.mp h₂
    obtain ⟨-, rfl⟩ := Prod.mk.inj h₄
    have hkept : l₂.userAt c = l₁.userAt c :=
      userAt_of_mutate (f := fun account => { account with balance := account.balance + price })
        (fun _ => rfl) h₃
    refine ⟨hkept.trans husers, fun a => ?_⟩
    have hadd := balanceAt_addBalance (c := c) h₃ a
    rw [balanceAt_of_account hview] at hadd
    exact hadd

/-- The record that a guarantor's claims leave. -/
def guarantorRecord (c : Ctx) (state : GuarantorState) : TreasuryUserRecord :=
  { state.record with
    guaranteesRoot := pointerTo c.node state.guarantees
    guaranteed := state.record.guaranteed + state.addedGuaranteed }

/-- Every guarantor is paid and has its record written. -/
theorem payGuarantors_eq_ok {pairs : List (Bytes × GuarantorState)} {exprs : List Expr}
    (hnodup : (pairs.map Prod.fst).Nodup) (hne : ∀ p ∈ pairs, p.1 ≠ treasuryAddress)
    (h : payGuarantors c pairs l = (.ok exprs, l')) :
    (∀ u, l'.userAt c u = ((lookupPair u pairs).map fun state =>
        TreeValue.hashOf (guarantorRecord c state).expr).or (l.userAt c u)) ∧
      ∀ a, balanceAt c l' a =
        balanceAt c l a + ((lookupPair a pairs).map GuarantorState.priceTotal).getD 0 := by
  induction pairs generalizing l exprs with
  | nil =>
    obtain ⟨-, rfl⟩ := Prod.mk.inj h
    exact ⟨fun u => rfl, fun a => (Int.add_zero _).symm⟩
  | cons p pairs ih =>
    obtain ⟨g, state⟩ := p
    obtain ⟨_, l₁, h₁, h₂⟩ := bind_eq_ok.mp h
    obtain ⟨_, l₂, h₃, h₄⟩ := bind_eq_ok.mp h₂
    obtain ⟨exprs₁, l₃, h₅, h₆⟩ := bind_eq_ok.mp h₄
    obtain rfl := (keeps_innerExprs (R := Eq) _).of_ok h₅
    obtain ⟨exprs₂, l₄, h₇, h₈⟩ := bind_eq_ok.mp h₆
    obtain ⟨-, rfl⟩ := Prod.mk.inj h₈
    obtain ⟨hpaid, hbalance⟩ := payGuarantor_eq_ok (hne _ List.mem_cons_self) h₁
    have hwrite := writesUser_putUserRecord (c := c) h₃
    obtain ⟨husers, hbalances⟩ := ih (List.nodup_cons.mp hnodup).2
      (fun q hq => hne q (List.mem_cons_of_mem _ hq)) h₇
    have hg : lookupPair g pairs = none := lookupPair_eq_none.mpr (List.nodup_cons.mp hnodup).1
    refine ⟨fun u => ?_, fun a => ?_⟩
    · rw [husers u, hwrite u, hpaid, lookupPair]
      by_cases hu : g = u
      · subst hu
        simp [hg, guarantorRecord]
      · simp [hu, Ne.symm hu]
    · rw [hbalances a, balanceAt_putUserRecord h₃, hbalance a, lookupPair]
      by_cases ha : g = a
      · subst ha
        simp [hg]
      · simp [ha, Ne.symm ha]

end Payments

section Borrow

variable {c : Ctx} {t : Transaction} {hash : Bytes} {request : TreasuryBorrowRequest}
  {refs : List (Bytes × Bytes)} {l l' : Ledger}

/-- What an unsecured borrow that succeeds has gone through. -/
structure BorrowRun (c : Ctx) (t : Transaction) (hash : Bytes) (refs : List (Bytes × Bytes))
    (l l' : Ledger) (account : Account) (record : TreasuryUserRecord) (claimed : Claimed)
    (loan : TreasuryLoanRecord) : Prop where
  nodup : refs.Nodup
  treasury : l.cache.get? treasuryAddress = some account
  borrower : (Option.getD · .empty) <$> loadUserRecord c.node account.data t.sender = .ok record
  claims : ClaimsSoFar c account.data hash refs claimed
  covered : ∀ guarantor state, claimed.states.get? guarantor = some state →
    state.record.guaranteed + state.addedGuaranteed ≤ state.record.totalInterestPaid
  users : ∀ u, l'.userAt c u =
    if u = t.sender then some (.hashOf { record with
      loansRoot := pointerTo c.node
        ((openTree c.node record.loansRoot).insert hash (.hashOf loan.expr))
      loaned := record.loaned + loan.discountedAmount }.expr)
    else ((claimed.states.get? u).map fun state =>
      TreeValue.hashOf (guarantorRecord c state).expr).or (l.userAt c u)
  balances : ∀ a, a ≠ treasuryAddress → a ≠ t.sender → balanceAt c l' a =
    balanceAt c l a + ((claimed.states.get? a).map GuarantorState.priceTotal).getD 0

theorem handleUnsecuredBorrow_run
    (h : handleUnsecuredBorrow c t hash request refs l = (.ok .success, l')) :
    ∃ account record claimed loan,
      BorrowRun c t hash refs l l' account record claimed loan ∧ LoanMade c t loan ∧
        (t.sender ≠ treasuryAddress → balanceAt c l' treasuryAddress + priceTotal claimed.states <
          balanceAt c l treasuryAddress) ∧ loan.loanType = .unsecured := by
  obtain ⟨account, record, claimed, loan, hsteps⟩ := handleUnsecuredBorrow_steps h
  obtain ⟨loans, exprs, fee, l₁, l₂, l₃, l₄, htree, hnet, hpay, hput, hlent, hpaid, hview⟩ :=
    hsteps.payments
  obtain ⟨duration, hclaimed⟩ := hsteps.claims
  have hclaims := claimAllNamed_claims hsteps.nodup hclaimed
  have hne : ∀ p ∈ claimed.states.pairs, p.1 ≠ treasuryAddress := by
    intro p hp htreasury
    have hkey : treasuryAddress ∈ claimed.states.keys := htreasury ▸ List.mem_map_of_mem hp
    have hg := hclaims treasuryAddress
    rcases hget : claimed.states.get? treasuryAddress with _ | state
    · exact Dict.get?_eq_none.mp hget hkey
    · rw [hget] at hg
      exact hg.2.notTreasury rfl
  obtain ⟨husers, hbalances⟩ := payGuarantors_eq_ok claimed.states.nodup hne hpay
  have hwrite := writesUser_putUserRecord (c := c) hput
  obtain rfl := putInRadixTree_eq_ok htree
  refine ⟨account, record, claimed, loan, ⟨hsteps.nodup, hsteps.treasury, hsteps.borrower, hclaims,
    ?_, ?_, ?_⟩, hsteps.made, ?_, hsteps.unsecured⟩
  · intro g state hget
    by_contra hcon
    refine hsteps.covered (List.any_eq_true.mpr ⟨(g, state), mem_of_lookupPair hget, ?_⟩)
    exact decide_eq_true (not_le.mp hcon)
  · intro u
    have htail : l₄.userAt c = l₂.userAt c :=
      ((users_addBalance _ _).of_ok hpaid).trans ((users_addBalance _ _).of_ok hlent)
    rw [userAt_of_account (congrArg (Option.map Account.data) (congrFun hview _)), htail, hwrite u,
      husers u]
    rfl
  · intro a ha hsender
    have hpaid := balanceAt_addBalance (c := c) hpaid a
    have hlent := balanceAt_addBalance (c := c) hlent a
    rw [balanceAt_of_account hview, hpaid, if_neg hsender, hlent, if_neg ha,
      balanceAt_putUserRecord hput, hbalances a, Int.add_zero, Int.add_zero]
    rfl
  · intro hsender
    have hpaid := balanceAt_addBalance (c := c) hpaid treasuryAddress
    have hlent := balanceAt_addBalance (c := c) hlent treasuryAddress
    have hnone : lookupPair treasuryAddress claimed.states.pairs = none :=
      lookupPair_eq_none.mpr fun hmem => by
        obtain ⟨p, hp, hkey⟩ := List.mem_map.mp hmem
        exact hne p hp hkey
    have hguarantors := hbalances treasuryAddress
    rw [hnone, Option.map_none, Option.getD_none] at hguarantors
    rw [if_neg (Ne.symm hsender)] at hpaid
    rw [if_pos rfl, balanceAt_putUserRecord hput, hguarantors] at hlent
    rw [balanceAt_of_account hview]
    omega

/-- What the claim of the guarantees named to a borrow is to come to. -/
structure GuaranteesClaimed (c : Ctx) (t : Transaction) (hash : Bytes)
    (refs : List (Bytes × Bytes)) (l l' : Ledger) : Prop where
  guarantors : ∃ account, l.cache.get? treasuryAddress = some account ∧
    ∀ g ∈ refs.map Prod.fst, ∃ (record record' : TreasuryUserRecord) (guarantees : Tree),
      loadUserRecord c.node account.data g = .ok (some record) ∧
      l'.userAt c g = some (.hashOf record'.expr) ∧
      ClaimsIds c hash record (idsOf refs g) guarantees ∧
      record'.guaranteesRoot = pointerTo c.node guarantees ∧
      record'.guaranteed =
        record.guaranteed + ((idsOf refs g).map (amountAt c record)).sum ∧
      record'.guaranteed ≤ record.totalInterestPaid ∧
      (g ≠ t.sender → record' = { record with
          guaranteesRoot := record'.guaranteesRoot
          guaranteed := record'.guaranteed } ∧
        balanceAt c l' g = balanceAt c l g + ((idsOf refs g).map (priceAt c record)).sum)
  borrower : ∃ (account : Account) (record record' : TreasuryUserRecord)
      (loan : TreasuryLoanRecord), l.cache.get? treasuryAddress = some account ∧
    (Option.getD · .empty) <$> loadUserRecord c.node account.data t.sender = .ok record ∧
    l'.userAt c t.sender = some (.hashOf record'.expr) ∧ LoanMade c t loan ∧
    record'.loansRoot = pointerTo c.node
      ((openTree c.node record.loansRoot).insert hash (.hashOf loan.expr)) ∧
    record'.loaned = record.loaned + loan.discountedAmount
  others : ∀ u, u ∉ refs.map Prod.fst → u ≠ t.sender → l'.userAt c u = l.userAt c u

variable {account : Account} {record : TreasuryUserRecord} {claimed : Claimed}
  {loan : TreasuryLoanRecord}

theorem idsOf_ne_nil {g : Bytes} (h : g ∈ refs.map Prod.fst) : idsOf refs g ≠ [] := by
  obtain ⟨ref, href, rfl⟩ := List.mem_map.mp h
  exact List.ne_nil_of_mem (mem_idsOf.mpr href)

/-- Every guarantor that is named has a state. -/
theorem BorrowRun.stateOf (hrun : BorrowRun c t hash refs l l' account record claimed loan)
    {g : Bytes} (hg : g ∈ refs.map Prod.fst) : ∃ state, claimed.states.get? g = some state ∧
      GuarantorClaims c account.data hash g (idsOf refs g) state := by
  have hclaims := hrun.claims g
  rcases hget : claimed.states.get? g with _ | state
  · rw [hget] at hclaims
    exact absurd hclaims (idsOf_ne_nil hg)
  · rw [hget] at hclaims
    exact ⟨state, rfl, hclaims.2⟩

theorem BorrowRun.guaranteesClaimed
    (hrun : BorrowRun c t hash refs l l' account record claimed loan)
    (hmade : LoanMade c t loan) (hsender : t.sender ∉ refs.map Prod.fst) :
    GuaranteesClaimed c t hash refs l l' := by
  refine ⟨⟨account, hrun.treasury, fun g hg => ?_⟩, ?_, fun u hu hne => ?_⟩
  · obtain ⟨state, hget, hstate⟩ := hrun.stateOf hg
    have hne : g ≠ t.sender := by
      rintro rfl
      exact hsender hg
    have hcovered := hrun.covered g state hget
    refine ⟨state.record, guarantorRecord c state, state.guarantees, hstate.loaded, ?_,
      hstate.claims, rfl, ?_, hcovered, fun _ => ⟨rfl, ?_⟩⟩
    · rw [hrun.users g, if_neg hne, hget]
      rfl
    · rw [← hstate.amount]
      rfl
    · rw [hrun.balances g hstate.notTreasury hne, hget, ← hstate.price]
      rfl
  · exact ⟨account, record, _, loan, hrun.treasury, hrun.borrower,
      (hrun.users t.sender).trans (if_pos rfl), hmade, rfl, rfl⟩
  · have hclaims := hrun.claims u
    rw [hrun.users u, if_neg hne]
    rcases hget : claimed.states.get? u with _ | state
    · rfl
    · rw [hget] at hclaims
      obtain ⟨id, hid⟩ := List.exists_mem_of_ne_nil _ hclaims.1
      exact absurd (List.mem_map_of_mem (mem_idsOf.mp hid)) hu

theorem guaranteed_of_expr {r r' : TreasuryUserRecord} (h : r.expr = r'.expr) :
    r.guaranteed = r'.guaranteed := by
  simp only [TreasuryUserRecord.expr, link, int_, typed, Expr.link.injEq, Child.loaded.injEq,
    Val.int.injEq] at h
  tauto

/-- The last write to the record of a borrower that guarantees its own loan is of a copy taken
before its guarantees were claimed. -/
theorem BorrowRun.not_guaranteesClaimed
    (hrun : BorrowRun c t hash refs l l' account record claimed loan)
    (hpos : ∀ id guarantee, guaranteeAt c record id = some guarantee → 0 < amountAt c record id)
    (hsender : t.sender ∈ refs.map Prod.fst) : ¬GuaranteesClaimed c t hash refs l l' := by
  intro hcon
  obtain ⟨account', haccount, hguarantors⟩ := hcon.guarantors
  obtain rfl := Option.some.inj (hrun.treasury.symm.trans haccount)
  obtain ⟨old, new, guarantees, hold, hnew, hclaims, -, hsum, -⟩ := hguarantors t.sender hsender
  have hborrower := hrun.borrower
  rw [hold] at hborrower
  obtain rfl : old = record := Except.ok.inj hborrower
  rw [hrun.users t.sender, if_pos rfl] at hnew
  have hsame := guaranteed_of_expr (TreeValue.hashOf.inj (Option.some.inj hnew))
  simp only at hsame
  have hamounts : ∀ id ∈ idsOf refs t.sender, 0 < amountAt c old id := by
    intro id hid
    obtain ⟨guarantee, hguarantee, -⟩ := hclaims.marked id hid
    exact hpos id guarantee hguarantee
  have hgrows : 0 < ((idsOf refs t.sender).map (amountAt c old)).sum := by
    refine List.sum_pos _ ?_ ?_
    · simpa using hamounts
    · simpa using idsOf_ne_nil hsender
  omega

end Borrow

section Runs

/-- The treasury holds this guarantee of a guarantor. -/
def Ledger.HoldsGuarantee (c : Ctx) (l : Ledger) (guarantor id : Bytes)
    (guarantee : TreasuryGuarantee) : Prop :=
  ∃ (record : TreasuryUserRecord) (guarantees : Tree),
    l.userAt c guarantor = some (.hashOf record.expr) ∧
    record.guaranteesRoot = pointerTo c.node guarantees ∧
    guarantees.get? id = some (.hashOf guarantee.expr)

/-- What a borrow loads under an id of a guarantor. -/
def LoadsGuarantee (c : Ctx) (l : Ledger) (guarantor id : Bytes) (guarantee : TreasuryGuarantee) :
    Prop :=
  ∃ account record, l.cache.get? treasuryAddress = some account ∧
    loadUserRecord c.node account.data guarantor = .ok (some record) ∧
    guaranteeAt c record id = some guarantee

/-- A guarantee from its sale on, at any heights, and the borrows it backs: those that name it,
each by a borrower that does not guarantee its own loan. -/
inductive GuaranteeRun (guarantor id : Bytes) : TreasuryGuarantee → List Bytes → Prop
  | sold {c : Ctx} {t : Transaction} {l l' : Ledger} {guarantee : TreasuryGuarantee}
      (h : handleTreasuryGuarantee c t id l = (.ok .success, l')) (hsender : t.sender = guarantor)
      (hnew : guarantee.claimedBy = .raw zero32)
      (hheld : l'.HoldsGuarantee c guarantor id guarantee) :
      GuaranteeRun guarantor id guarantee []
  | named {c : Ctx} {t : Transaction} {hash : Bytes} {request : TreasuryBorrowRequest}
      {refs : List (Bytes × Bytes)} {l l' : Ledger} {guarantee : TreasuryGuarantee}
      {backed : List Bytes} (hrun : GuaranteeRun guarantor id guarantee backed)
      (h : handleUnsecuredBorrow c t hash request refs l = (.ok .success, l'))
      (hself : t.sender ∉ refs.map Prod.fst) (hmem : (guarantor, id) ∈ refs)
      (hhash : hash ≠ zero32) (hload : LoadsGuarantee c l guarantor id guarantee)
      (hheld : l'.HoldsGuarantee c guarantor id { guarantee with claimedBy := .raw hash }) :
      GuaranteeRun guarantor id { guarantee with claimedBy := .raw hash } (backed ++ [hash])

variable {c : Ctx} {t : Transaction} {hash : Bytes} {request : TreasuryBorrowRequest}
  {refs : List (Bytes × Bytes)} {l l' : Ledger} {guarantor id : Bytes}
  {guarantee : TreasuryGuarantee} {backed : List Bytes}

/-- What a sale that succeeds has gone through: the seller's record, or a new one where none is
read, is written with the guarantee in its tree. -/
theorem handleTreasuryGuarantee_run
    (h : handleTreasuryGuarantee c t hash l = (.ok .success, l')) :
    ∃ (l₁ : Ledger) (account : Account) (found : Option TreasuryUserRecord) (guarantees : Tree)
      (guarantee : TreasuryGuarantee) (amount : Int), l.Read c l₁ ∧
      l₁.cache.get? treasuryAddress = some account ∧
      loadUserRecord c.node account.data t.sender = .ok found ∧
      l₁.WritesUser c l' t.sender { found.getD .empty with
        guaranteesRoot := pointerTo c.node
          (guarantees.insert hash (.hashOf guarantee.expr)) } ∧
      balanceAt c l' = balanceAt c l₁ ∧ guarantee.claimedBy = .raw zero32 ∧
      guarantee.amount = .int amount ∧ 0 < amount := by
  rw [handleTreasuryGuarantee] at h
  split at h
  · cases h
  obtain ⟨account, l₁, h₁, h₂⟩ := bind_eq_ok.mp h
  obtain ⟨-, hread, -⟩ := getAccount_eq_ok h₁
  split at h₂
  · cases h₂
  obtain ⟨amount, duration, price, expiry, -, h₂⟩ := dataNodes_of_success h₂
  split at h₂
  · cases h₂
  obtain ⟨n, l₂, h₃, h₄⟩ := bind_eq_ok.mp h₂
  obtain ⟨-, rfl⟩ := Prod.mk.inj h₃
  split at h₄
  · cases h₄
  rename_i hamount
  obtain ⟨blocks, l₃, h₅, h₆⟩ := bind_eq_ok.mp h₄
  obtain ⟨-, rfl⟩ := Prod.mk.inj h₅
  split at h₆
  · cases h₆
  obtain ⟨cost, l₄, h₇, h₈⟩ := bind_eq_ok.mp h₆
  obtain ⟨-, rfl⟩ := Prod.mk.inj h₇
  split at h₈
  · cases h₈
  obtain ⟨last, l₅, h₉, h₁₀⟩ := bind_eq_ok.mp h₈
  obtain ⟨-, rfl⟩ := Prod.mk.inj h₉
  split at h₁₀
  · cases h₁₀
  obtain ⟨treasury, l₆, h₁₁, h₁₂⟩ := bind_eq_ok.mp h₁₀
  obtain ⟨htreasury, rfl⟩ := held_eq_ok.mp h₁₁
  obtain ⟨record, l₇, h₁₃, h₁₄⟩ := bind_eq_ok.mp h₁₂
  obtain ⟨hrecord, rfl⟩ := Prod.mk.inj h₁₃
  split at h₁₄
  · cases h₁₄
  obtain ⟨tree, l₈, h₁₅, h₁₆⟩ := bind_eq_ok.mp h₁₄
  obtain ⟨htree, rfl⟩ := Prod.mk.inj h₁₅
  obtain ⟨exprs, l₉, h₁₇, h₁₈⟩ := bind_eq_ok.mp h₁₆
  obtain ⟨_, l₁₀, h₁₉, h₂₀⟩ := bind_eq_ok.mp h₁₈
  obtain ⟨userExprs, l₁₁, h₂₁, h₂₂⟩ := bind_eq_ok.mp h₂₀
  obtain rfl := (keeps_innerExprs (R := Eq) _).of_ok h₂₁
  obtain ⟨_, l₁₂, h₂₃, h₂₄⟩ := bind_eq_ok.mp h₂₂
  obtain ⟨-, rfl⟩ := Prod.mk.inj h₂₃
  obtain ⟨-, rfl⟩ := Prod.mk.inj h₂₄
  have hwrite := writesUser_putUserRecord (c := c) h₁₉
  have hbalance := balanceAt_putUserRecord (c := c) h₁₉
  obtain rfl := (keeps_innerExprs (R := Eq) _).of_ok h₁₇
  obtain rfl := putInRadixTree_eq_ok htree
  exact ⟨_, treasury, record, _, ⟨.int n, .int blocks, .int cost, .int last, .raw zero32⟩, n, hread,
    htreasury, hrecord, hwrite, hbalance, rfl, rfl, not_le.mp hamount⟩

/-- A sale puts an unclaimed guarantee of a positive amount into the seller's tree. -/
theorem handleTreasuryGuarantee_eq_success
    (h : handleTreasuryGuarantee c t hash l = (.ok .success, l')) :
    ∃ guarantee amount, l'.HoldsGuarantee c t.sender hash guarantee ∧
      guarantee.claimedBy = .raw zero32 ∧ guarantee.amount = .int amount ∧ 0 < amount := by
  obtain ⟨l₁, account, found, guarantees, guarantee, amount, -, -, -, hwrite, -, hclaimed, hamount,
    hpos⟩ := handleTreasuryGuarantee_run h
  have hheld := (hwrite t.sender).trans (if_pos rfl)
  exact ⟨guarantee, amount, ⟨_, _, hheld, rfl, Dict.get?_insert_self _ _ _⟩, hclaimed, hamount,
    hpos⟩

/-- A borrow names guarantees that no loan has. -/
theorem unclaimed_of_named (h : handleUnsecuredBorrow c t hash request refs l = (.ok .success, l'))
    (hmem : (guarantor, id) ∈ refs) (hload : LoadsGuarantee c l guarantor id guarantee) :
    guarantee.claimedBy = .raw zero32 := by
  obtain ⟨account, record, claimed, loan, hrun, -⟩ := handleUnsecuredBorrow_run h
  obtain ⟨account', record', haccount, hrecord, hguarantee⟩ := hload
  obtain rfl := Option.some.inj (hrun.treasury.symm.trans haccount)
  obtain ⟨state, -, hstate⟩ := hrun.stateOf (List.mem_map_of_mem hmem)
  obtain rfl := Option.some.inj (Except.ok.inj (hstate.loaded.symm.trans hrecord))
  obtain ⟨named, hnamed, hzero, -⟩ := hstate.claims.marked id (mem_idsOf.mpr hmem)
  obtain rfl := Option.some.inj (hnamed.symm.trans hguarantee)
  exact hzero

/-- A guarantee is unclaimed until it backs a loan, and backs no other. -/
theorem GuaranteeRun.backs (hrun : GuaranteeRun guarantor id guarantee backed) :
    (backed = [] ∧ guarantee.claimedBy = .raw zero32) ∨
      ∃ hash, hash ≠ zero32 ∧ backed = [hash] ∧ guarantee.claimedBy = .raw hash := by
  induction hrun with
  | sold h hsender hnew hheld => exact .inl ⟨rfl, hnew⟩
  | named hrun h hself hmem hhash hload hheld ih =>
    have hzero := unclaimed_of_named h hmem hload
    rcases ih with ⟨rfl, -⟩ | ⟨old, hold, -, hclaimed⟩
    · exact .inr ⟨_, hhash, rfl, rfl⟩
    · exact absurd (Val.raw.inj (hclaimed.symm.trans hzero)) hold

end Runs

section Samples

def guaranteeId : Bytes := List.replicate 32 9

def soldGuarantee : TreasuryGuarantee := ⟨.int 3, .int 2, .int 1, .int 9, .raw zero32⟩

def guarantorStake : TreasuryUserRecord :=
  { TreasuryUserRecord.empty with totalInterestPaid := 3, guaranteesRoot := ⟨guaranteeId, none⟩ }

/-- A node that holds the record of a guarantor and the guarantee that it sold. -/
def guaranteeNode : Node :=
  { bareNode with
    stored := fun h => if h = bareNode.hash guarantorStake.expr then some guarantorStake.expr
      else if h = bareNode.hash soldGuarantee.expr then some soldGuarantee.expr else none
    openTree := fun root =>
      if root = guaranteeId then Dict.empty.insert guaranteeId (.hashOf soldGuarantee.expr)
      else .empty }

def guaranteeCtx : Ctx := ⟨guaranteeNode, rateHeader 1⟩

/-- The treasury with the guarantor's record in it. -/
def guaranteedBy (guarantor : Bytes) : Ledger :=
  (blockOf [(treasuryAddress, { createAccount 100 zero32 with
    data := Dict.empty.insert guarantor (.hashOf guarantorStake.expr) }),
    (aliceAddress, createAccount 9 zero32), (bobAddress, createAccount 9 zero32)]).ledger

/-- Alice borrows two payments of 4 on a guarantee. -/
def borrowOn (guarantor : Bytes) : Stateful Ledger Status :=
  handleUnsecuredBorrow guaranteeCtx aliceBorrows aliceHash ⟨.unsecured, .int 1, .int 2⟩
    [(guarantor, guaranteeId)]

end Samples

end Astreum
