import Astreum.StakeBacking

namespace Astreum

open Eff

section Puts

variable (c : Ctx)

/-- What a transaction puts under a key, by its cells. A loan or a guarantee goes into the tree of a
user record. -/
inductive Put where
  | user (key : Bytes) (e : Expr)
  | loan (user loanId : Bytes) (record e : Expr)
  | guarantee (user guaranteeId : Bytes) (record e : Expr)
  | channel (owner counterparty : Bytes) (e : Expr)

/-- The put is the last one under its key. -/
def Ledger.Names (l : Ledger) : Put → Prop
  | .user key e => l.userAt c key = some (.hashOf e)
  | .loan user loanId record e => l.userAt c user = some (.hashOf record) ∧
    ∃ (r : TreasuryUserRecord) (loans : Tree), r.expr = record ∧
      r.loansRoot = pointerTo c.node loans ∧ loans.get? loanId = some (.hashOf e)
  | .guarantee user guaranteeId record e => l.userAt c user = some (.hashOf record) ∧
    ∃ (r : TreasuryUserRecord) (guarantees : Tree), r.expr = record ∧
      r.guaranteesRoot = pointerTo c.node guarantees ∧
      guarantees.get? guaranteeId = some (.hashOf e)
  | .channel owner counterparty e => l.channelAt c owner counterparty = some (.hashOf e)

/-- A transaction that loads the key obtains what was put. -/
def Loaded (l : Ledger) : Put → Prop
  | .user key e => ∃ account r, l.account c treasuryAddress = some account ∧
    loadUserRecord c.node account.data key = .ok (some r) ∧ r.expr = e
  | .loan user loanId record e => ∃ account r loan, l.account c treasuryAddress = some account ∧
    loadUserRecord c.node account.data user = .ok (some r) ∧ r.expr = record ∧
    loadLoanRecord c.node (openTree c.node r.loansRoot) loanId = .ok (some loan) ∧ loan.expr = e
  | .guarantee user guaranteeId record e => ∃ account r guarantee,
    l.account c treasuryAddress = some account ∧
    loadUserRecord c.node account.data user = .ok (some r) ∧ r.expr = record ∧
    TreasuryGuarantee.fromStorage c.node (getFromRadixTree c.node
      (openTree c.node r.guaranteesRoot) guaranteeId) = .ok (some guarantee) ∧ guarantee.expr = e
  | .channel owner counterparty e => ∃ account channel, l.account c owner = some account ∧
    Channel.fromStorage c.node (getFromRadixTree c.node account.channels counterparty) =
      .ok (some channel) ∧ channel.expr = e

/-- Storage holds what is put: a record under the hash of its cells, and a loan or a guarantee in
the tree under the root that the record names. -/
def Node.Stores (node : Node) : Put → Prop
  | .user _ e => ∃ r, TreasuryUserRecord.fromStorage node (getExpr node (node.hash e)) =
    .ok (some r) ∧ r.expr = e
  | .loan _ loanId record e => ∃ r loan,
    TreasuryUserRecord.fromStorage node (getExpr node (node.hash record)) = .ok (some r) ∧
    r.expr = record ∧
    loadLoanRecord node (Astreum.openTree node r.loansRoot) loanId = .ok (some loan) ∧
    loan.expr = e
  | .guarantee _ guaranteeId record e => ∃ r guarantee,
    TreasuryUserRecord.fromStorage node (getExpr node (node.hash record)) = .ok (some r) ∧
    r.expr = record ∧ TreasuryGuarantee.fromStorage node (getFromRadixTree node
      (Astreum.openTree node r.guaranteesRoot) guaranteeId) = .ok (some guarantee) ∧
    guarantee.expr = e
  | .channel _ _ e => ∃ channel, Channel.fromStorage node (getExpr node (node.hash e)) =
    .ok (some channel) ∧ channel.expr = e

variable {c} {l l' : Ledger}

/-- What the treasury's tree names by its hash is read from storage. -/
theorem exists_load_of_named {user : Bytes} {record : Expr}
    (h : l.userAt c user = some (.hashOf record)) :
    ∃ account, l.account c treasuryAddress = some account ∧
      loadUserRecord c.node account.data user =
        TreasuryUserRecord.fromStorage c.node (getExpr c.node (c.node.hash record)) := by
  rw [Ledger.userAt] at h
  rcases haccount : l.account c treasuryAddress with _ | account
  · rw [haccount] at h
    cases h
  · rw [haccount, Option.map_some, Option.bind_some] at h
    refine ⟨account, rfl, ?_⟩
    rw [loadUserRecord, getFromRadixTree, h]

/-- What is put last is loaded when storage holds it, and only then. -/
theorem loaded_iff {p : Put} (h : l.Names c p) : Loaded c l p ↔ c.node.Stores p := by
  cases p with
  | user key e =>
    obtain ⟨account, haccount, hload⟩ := exists_load_of_named h
    constructor
    · rintro ⟨account', r, haccount', hr, hexpr⟩
      obtain rfl := Option.some.inj (haccount.symm.trans haccount')
      exact ⟨r, hload.symm.trans hr, hexpr⟩
    · rintro ⟨r, hr, hexpr⟩
      exact ⟨account, r, haccount, hload.trans hr, hexpr⟩
  | loan user loanId record e =>
    obtain ⟨account, haccount, hload⟩ := exists_load_of_named h.1
    constructor
    · rintro ⟨account', r, loan, haccount', hr, hexpr, hloan⟩
      obtain rfl := Option.some.inj (haccount.symm.trans haccount')
      exact ⟨r, loan, hload.symm.trans hr, hexpr, hloan⟩
    · rintro ⟨r, loan, hr, hexpr, hloan⟩
      exact ⟨account, r, loan, haccount, hload.trans hr, hexpr, hloan⟩
  | guarantee user guaranteeId record e =>
    obtain ⟨account, haccount, hload⟩ := exists_load_of_named h.1
    constructor
    · rintro ⟨account', r, guarantee, haccount', hr, hexpr, hguarantee⟩
      obtain rfl := Option.some.inj (haccount.symm.trans haccount')
      exact ⟨r, guarantee, hload.symm.trans hr, hexpr, hguarantee⟩
    · rintro ⟨r, guarantee, hr, hexpr, hguarantee⟩
      exact ⟨account, r, guarantee, haccount, hload.trans hr, hexpr, hguarantee⟩
  | channel owner counterparty e =>
    obtain ⟨account, haccount, hvalue⟩ : ∃ account, l.account c owner = some account ∧
        account.channels.get? counterparty = some (.hashOf e) := by
      have hat : l.channelAt c owner counterparty = some (.hashOf e) := h
      rw [Ledger.channelAt] at hat
      rcases haccount : l.account c owner with _ | account
      · rw [haccount] at hat
        cases hat
      · rw [haccount] at hat
        exact ⟨account, rfl, hat⟩
    have hload : getFromRadixTree c.node account.channels counterparty =
        getExpr c.node (c.node.hash e) := by rw [getFromRadixTree, hvalue]
    constructor
    · rintro ⟨account', channel, haccount', hchannel, hexpr⟩
      obtain rfl := Option.some.inj (haccount.symm.trans haccount')
      exact ⟨channel, hload ▸ hchannel, hexpr⟩
    · rintro ⟨channel, hchannel, hexpr⟩
      exact ⟨account, channel, haccount, hload ▸ hchannel, hexpr⟩

theorem Ledger.HoldsLoan.names {user loanId : Bytes} {loan : TreasuryLoanRecord} {interest : Int}
    (h : l.HoldsLoan c user loanId loan interest) :
    ∃ record, l.Names c (.loan user loanId record loan.expr) := by
  obtain ⟨record, loans, hat, hroot, -⟩ := h
  exact ⟨record.expr, hat, record, _, rfl, hroot, Dict.get?_insert_self _ _ _⟩

theorem Ledger.HoldsGuarantee.names {user id : Bytes} {guarantee : TreasuryGuarantee}
    (h : l.HoldsGuarantee c user id guarantee) :
    ∃ record, l.Names c (.guarantee user id record guarantee.expr) := by
  obtain ⟨record, guarantees, hat, hroot, hget⟩ := h
  exact ⟨record.expr, hat, record, guarantees, rfl, hroot, hget⟩

theorem Ledger.WritesChannel.names {owner counterparty : Bytes} {channel : Channel}
    (h : l.WritesChannel c l' owner counterparty channel) :
    l'.Names c (.channel owner counterparty channel.expr) :=
  (h owner counterparty).trans (if_pos ⟨rfl, rfl⟩)

end Puts

section Codes

variable {c : Ctx} {t : Transaction} {g : Guarded} {r : Handled} {l l' : Ledger}

/-- Where a transaction of each code puts something when it succeeds. -/
def PutsAt (t : Transaction) (hash : Bytes) : Put → Prop
  | .user key _ => t.code = .treasuryDeposit ∧ key = t.sender
  | .loan user loanId _ _ =>
    (t.code = .treasuryBorrow ∧ user = t.sender ∧ loanId = hash) ∨
    (t.code ∈ [.treasuryRepay, .treasuryClose] ∧ user = t.sender) ∨
    t.code ∈ [.treasuryBuy, .treasuryClaim]
  | .guarantee user id _ _ => t.code = .treasuryGuarantee ∧ user = t.sender ∧ id = hash
  | .channel owner counterparty _ =>
    (t.code ∈ [.channelUpdate, .channelClose] ∧ owner = t.sender) ∨
    (t.code = .channelWithdraw ∧ owner = t.recipient ∧ counterparty = t.sender)

/-- A transaction of these codes that succeeds leaves something put last. -/
theorem names_of_success (hreads : c.node.ReadsUsers) {nested : Bool} {keys : List Bytes}
    {apply : NestedApply} {hash : Bytes} (hcode : t.code ∈ treasuryCodes ++ channelCodes)
    (hdeposit : t.code = .treasuryDeposit → t.recipient = treasuryAddress)
    (h : runHandler c t nested keys apply hash g l = (.ok r, l')) (hs : r.status = .success) :
    ∃ p, PutsAt t hash p ∧ l'.Names c p := by
  rw [runHandler] at h
  simp only [treasuryCodes, channelCodes, List.mem_append, List.mem_cons, List.not_mem_nil,
    or_false] at hcode
  rcases hcode with (hc | hc | hc | hc | hc | hc | hc) | hc | hc | hc <;> simp only [hc] at h
  · obtain ⟨l₁, -, -, heffect⟩ := applyTreasuryDeposit_eq_success h hs
    rcases heffect with ⟨hother, -⟩ | ⟨account, record, -, -, hwrite, -⟩
    · exact absurd (hdeposit hc) hother
    · exact ⟨.user t.sender _, ⟨hc, rfl⟩, (hwrite t.sender).trans (if_pos rfl)⟩
  · obtain ⟨l₁, hread, hrun⟩ := applyTreasury_eq_success h hs
    obtain ⟨loan, interest, -, hheld⟩ := handleTreasuryBorrow_eq_success hrun
    obtain ⟨record, hnames⟩ := hheld.names
    exact ⟨.loan t.sender hash record loan.expr, .inl ⟨hc, rfl, rfl⟩, hnames⟩
  · obtain ⟨l₁, hread, hrun⟩ := applyTreasury_eq_success h hs
    obtain ⟨loanId, o, loan, n, interest, -, -, -, -, hheld⟩ :=
      handleTreasuryRepay_eq_success hreads hrun
    obtain ⟨record, hnames⟩ := hheld.names
    exact ⟨.loan t.sender loanId record _, .inr (.inl ⟨by simp [hc], rfl⟩), hnames⟩
  · obtain ⟨l₁, hread, hrun⟩ := applyTreasury_eq_success h hs
    obtain ⟨loanId, o, missed, -, hheld⟩ := handleTreasuryClose_eq_success hreads hrun
    obtain ⟨record, hnames⟩ := hheld.names
    exact ⟨.loan t.sender loanId record _, .inr (.inl ⟨by simp [hc], rfl⟩), hnames⟩
  · obtain ⟨l₁, hread, hrun⟩ := applyTreasury_eq_success h hs
    obtain ⟨guarantee, amount, hheld, -⟩ := handleTreasuryGuarantee_eq_success hrun
    obtain ⟨record, hnames⟩ := hheld.names
    exact ⟨.guarantee t.sender hash record guarantee.expr, ⟨hc, rfl, rfl⟩, hnames⟩
  · obtain ⟨l₁, hread, hrun⟩ := applyTreasury_eq_success h hs
    obtain ⟨borrower, loanId, o, -, hheld⟩ := handleTreasuryBuy_eq_success hrun
    obtain ⟨record, hnames⟩ := hheld.names
    exact ⟨.loan borrower loanId record _, .inr (.inr (by simp [hc])), hnames⟩
  · obtain ⟨l₁, hread, hrun⟩ := applyTreasury_eq_success h hs
    obtain ⟨borrower, loanId, o, loan, n, -, -, hheld⟩ := handleTreasuryClaim_eq_success hrun
    obtain ⟨record, hnames⟩ := hheld.names
    exact ⟨.loan borrower loanId record _, .inr (.inr (by simp [hc])), hnames⟩
  · obtain ⟨counterparty, window, -, hrun⟩ := applyChannelUpdate_eq_ok h hs
    obtain ⟨_, _, _, _, _, -, -, -, -, -, -, -, hwrite⟩ := handleChannelUpdate_eq_true hrun
    exact ⟨.channel t.sender counterparty _, .inl ⟨by simp [hc], rfl⟩, hwrite.names⟩
  · obtain ⟨l₁, -, hrun⟩ := applyChannelWithdraw_eq_ok h hs
    obtain ⟨_, _, _, _, _, _, _, _, _, _, _, -, -, -, -, -, -, -, -, -, -, -, -, -, -, hwrite⟩ :=
      handleChannelWithdraw_eq_true hrun
    exact ⟨.channel t.recipient t.sender _, .inr ⟨hc, rfl, rfl⟩, hwrite.names⟩
  · obtain ⟨counterparty, -, hrun⟩ := applyChannelClose_eq_ok h hs
    obtain ⟨_, _, _, _, _, -, -, -, -, -, -, hwrite⟩ := handleChannelClose_eq_true hrun
    exact ⟨.channel t.sender counterparty _, .inl ⟨by simp [hc], rfl⟩, hwrite.names⟩

end Codes

section Runs

/-- The transactions of one block: it starts with all that is named in storage, storage holds all
that a transaction of these codes puts, and others leave what is named. -/
inductive BlockRun (c : Ctx) : Ledger → Prop
  | start {l : Ledger} (h : ∀ p, l.Names c p → c.node.Stores p) : BlockRun c l
  | transaction {t : Transaction} {g : Guarded} {r : Handled} {l l' : Ledger} {nested : Bool}
      {keys : List Bytes} {apply : NestedApply} {hash : Bytes} (run : BlockRun c l)
      (hcode : t.code ∈ treasuryCodes ++ channelCodes)
      (h : runHandler c t nested keys apply hash g l = (.ok r, l')) (hs : r.status = .success)
      (hputs : ∀ p, l'.Names c p → ¬l.Names c p → c.node.Stores p) : BlockRun c l'
  | other {l l' : Ledger} (run : BlockRun c l) (h : ∀ p, l'.Names c p → l.Names c p) :
      BlockRun c l'

variable {c : Ctx} {l : Ledger}

/-- Along such a run storage holds all that is named. -/
theorem BlockRun.stores (run : BlockRun c l) : ∀ p, l.Names c p → c.node.Stores p := by
  induction run with
  | start h => exact h
  | @transaction t g r l l' nested keys apply hash run hcode h hs hputs ih =>
    intro p hp
    by_cases hold : l.Names c p
    · exact ih p hold
    · exact hputs p hp hold
  | other run h ih => exact fun p hp => ih p (h p hp)

end Runs

section Samples

def stakedCtx : Ctx := ⟨loanNode aliceStake aliceLoan, rateHeader 1⟩

def aliceDeposits : Transaction := aliceSends .treasuryDeposit treasuryAddress 5

/-- What the deposit puts. -/
def raisedStake : Put := .user aliceAddress { aliceStake with balance := 25 }.expr

theorem refTo_injective {a b : Bytes} (h : refTo a = refTo b) : a = b :=
  Child.byHash.inj (Expr.link.inj h).2.1

/-- A record without trees names no loan and no guarantee. -/
theorem not_named_of_bare {record : TreasuryUserRecord} {id : Bytes} {e : Expr} {tree : Tree}
    {root : Pointer} (hroot : root.rootItem = refTo zero32)
    (hpointer : root = pointerTo (loanNode record aliceLoan) tree) :
    tree.get? id ≠ some (.hashOf e) := by
  rw [hpointer] at hroot
  have hzero : (loanNode record aliceLoan).treeRoot tree = zero32 := refTo_injective hroot
  have hempty : tree = .empty := by
    by_contra hne
    change (if tree = .empty then zero32 else aliceHash) = zero32 at hzero
    rw [if_neg hne] at hzero
    exact absurd hzero (by decide)
  rw [hempty]
  nofun

theorem channels_treasuryWith {owner : Bytes} {account : Account}
    (h : (treasuryWith aliceStake).account stakedCtx owner = some account) :
    account.channels = .empty := by
  have hnone : stakedCtx.header.accountsTrie.get? owner = none := rfl
  rw [Ledger.account, hnone, Option.or_none] at h
  obtain hmem := Dict.get?_eq_some.mp h
  have hall : ∀ p ∈ (treasuryWith aliceStake).cache.pairs, p.2.channels = .empty := by
    decide
  exact hall _ hmem

/-- At the start of the block storage holds Alice's record. -/
theorem blockRun_alice : BlockRun stakedCtx (treasuryWith aliceStake) := by
  have hat : ∀ user e, (treasuryWith aliceStake).userAt stakedCtx user = some (.hashOf e) →
      e = aliceStake.expr := by
    intro user e h
    rw [userAt_eq_get?] at h
    change (Dict.empty.insert aliceAddress (TreeValue.hashOf aliceStake.expr)).get? user = _ at h
    rw [Dict.get?_insert] at h
    split at h
    · exact (TreeValue.hashOf.inj (Option.some.inj h)).symm
    · cases h
  refine .start fun p hp => ?_
  cases p with
  | user key e =>
    obtain rfl := hat key e hp
    exact ⟨aliceStake, by decide +kernel, rfl⟩
  | loan user loanId record e =>
    obtain ⟨hnamed, r, loans, hexpr, hroot, hget⟩ := hp
    obtain rfl := hat user record hnamed
    have hroots : r.loansRoot.rootItem = refTo zero32 := by
      simp only [TreasuryUserRecord.expr, link, Expr.link.injEq, Child.loaded.injEq] at hexpr
      exact hexpr.2.2.2.1
    exact absurd hget (not_named_of_bare hroots hroot)
  | guarantee user guaranteeId record e =>
    obtain ⟨hnamed, r, guarantees, hexpr, hroot, hget⟩ := hp
    obtain rfl := hat user record hnamed
    have hroots : r.guaranteesRoot.rootItem = refTo zero32 := by
      simp only [TreasuryUserRecord.expr, link, Expr.link.injEq, Child.loaded.injEq] at hexpr
      exact hexpr.2.2.2.2.2.2.2.1
    exact absurd hget (not_named_of_bare hroots hroot)
  | channel owner counterparty e =>
    have hp : (treasuryWith aliceStake).channelAt stakedCtx owner counterparty = _ := hp
    rw [Ledger.channelAt] at hp
    rcases haccount : (treasuryWith aliceStake).account stakedCtx owner with _ | account
    · rw [haccount] at hp
      cases hp
    · rw [haccount, Option.map_some, Option.bind_some, channels_treasuryWith haccount] at hp
      cases hp

end Samples

end Astreum
