import Astreum.Store

namespace Astreum

structure Account where
  balance : Int
  counter : Int
  codeHash : Bytes
  data : Tree
  channels : Tree
  deriving DecidableEq

/-- `create_account`. -/
def createAccount (balance : Int) (codeHash : Bytes) : Account where
  balance := balance
  counter := 0
  codeHash := codeHash
  data := .empty
  channels := .empty

/-- One row of the statistics: the previous and the current window of fees, stake and claims. Row
zero holds the totals since genesis in its first three places. -/
structure Window where
  prevFee : Int
  prevStake : Int
  currFee : Int
  currStake : Int
  prevClaims : Int
  currClaims : Int
  deriving DecidableEq

/-- What is read of the previous block. -/
structure Parent where
  timestamp : Option Int
  height : Int
  statistics : List Window
  storageDifficulty : Int
  deriving DecidableEq

namespace Parent

def cumulativeTotalFee (p : Parent) : Int := (p.statistics.head?.map Window.prevFee).getD 0

def cumulativeStake (p : Parent) : Int := (p.statistics.head?.map Window.prevStake).getD 0

end Parent

/-- The fields of a block that no transaction writes. `accountsTrie` is the accounts tree of the
parent, under the cache. -/
structure Header where
  chainId : Int
  height : Int
  previousBlockHash : Bytes
  previousBlock : Option Parent
  timestamp : Option Int
  accountsTrie : Dict Bytes Account

/-- What a transaction reads and cannot write. -/
structure Ctx where
  node : Node
  header : Header

/-- What `Block.snapshot` copies and `Block.restore` puts back. -/
structure Ledger where
  cache : Dict Bytes Account
  involved : List Bytes
  pendingExprs : List Expr
  globalLoaned : Int
  globalDefaulted : Int
  globalLoanCount : Int
  storageVotes : Int
  storageClaimCount : Int
  deriving DecidableEq

inductive Status where
  | success
  | failed
  deriving DecidableEq, Repr

def Status.code : Status → Int
  | .success => 0
  | .failed => 1

def treasuryAddress : Bytes := List.replicate 32 255

def storageAddress : Bytes := zero32

def providersPerRecord : Nat := 2

section Accounts

variable (c : Ctx)

/-- The account at an address: cached, or else in the tree. -/
def Ledger.account (l : Ledger) (address : Bytes) : Option Account :=
  (l.cache.get? address).or (c.header.accountsTrie.get? address)

/-- `Accounts.get_account`: a read through the cache. -/
def getAccount (address : Bytes) : Stateful Ledger (Option Account) := fun l =>
  match l.cache.get? address with
  | some account => (.ok (some account), l)
  | none => match c.header.accountsTrie.get? address with
    | some account => (.ok (some account), { l with cache := l.cache.insert address account })
    | none => (.ok none, l)

end Accounts

/-- A write through a reference to the account object held at `address`, or through `None`. -/
def mutate (address : Bytes) (f : Account → Account) : Stateful Ledger Unit := fun l =>
  match l.cache.get? address with
  | some account => (.ok (), { l with cache := l.cache.insert address (f account) })
  | none => (.error .attributeError, l)

def addBalance (address : Bytes) (amount : Int) : Stateful Ledger Unit :=
  mutate address fun account => { account with balance := account.balance + amount }

def setData (address : Bytes) (tree : Tree) : Stateful Ledger Unit :=
  mutate address fun account => { account with data := tree }

def setChannels (address : Bytes) (tree : Tree) : Stateful Ledger Unit :=
  mutate address fun account => { account with channels := tree }

/-- A read through a reference to the account object held at `address`, or through `None`. -/
def held (address : Bytes) : Stateful Ledger Account := fun l =>
  match l.cache.get? address with
  | some account => (.ok account, l)
  | none => (.error .attributeError, l)

/-- `Accounts.set_account` with the object that `address` holds already. -/
def involve (address : Bytes) : Stateful Ledger Unit :=
  .update fun l => { l with involved := l.involved.insert address }

/-- `Accounts.set_account`. -/
def setAccount (address : Bytes) (account : Account) : Stateful Ledger Unit :=
  .update fun l =>
    { l with cache := l.cache.insert address account, involved := l.involved.insert address }

def extendPendingExprs (exprs : List Expr) : Stateful Ledger Unit :=
  .update fun l => { l with pendingExprs := l.pendingExprs ++ exprs }

section Views

variable (c : Ctx) (l : Ledger)

theorem Ledger.account_insert (a b : Bytes) (acc : Account) :
    ({ l with cache := l.cache.insert a acc } : Ledger).account c b =
      if a = b then some acc else l.account c b := by
  simp only [Ledger.account, Dict.get?_insert]
  split <;> simp

/-- Reading an account leaves every account as it was. -/
theorem account_getAccount (a b : Bytes) : (getAccount c a l).2.account c b = l.account c b := by
  rcases hc : l.cache.get? a with _ | acc
  · rcases ht : c.header.accountsTrie.get? a with _ | acc
    · simp [getAccount, hc, ht]
    · simp only [getAccount, hc, ht, Ledger.account_insert]
      split
      · subst b
        simp [Ledger.account, hc, ht]
      · rfl
  · simp [getAccount, hc]

theorem getAccount_fst (a : Bytes) : (getAccount c a l).1 = .ok (l.account c a) := by
  rcases hc : l.cache.get? a with _ | acc
  · rcases ht : c.header.accountsTrie.get? a with _ | acc <;>
      simp [getAccount, Ledger.account, hc, ht]
  · simp [getAccount, Ledger.account, hc]

/-- An account that was read stays held. -/
theorem cache_getAccount (a : Bytes) : (getAccount c a l).2.cache.get? a = l.account c a := by
  rcases hc : l.cache.get? a with _ | acc
  · rcases ht : c.header.accountsTrie.get? a with _ | acc <;>
      simp [getAccount, Ledger.account, hc, ht]
  · simp [getAccount, Ledger.account, hc]

/-- Nothing but the cached accounts changed. -/
def Ledger.OnlyCache (l l' : Ledger) : Prop := l' = { l with cache := l'.cache }

theorem Ledger.OnlyCache.trans {l l' l'' : Ledger} (h : l.OnlyCache l') (h' : l'.OnlyCache l'') :
    l.OnlyCache l'' := by
  rw [Ledger.OnlyCache] at h h'
  rw [Ledger.OnlyCache, h', h]

/-- `l'` is `l` after reads: its cache may hold more accounts, as the tree has them. -/
structure Ledger.Read (l l' : Ledger) : Prop where
  account : ∀ a, l'.account c a = l.account c a
  cached : ∀ a acc, l.cache.get? a = some acc → l'.cache.get? a = some acc
  rest : l.OnlyCache l'

theorem Ledger.Read.refl : l.Read c l := ⟨fun _ => rfl, fun _ _ h => h, rfl⟩

variable {c l}

theorem Ledger.Read.trans {l' l'' : Ledger} (h : l.Read c l') (h' : l'.Read c l'') :
    l.Read c l'' where
  account a := (h'.account a).trans (h.account a)
  cached a acc ha := h'.cached a acc (h.cached a acc ha)
  rest := h.rest.trans h'.rest

theorem getAccount_eq_ok {a : Bytes} {r : Option Account} {l' : Ledger}
    (h : getAccount c a l = (.ok r, l')) :
    r = l.account c a ∧ l.Read c l' ∧ l'.cache.get? a = r := by
  have hfst := getAccount_fst c l a
  have hcache := cache_getAccount c l a
  have hview := account_getAccount c l a
  rw [h] at hfst hcache hview
  have hr : r = l.account c a := Except.ok.inj hfst
  refine ⟨hr, ⟨hview, fun b acc hb => ?_, ?_⟩, hcache.trans hr.symm⟩
  · rcases ha : l.cache.get? a with _ | x
    · rcases ht : c.header.accountsTrie.get? a with _ | x <;>
        simp only [getAccount, ha, ht, Prod.mk.injEq] at h
      · rwa [← h.2]
      · have hab : a ≠ b := by
          rintro rfl
          rw [ha] at hb
          cases hb
        rw [← h.2, Dict.get?_insert_of_ne _ _ hab, hb]
    · simp only [getAccount, ha, Prod.mk.injEq] at h
      rwa [← h.2]
  · rcases ha : l.cache.get? a with _ | x
    · rcases ht : c.header.accountsTrie.get? a with _ | x <;>
        simp only [getAccount, ha, ht, Prod.mk.injEq] at h <;> rw [← h.2, Ledger.OnlyCache]
    · simp only [getAccount, ha, Prod.mk.injEq] at h
      rw [← h.2, Ledger.OnlyCache]

theorem mutate_eq_ok {a : Bytes} {f : Account → Account} {l l' : Ledger} :
    mutate a f l = (.ok (), l') ↔
      ∃ acc, l.cache.get? a = some acc ∧ l' = { l with cache := l.cache.insert a (f acc) } := by
  rcases h : l.cache.get? a with _ | acc
  · simp [mutate, h]
  · simp [mutate, h, eq_comm]

/-- A write through a reference changes one account. -/
theorem account_of_mutate {a : Bytes} {f : Account → Account} {l l' : Ledger}
    (h : mutate a f l = (.ok (), l')) (b : Bytes) :
    l'.account c b = (l.account c b).map (if b = a then f else id) := by
  obtain ⟨acc, hacc, rfl⟩ := mutate_eq_ok.mp h
  rw [Ledger.account_insert]
  by_cases hb : a = b
  · subst hb
    simp [Ledger.account, hacc]
  · simp [hb, Ne.symm hb]

theorem rest_of_mutate {a : Bytes} {f : Account → Account} {l l' : Ledger}
    (h : mutate a f l = (.ok (), l')) : l.OnlyCache l' := by
  obtain ⟨acc, -, rfl⟩ := mutate_eq_ok.mp h
  rfl

theorem held_eq_ok {a : Bytes} {acc : Account} {l l' : Ledger} :
    held a l = (.ok acc, l') ↔ l.cache.get? a = some acc ∧ l' = l := by
  rcases h : l.cache.get? a with _ | acc
  · simp [held, h]
  · simp [held, h, eq_comm]

/-- A held account is the one at its address. -/
theorem Ledger.account_of_cached {a : Bytes} {acc : Account} (h : l.cache.get? a = some acc) :
    l.account c a = some acc := by
  simp [Ledger.account, h]

end Views

end Astreum
