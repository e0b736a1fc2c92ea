import Astreum.Counters

namespace Astreum

open Eff

section Worth

variable (node : Node)

/-- The balance that the cells of a channel record state. -/
def statedBalance (record : Expr) : Option Int :=
  match recordNodes node (some record) with
  | .ok (some [balance, _, _]) => match getExprValue node balance with
    | .ok (.int n) => some n
    | _ => none
  | _ => none

/-- The balance that a channel record keeps. A record named by its hash is the one in storage, or
the one written here while storage does not have it yet. -/
def recordedBalance : TreeValue → Int
  | .expr e => (statedBalance node e).getD 0
  | .hashOf e => (((getExpr node (node.hash e)).bind (statedBalance node)).or
      (statedBalance node e)).getD 0

/-- What an account and its channels hold. -/
def Account.worth (a : Account) : Int := a.balance + a.channels.sum fun _ v => recordedBalance node v

/-- What is stored under the hash of a channel record states the balance of this record. -/
def Node.KeepsRecords : Prop :=
  ∀ (channel : Channel) record n, getExpr node (node.hash channel.expr) = some record →
    statedBalance node record = some n → channel.balance = .int n

theorem worth_createAccount (balance : Int) (codeHash : Bytes) :
    (createAccount balance codeHash).worth node = balance := by
  simp [Account.worth, createAccount, Dict.sum, Dict.empty]

theorem worth_addBalance (a : Account) (n : Int) :
    ({ a with balance := a.balance + n } : Account).worth node = a.worth node + n := by
  simp only [Account.worth]
  ring

variable {node}

/-- A record that is read with a balance states it. -/
theorem statedBalance_of_fromStorage {record : Expr} {channel : Channel} {n : Int}
    (h : Channel.fromStorage node (some record) = .ok (some channel))
    (hn : channel.balance = .int n) : statedBalance node record = some n := by
  obtain ⟨nodes, hnodes, h⟩ := except_bind_eq_ok.mp h
  rcases nodes with _ | nodes
  · cases h
  simp only at h
  split at h
  · rename_i balance counter window
    split at h
    · cases h
    · obtain rfl := Option.some.inj (Except.ok.inj h)
      have hvalue : getExprValue node balance = .ok (.int n) := by
        simp only at hn
        simp [getExprValue, hn]
      simp [statedBalance, hnodes, hvalue]
  · cases h

theorem recordedBalance_of_read {tree : Tree} {key : Bytes} {channel : Channel} {n : Int}
    (h : Channel.fromStorage node (getFromRadixTree node tree key) = .ok (some channel))
    (hn : channel.balance = .int n) :
    ∃ v, tree.get? key = some v ∧ recordedBalance node v = n := by
  rcases hv : tree.get? key with _ | v
  · simp only [getFromRadixTree, hv, Channel.fromStorage, recordNodes] at h
    cases h
  refine ⟨v, rfl, ?_⟩
  cases v with
  | expr e =>
    simp only [getFromRadixTree, hv] at h
    simp [recordedBalance, statedBalance_of_fromStorage h hn]
  | hashOf e =>
    simp only [getFromRadixTree, hv] at h
    rcases he : getExpr node (node.hash e) with _ | record
    · rw [he] at h
      simp only [Channel.fromStorage, recordNodes] at h
      cases h
    · rw [he] at h
      simp [recordedBalance, he, statedBalance_of_fromStorage h hn]

end Worth

section Supply

variable (c : Ctx)

/-- What all accounts of a ledger hold: the cached ones, and the others of the tree. -/
def Ledger.supply (l : Ledger) : Int :=
  l.cache.sum (fun _ a => a.worth c.node) +
    c.header.accountsTrie.sumOn (fun a => (l.cache.get? a).isNone) fun _ a => a.worth c.node

/-- What an address holds. -/
def Ledger.worthAt (l : Ledger) (address : Bytes) : Int :=
  (l.account c address).elim 0 (Account.worth c.node)

theorem supply_insert (l : Ledger) (a : Bytes) (account : Account) :
    ({ l with cache := l.cache.insert a account } : Ledger).supply c =
      l.supply c + account.worth c.node - l.worthAt c a := by
  rcases ha : l.cache.get? a with _ | old
  · have hsum := Dict.sumOn_exclude (fun _ x => x.worth c.node) c.header.accountsTrie
      (fun b => (l.cache.get? b).isNone) a (by simp [ha])
    have hpred : (fun b => ((l.cache.insert a account).get? b).isNone) =
        fun b => (l.cache.get? b).isNone && decide (b ≠ a) := by
      funext b
      rw [Dict.get?_insert]
      by_cases hb : a = b
      · simp [hb]
      · simp [hb, Ne.symm hb]
    simp only [Ledger.supply, Ledger.worthAt, Ledger.account, Dict.sum_insert, ha, hpred, hsum,
      Option.none_or, Option.elim_none]
    ring
  · have hpred : (fun b => ((l.cache.insert a account).get? b).isNone) =
        fun b => (l.cache.get? b).isNone := by
      funext b
      rw [Dict.get?_insert]
      by_cases hb : a = b
      · subst hb
        simp [ha]
      · simp [hb]
    simp only [Ledger.supply, Ledger.worthAt, Ledger.account, Dict.sum_insert, ha, hpred,
      Option.some_or, Option.elim_some]
    ring

variable {c} {l l' : Ledger}

theorem supply_of_cache (h : l'.cache = l.cache) : l'.supply c = l.supply c := by
  simp only [Ledger.supply, h]

theorem supply_mutate {a : Bytes} {f : Account → Account} (h : mutate a f l = (.ok (), l')) :
    ∃ account, l.cache.get? a = some account ∧
      l'.supply c = l.supply c + (f account).worth c.node - account.worth c.node := by
  obtain ⟨account, ha, rfl⟩ := mutate_eq_ok.mp h
  refine ⟨account, ha, ?_⟩
  rw [supply_insert, Ledger.worthAt, Ledger.account_of_cached ha]
  rfl

theorem supply_addBalance {a : Bytes} {n : Int} (h : addBalance a n l = (.ok (), l')) :
    l'.supply c = l.supply c + n := by
  obtain ⟨account, -, hl'⟩ := supply_mutate (c := c) h
  rw [hl', worth_addBalance]
  ring

theorem supply_setAccount {a : Bytes} (account : Account) (h : l.account c a = none) :
    (setAccount a account l).2.supply c = l.supply c + account.worth c.node := by
  have hins := supply_insert c l a account
  rw [Ledger.worthAt, h, Option.elim_none, Int.sub_zero] at hins
  exact hins

theorem supply_getAccount (a : Bytes) : (getAccount c a l).2.supply c = l.supply c := by
  rcases hc : l.cache.get? a with _ | account
  · rcases ht : c.header.accountsTrie.get? a with _ | account
    · simp [getAccount, hc, ht]
    · have hins := supply_insert c l a account
      simp only [getAccount, hc, ht]
      rw [hins, Ledger.worthAt, Ledger.account, hc, Option.none_or, ht, Option.elim_some]
      ring
  · simp [getAccount, hc]

variable (c)

/-- The accounts hold as much as before, and none has vanished. -/
def Ledger.Balanced (l l' : Ledger) : Prop := l'.supply c = l.supply c ∧ l.Grows c l'

instance : IsPreorder Ledger (Ledger.Balanced c) where
  refl l := ⟨rfl, refl_of _ l⟩
  trans _ _ _ h h' := ⟨h'.1.trans h.1, trans_of _ h.2 h'.2⟩

variable {c}

theorem balanced_mutate (a : Bytes) {f : Account → Account}
    (hf : ∀ account, (f account).worth c.node = account.worth c.node)
    (hcounter : ∀ account, account.counter ≤ (f account).counter) :
    Keeps (Ledger.Balanced c) (mutate a f) := by
  intro l
  refine ⟨?_, grows_mutate a hcounter l⟩
  rcases h : mutate a f l with ⟨_ | _, l'⟩
  · rw [mutate] at h
    split at h
    · cases h
    · obtain ⟨-, rfl⟩ := Prod.mk.inj h
      rfl
  · obtain ⟨account, -, hl'⟩ := supply_mutate (c := c) h
    change l'.supply c = _
    rw [hl', hf]
    ring

theorem balanced_neutral : Neutral c (Ledger.Balanced c) where
  read a l := ⟨supply_getAccount a, grows_getAccount a l⟩
  data a _ := balanced_mutate a (fun _ => rfl) fun _ => le_rfl
  rest _ hf l := ⟨supply_of_cache (hf l), grows_update hf l⟩

end Supply

end Astreum
