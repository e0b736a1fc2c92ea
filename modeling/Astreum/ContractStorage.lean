import Astreum.SequenceLaws
import Astreum.CheckedOperators
import Mathlib.Logic.Relation

namespace Astreum

open Core Eff

section Put

variable {call : Call} {key value : Bytes} {e : Expr} {l l' : Ledger}

/-- An account once the sender of the call has paid a storage fee. -/
def Account.afterFee (call : Call) (fee : Int) (a : Bytes) (account : Account) : Account :=
  { account with
    balance := account.balance - (if a = call.tx.sender then fee else 0) +
      (if a = storageAddress then fee else 0) }

/-- An account once `acc.put` has written. -/
def Account.afterPut (call : Call) (fee : Int) (key : Bytes) (e : Expr) (a : Bytes)
    (account : Account) : Account :=
  { account.afterFee call fee a with
    data := if a = call.tx.recipient then account.data.insert key (.expr e) else account.data }

theorem afterFee_eq (a : Bytes) (fee : Int) (account : Account) :
    (if a = storageAddress then
        fun account : Account => { account with balance := account.balance + fee } else id)
      ((if a = call.tx.sender then
        fun account : Account => { account with balance := account.balance + -fee } else id)
        account) = account.afterFee call fee a := by
  rw [Account.afterFee]
  split <;> split <;> simp [Int.sub_eq_add_neg]

theorem getAccount_reads (c : Ctx) (l : Ledger) (a : Bytes) :
    ∃ l', getAccount c a l = (.ok (l.account c a), l') ∧ l.Read c l' ∧
      l'.cache.get? a = l.account c a := by
  have h := eq_of_fst (getAccount_fst c l a)
  obtain ⟨-, hread, hheld⟩ := getAccount_eq_ok h
  exact ⟨_, h, hread, hheld⟩

theorem error_of_calculateStorageFee {header : Header} {n : Int} {err : PyError}
    (h : calculateStorageFee header n = .error err) : err = .valueError := by
  rw [calculateStorageFee] at h
  split at h
  · cases h
  · dsimp only at h
    split at h <;> cases h
    rfl

theorem mutate_outcome (a : Bytes) (f : Account → Account) (l : Ledger) :
    (l.cache.get? a = none ∧ mutate a f l = (.error .attributeError, l)) ∨
      ∃ account, l.cache.get? a = some account ∧
        mutate a f l = (.ok (), { l with cache := l.cache.insert a (f account) }) := by
  rcases h : l.cache.get? a with - | account
  · exact .inl ⟨rfl, by rw [mutate, h]⟩
  · exact .inr ⟨account, rfl, by rw [mutate, h]⟩

/-- How `acc.put` ends, but for the errors that end its transaction: it writes, or the tree raises
an `IndexError` after the fee was moved. -/
theorem accPut_outcome {r : Except PyError Unit} (h : accPut call key value e l = (r, l'))
    (hsoft : ∀ err, r = .error err → (errorValue err).isSome) :
    ∃ account fee, l.account call.ctx call.tx.recipient = some account ∧
      (l.account call.ctx call.tx.sender).isSome ∧ (l.account call.ctx storageAddress).isSome ∧
      calculateStorageFee call.ctx.header (key.length + value.length) = .ok fee ∧
      ((endsInsideNode account.data key = false ∧ r = .ok () ∧
          ∀ a, l'.account call.ctx a =
            (l.account call.ctx a).map (Account.afterPut call fee key e a)) ∨
        (endsInsideNode account.data key = true ∧ r = .error .indexError ∧
          ∀ a, l'.account call.ctx a =
            (l.account call.ctx a).map (Account.afterFee call fee a))) := by
  have hhard : ∀ err, errorValue err = none → r ≠ .error err := by
    intro err hnone hr
    have hsome := hsoft err hr
    rw [hnone] at hsome
    cases hsome
  rw [accPut] at h
  obtain ⟨l₁, h₁, hread₁, -⟩ := getAccount_reads call.ctx l call.tx.recipient
  rw [bind_of_ok h₁] at h
  rcases haccount : l.account call.ctx call.tx.recipient with - | account
  · rw [haccount] at h
    cases h
    exact absurd rfl (hhard _ rfl)
  rw [haccount, when_bind (by simp)] at h
  obtain ⟨l₂, h₂, hread₂, hheld₂⟩ := getAccount_reads call.ctx l₁ call.tx.sender
  have hl₂ := hread₁.trans hread₂
  rw [bind_of_ok h₂] at h
  rw [hread₁.account] at h hheld₂
  rcases hsender : l.account call.ctx call.tx.sender with - | sender
  · rw [hsender] at h
    cases h
    exact absurd rfl (hhard _ rfl)
  rw [hsender] at h hheld₂
  dsimp only at h
  obtain ⟨l₃, h₃, hread₃, hheld₃⟩ := getAccount_reads call.ctx l₂ storageAddress
  have hl₃ := hl₂.trans hread₃
  rw [bind_of_ok h₃] at h
  rcases hfee : calculateStorageFee call.ctx.header (key.length + value.length) with err | fee
  · rw [hfee] at h
    cases h
    obtain rfl := error_of_calculateStorageFee hfee
    exact absurd rfl (hhard _ rfl)
  rw [hfee, ofExcept_ok_bind] at h
  by_cases hpoor : sender.balance < fee
  · rw [Eff.when, if_pos hpoor] at h
    cases h
    exact absurd rfl (hhard _ rfl)
  rw [when_bind hpoor] at h
  -- the sender is held, so that it pays
  obtain ⟨hnone, -⟩ | ⟨account₄, -, h₄⟩ := mutate_outcome call.tx.sender
    (fun account => { account with balance := account.balance + -fee }) l₃
  · rw [hread₃.cached _ _ hheld₂] at hnone
    cases hnone
  have hpaid := account_of_mutate (c := call.ctx) h₄
  rw [addBalance, bind_of_ok h₄] at h
  generalize hl₄ : ({ l₃ with cache := _ } : Ledger) = l₄ at h h₄ hpaid
  obtain ⟨-, h₅⟩ | ⟨account₅, hheld₅, h₅⟩ := mutate_outcome storageAddress
    (fun account => { account with balance := account.balance + fee }) l₄
  · rw [addBalance, bind_of_error h₅] at h
    cases h
    exact absurd rfl (hhard _ rfl)
  have hearned := account_of_mutate (c := call.ctx) h₅
  rw [addBalance, bind_of_ok h₅] at h
  generalize hl₅ : ({ l₄ with cache := _ } : Ledger) = l₅ at h h₅ hearned
  have hmoved : ∀ a, l₅.account call.ctx a =
      (l.account call.ctx a).map (Account.afterFee call fee a) := by
    intro a
    rw [hearned, hpaid, hl₃.account, Option.map_map]
    exact congrArg (Option.map · _) (funext fun account => afterFee_eq a fee account)
  have hstorage : (l.account call.ctx storageAddress).isSome := by
    have hsome := Ledger.account_of_cached (c := call.ctx) hheld₅
    rw [hpaid, hl₃.account, Option.map_eq_some_iff] at hsome
    obtain ⟨account, hsome, -⟩ := hsome
    exact Option.isSome_iff_exists.mpr ⟨account, hsome⟩
  refine ⟨account, fee, rfl, rfl, hstorage, rfl, ?_⟩
  rcases hcached : l₅.cache.get? call.tx.recipient with - | account₅
  · have hheld : held call.tx.recipient l₅ = (.error .attributeError, l₅) := by rw [held, hcached]
    rw [bind_of_error hheld] at h
    cases h
    exact absurd rfl (hhard _ rfl)
  obtain rfl : account₅ = account.afterFee call fee call.tx.recipient := by
    have hsome := Ledger.account_of_cached (c := call.ctx) hcached
    rw [hmoved, haccount] at hsome
    exact (Option.some.inj hsome).symm
  rw [bind_of_ok (held_eq_ok.mpr ⟨hcached, rfl⟩)] at h
  have hdata : (account.afterFee call fee call.tx.recipient).data = account.data := rfl
  rcases hends : endsInsideNode account.data key with - | -
  · left
    rw [hdata, putInRadixTree, hends, if_neg (by decide), ofExcept_ok_bind] at h
    obtain ⟨hnone, -⟩ | ⟨account₆, hheld₆, h₆⟩ := mutate_outcome call.tx.recipient
      (fun a => { a with data := account.data.insert key (.expr e) }) l₅
    · rw [hcached] at hnone
      cases hnone
    have hwritten := account_of_mutate (c := call.ctx) h₆
    rw [setData, bind_of_ok h₆] at h
    cases h
    refine ⟨rfl, rfl, fun a => ?_⟩
    refine (hwritten a).trans ?_
    rw [hmoved, Option.map_map]
    by_cases ha : a = call.tx.recipient
    · subst ha
      rw [haccount]
      simp [Account.afterPut]
    · rw [if_neg ha]
      simp only [Function.id_comp]
      refine congrArg (Option.map · _) (funext fun account => ?_)
      rw [Account.afterPut, if_neg ha]
      rfl
  · right
    rw [hdata, putInRadixTree, hends, if_pos rfl] at h
    cases h
    exact ⟨rfl, rfl, hmoved⟩

end Put

section Calls

/-- A call that a contract makes to its storage. -/
inductive StorageCall where
  | put (key value : Bytes)
  | get (key : Bytes)

namespace StorageCall

def args : StorageCall → List Expr
  | put key value => [.bytes key, .bytes value]
  | get key => [.bytes key]

def symbol : StorageCall → String
  | put _ _ => "acc.put"
  | get _ => "acc.get"

def op (call : Call) : StorageCall → MachineOp
  | put _ _ => handleStackAccPut call
  | get _ => handleStackAccGet call

/-- The call as the evaluator makes it, with its operands on the stack. -/
def run (call : Call) (s : StorageCall) (m : Machine) : Except PyError Unit × Machine :=
  orNil (s.op call) { m with core := m.core.pushing s.args }

theorem evaluation_symbol (call : Call) (apply : NestedApply) (n : Nat) (s : StorageCall) :
    evaluation call apply (n + 1) (.symbol s.symbol) = orNil (s.op call) := by
  have hblocked : s.symbol ∉ blockedOperators := by cases s <;> exact of_decide_eq_true rfl
  have hmem : (s.symbol, s.op call) ∈ operators call apply (evaluation call apply n) n := by
    apply List.mem_append_right
    apply List.mem_append_left
    cases s <;> simp [blockOperators, symbol, op]
  apply evaluation_operator
  rw [applyOperator_eq call apply _ _ hblocked]
  exact lookupPair_of_mem (nodup_operators call apply _ _) hmem

end StorageCall

variable {call : Call} {key value : Bytes} {m m' : Machine}

theorem chargeBytes_outcome (n : Int) (c : Core) :
    (∃ c', chargeBytes n c = (.ok (), c') ∧ c'.stack = c.stack) ∨
      chargeBytes n c = (.error .meterExceeded, c) := by
  rw [chargeBytes, charge, read_bind]
  by_cases h : c.meter.limit < c.meter.total + max 0 n
  · right
    rw [Eff.when, if_pos h]
    rfl
  · left
    rw [when_bind h]
    exact ⟨_, rfl, rfl⟩

theorem stack_of_chargeBytes {n : Int} {c c' : Core} (h : chargeBytes n c = (.ok (), c')) :
    c'.stack = c.stack := by
  obtain ⟨c₁, h₁, hstack⟩ | h₁ := chargeBytes_outcome n c
  · rw [h] at h₁
    cases h₁
    exact hstack
  · rw [h] at h₁
    cases h₁

theorem stack_of_nil {c c' : Core} (h : (do chargeBytes 1; push .nil : CoreOp) c = (.ok (), c')) :
    c'.stack = some .nil :: c.stack := by
  obtain ⟨_, c₁, hcharge, hpush⟩ := bind_eq_ok.mp h
  cases hpush
  rw [← stack_of_chargeBytes hcharge]

theorem handleStackAccPut_pushing (m : Machine) :
    handleStackAccPut call { m with core := m.core.pushing [.bytes key, .bytes value] } =
      (do
        onMachineLedger (accPut call key value (.bytes value))
        onCore (chargeBytes (key.length + value.length)) : MachineOp) m := rfl

theorem put_outcome (h : (StorageCall.put key value).run call m = (.ok (), m')) :
    ∃ account fee, m.ledger.account call.ctx call.tx.recipient = some account ∧
      (m.ledger.account call.ctx call.tx.sender).isSome ∧
      (m.ledger.account call.ctx storageAddress).isSome ∧
      calculateStorageFee call.ctx.header (key.length + value.length) = .ok fee ∧
      ((endsInsideNode account.data key = false ∧ m'.core.stack = m.core.stack ∧
          ∀ a, m'.ledger.account call.ctx a = (m.ledger.account call.ctx a).map
            (Account.afterPut call fee key (.bytes value) a)) ∨
        (endsInsideNode account.data key = true ∧ m'.core.stack = some .nil :: m.core.stack ∧
          ∀ a, m'.ledger.account call.ctx a =
            (m.ledger.account call.ctx a).map (Account.afterFee call fee a))) := by
  rcases hput : accPut call key value (.bytes value) m.ledger with ⟨r, l₁⟩
  have hledger : onMachineLedger (accPut call key value (.bytes value)) m =
      (r, { m with ledger := l₁ }) := by
    rw [onMachineLedger, zoom_apply, hput]
  obtain hdone | ⟨err, t, herr, hcaught⟩ := handle_eq_ok.mp h
  · obtain ⟨_, m₁, hfirst, hcharge⟩ :=
      bind_eq_ok.mp ((handleStackAccPut_pushing m).symm.trans hdone)
    rw [hledger] at hfirst
    cases hfirst
    obtain ⟨c', hcharge', rfl⟩ := zoom_eq_ok.mp hcharge
    obtain ⟨account, fee, haccount, hsender, hstorage, hfee, hcases⟩ :=
      accPut_outcome hput fun err h => nomatch h
    refine ⟨account, fee, haccount, hsender, hstorage, hfee, ?_⟩
    obtain ⟨hends, -, hwritten⟩ | ⟨-, hr, -⟩ := hcases
    · exact .inl ⟨hends, stack_of_chargeBytes hcharge', hwritten⟩
    · cases hr
  · have hsome : (errorValue err).isSome := by
      rcases hvalue : errorValue err with - | v
      · rw [hvalue] at hcaught
        cases hcaught
      · rfl
    have herr' := (handleStackAccPut_pushing m).symm.trans herr
    rcases r with err₁ | _
    · rw [bind_of_error hledger] at herr'
      cases herr'
      obtain ⟨account, fee, haccount, hsender, hstorage, hfee, hcases⟩ :=
        accPut_outcome hput fun err' h => Except.error.inj h ▸ hsome
      refine ⟨account, fee, haccount, hsender, hstorage, hfee, ?_⟩
      obtain ⟨-, hr, -⟩ | ⟨hends, -, hmoved⟩ := hcases
      · cases hr
      obtain ⟨v, hvalue⟩ := Option.isSome_iff_exists.mp hsome
      rw [hvalue] at hcaught
      obtain ⟨c', hnil, rfl⟩ := zoom_eq_ok.mp hcaught
      exact .inr ⟨hends, stack_of_nil hnil, hmoved⟩
    · rw [bind_of_ok hledger] at herr'
      obtain ⟨c', hok, -⟩ | hmeter := chargeBytes_outcome (key.length + value.length) m.core
      · have hrun : onCore (chargeBytes (key.length + value.length)) { m with ledger := l₁ } =
            (.ok (), { m with ledger := l₁, core := c' }) := by
          rw [onCore, zoom_apply, hok]
        rw [hrun] at herr'
        cases herr'
      · have hrun : onCore (chargeBytes (key.length + value.length)) { m with ledger := l₁ } =
            (.error .meterExceeded, { m with ledger := l₁ }) := by
          rw [onCore, zoom_apply, hmeter]
        rw [hrun] at herr'
        cases herr'
        cases hsome

/-- What `acc.get` pushes for what it has read. -/
def pushedFor (value : Option Expr) : Expr := (value.map Expr.bytesOf).getD .nil

theorem push_charge_outcome (e : Expr) (n : Int) (c : Core) :
    (∃ c', (do push e; chargeBytes n : CoreOp) c = (.ok (), c') ∧ c'.stack = some e :: c.stack) ∨
      ∃ c', (do push e; chargeBytes n : CoreOp) c = (.error .meterExceeded, c') := by
  have hpush : push e c = (.ok (), { c with stack := some e :: c.stack }) := rfl
  rw [bind_of_ok hpush]
  obtain ⟨c', hok, hstack⟩ | hmeter := chargeBytes_outcome n { c with stack := some e :: c.stack }
  · exact .inl ⟨c', hok, hstack⟩
  · exact .inr ⟨_, hmeter⟩

theorem get_outcome (h : (StorageCall.get key).run call m = (.ok (), m')) :
    ∃ account, m.ledger.account call.ctx call.tx.recipient = some account ∧
      m'.core.stack =
        some (pushedFor (getFromRadixTree call.ctx.node account.data key)) :: m.core.stack ∧
      ∀ a, m'.ledger.account call.ctx a = m.ledger.account call.ctx a := by
  obtain ⟨l₁, hread, hl₁, -⟩ := getAccount_reads call.ctx m.ledger call.tx.recipient
  have hpop : onCore (popBytesKey call) { m with core := m.core.pushing [.bytes key] } =
      (.ok key, m) := rfl
  have hledger : contractAccount call m =
      (.ok (m.ledger.account call.ctx call.tx.recipient), { m with ledger := l₁ }) := by
    rw [contractAccount, onMachineLedger, zoom_apply, hread]
  rw [StorageCall.run, StorageCall.op, StorageCall.args] at h
  have hop : handleStackAccGet call { m with core := m.core.pushing [.bytes key] } = _ :=
    (bind_of_ok hpop _).trans (bind_of_ok hledger _)
  rcases haccount : m.ledger.account call.ctx call.tx.recipient with - | account
  · rw [haccount] at hop
    cases h.symm.trans (orNil_of_raise hop rfl)
  rw [haccount] at hop
  dsimp only at hop
  refine ⟨account, rfl, ?_⟩
  have hop' : handleStackAccGet call { m with core := m.core.pushing [.bytes key] } =
      onCore (do
        push (pushedFor (getFromRadixTree call.ctx.node account.data key))
        chargeBytes key.length) { m with ledger := l₁ } := by
    refine hop.trans ?_
    rcases getFromRadixTree call.ctx.node account.data key with - | value <;> rfl
  obtain ⟨c', hok, hstack⟩ | ⟨c', hmeter⟩ := push_charge_outcome
    (pushedFor (getFromRadixTree call.ctx.node account.data key)) key.length m.core
  · rw [onCore, zoom_apply, hok] at hop'
    cases h.symm.trans (orNil_of_ok hop')
    exact ⟨hstack, hl₁.account⟩
  · rw [onCore, zoom_apply, hmeter] at hop'
    cases h.symm.trans (orNil_of_raise hop' rfl)

end Calls

section Storage

/-- What is read of the contract's storage under a key. -/
def readStorage (c : Ctx) (l : Ledger) (contract key : Bytes) : Option Expr :=
  (l.account c contract).bind fun account => getFromRadixTree c.node account.data key

/-- The accounts between two calls of a contract, and what it has last put under each key, or found
there. -/
structure StorageState where
  ctx : Ctx
  ledger : Ledger
  last : Bytes → Option Expr

/-- The storage reads as the map of what was last put. -/
def StorageState.Faithful (contract : Bytes) (s : StorageState) : Prop :=
  ∀ key, readStorage s.ctx s.ledger contract key = s.last key

namespace StorageCall

/-- A put that left nothing on the stack was made. -/
def remember (last : Bytes → Option Expr) (m m' : Machine) : StorageCall → Bytes → Option Expr
  | put key value =>
    if m'.core.stack = m.core.stack then Function.update last key (some (.bytes value)) else last
  | get _ => last

/-- What a call promises: a put writes and charges or does neither, and a get pushes what was last
put, or nil. No other key and no other account changes. -/
def Meets (call : Call) (last : Bytes → Option Expr) (m m' : Machine) : StorageCall → Prop
  | put key value =>
    (m'.core.stack = m.core.stack ∧ ∃ fee,
      calculateStorageFee call.ctx.header (key.length + value.length) = .ok fee ∧
      ∀ a, m'.ledger.account call.ctx a = (m.ledger.account call.ctx a).map
        (Account.afterPut call fee key (.bytes value) a)) ∨
    ∀ a, m'.ledger.account call.ctx a = m.ledger.account call.ctx a
  | get key =>
    m'.core.stack = some ((last key).getD .nil) :: m.core.stack ∧
      ∀ a, m'.ledger.account call.ctx a = m.ledger.account call.ctx a

/-- A put whose key ends inside a node of the tree, where there is a fee that leaves the sender, and
a get of a key that has a value. -/
def Harmed (call : Call) (last : Bytes → Option Expr) (m : Machine) : StorageCall → Prop
  | put key value => ∃ account, m.ledger.account call.ctx call.tx.recipient = some account ∧
      endsInsideNode account.data key ∧ call.tx.sender ≠ storageAddress ∧
      calculateStorageFee call.ctx.header (key.length + value.length) ≠ .ok 0
  | get key => (last key).isSome

end StorageCall

/-- A call of the contract that its transaction goes on after, or anything between two calls after
which its storage reads as before: other transactions, the next block, a tree that was written and
is read from its root. -/
inductive StorageStep (contract : Bytes) : StorageState → StorageState → Prop
  | call {call : Call} {m m' : Machine} {s : StorageCall} {last : Bytes → Option Expr}
      (hto : call.tx.recipient = contract) (hrun : s.run call m = (.ok (), m')) :
      StorageStep contract ⟨call.ctx, m.ledger, last⟩ ⟨call.ctx, m'.ledger, s.remember last m m'⟩
  | resume {c c' : Ctx} {l l' : Ledger} {last : Bytes → Option Expr}
      (hsame : ∀ key, readStorage c' l' contract key = readStorage c l contract key) :
      StorageStep contract ⟨c, l, last⟩ ⟨c', l', last⟩

variable {call : Call} {key value : Bytes} {m m' : Machine} {s : StorageCall}
  {last : Bytes → Option Expr}

theorem ne_of_stack {e : Expr} (h : m'.core.stack = some e :: m.core.stack) :
    m'.core.stack ≠ m.core.stack := by
  rw [h]
  exact fun h => absurd (congrArg List.length h) (by simp)

theorem readStorage_of_account {c : Ctx} {l l' : Ledger} {contract : Bytes}
    (h : l'.account c contract = l.account c contract) (key : Bytes) :
    readStorage c l' contract key = readStorage c l contract key := by
  rw [readStorage, readStorage, h]

theorem faithful_call (hrun : s.run call m = (.ok (), m'))
    (h : StorageState.Faithful call.tx.recipient ⟨call.ctx, m.ledger, last⟩) :
    StorageState.Faithful call.tx.recipient ⟨call.ctx, m'.ledger, s.remember last m m'⟩ := by
  intro k
  have hk : readStorage call.ctx m.ledger call.tx.recipient k = last k := h k
  cases s with
  | get key =>
    obtain ⟨account, -, -, hsame⟩ := get_outcome hrun
    exact (readStorage_of_account (hsame _) k).trans hk
  | put key value =>
    change readStorage call.ctx m'.ledger call.tx.recipient k =
      (StorageCall.put key value).remember last m m' k
    obtain ⟨account, fee, haccount, -, -, -, hcases⟩ := put_outcome hrun
    rw [readStorage, haccount] at hk
    change getFromRadixTree call.ctx.node account.data k = last k at hk
    obtain ⟨-, hstack, hwritten⟩ | ⟨-, hstack, hmoved⟩ := hcases
    · rw [StorageCall.remember, if_pos hstack, readStorage, hwritten, haccount]
      change getFromRadixTree call.ctx.node (if _ then _ else _) k = _
      rw [if_pos rfl]
      by_cases hkey : k = key
      · subst hkey
        rw [Function.update_self, getFromRadixTree, Dict.get?_insert_self]
      · rw [Function.update_of_ne hkey, getFromRadixTree,
          Dict.get?_insert_of_ne _ _ (Ne.symm hkey), ← hk, getFromRadixTree]
    · rw [StorageCall.remember, if_neg (ne_of_stack hstack), readStorage, hmoved, haccount]
      exact hk

theorem faithful_step {contract : Bytes} {s s' : StorageState} (hstep : StorageStep contract s s')
    (h : s.Faithful contract) : s'.Faithful contract := by
  cases hstep with
  | call hto hrun =>
    subst hto
    exact faithful_call hrun h
  | resume hsame => exact fun key => (hsame key).trans (h key)

/-- A fee that was moved leaves no trace where it is zero, or the sender is the storage account. -/
theorem unchanged_iff {c : Ctx} {l l' : Ledger} {fee : Int}
    (hsender : (l.account c call.tx.sender).isSome)
    (hmoved : ∀ a, l'.account c a = (l.account c a).map (Account.afterFee call fee a)) :
    (∀ a, l'.account c a = l.account c a) ↔ call.tx.sender = storageAddress ∨ fee = 0 := by
  constructor
  · intro hsame
    by_contra hcon
    obtain ⟨hto, hfee⟩ := not_or.mp hcon
    obtain ⟨sender, hsender⟩ := Option.isSome_iff_exists.mp hsender
    have hpaid := (hmoved call.tx.sender).symm.trans (hsame call.tx.sender)
    rw [hsender] at hpaid
    have hbalance := congrArg Account.balance (Option.some.inj hpaid)
    simp only [Account.afterFee, if_pos, if_neg hto] at hbalance
    omega
  · intro h a
    have hid : ∀ account, Account.afterFee call fee a account = account := by
      intro account
      rw [Account.afterFee]
      obtain hto | rfl := h
      · rw [hto, Int.sub_add_cancel]
      · simp
    rw [hmoved, funext hid]
    exact Option.map_id'

theorem bytesOf_ne (e : Expr) : Expr.bytesOf e ≠ e := by
  intro h
  have hsize := congrArg sizeOf h
  simp at hsize

theorem get_meets_iff (hrun : (StorageCall.get key).run call m = (.ok (), m'))
    (h : readStorage call.ctx m.ledger call.tx.recipient key = last key) :
    (StorageCall.get key).Meets call last m m' ↔ ¬(StorageCall.get key).Harmed call last m := by
  obtain ⟨account, haccount, hstack, hsame⟩ := get_outcome hrun
  rw [readStorage, haccount] at h
  change getFromRadixTree call.ctx.node account.data key = last key at h
  rw [h] at hstack
  rw [StorageCall.Meets, StorageCall.Harmed, hstack]
  rcases hlast : last key with - | e
  · exact iff_of_true ⟨rfl, hsame⟩ (by simp)
  · refine iff_of_false (fun hmeets => ?_) (by simp)
    have hpushed := Option.some.inj (List.cons.inj hmeets.1).1
    exact bytesOf_ne e hpushed

/-- The fee of a put that raises stays where it was moved. -/
theorem put_meets_iff (hrun : (StorageCall.put key value).run call m = (.ok (), m')) :
    (StorageCall.put key value).Meets call last m m' ↔
      ¬(StorageCall.put key value).Harmed call last m := by
  obtain ⟨account, fee, haccount, hsender, -, hfee, hcases⟩ := put_outcome hrun
  rw [StorageCall.Meets, StorageCall.Harmed]
  obtain ⟨hends, hstack, hwritten⟩ | ⟨hends, hstack, hmoved⟩ := hcases
  · refine iff_of_true (.inl ⟨hstack, fee, hfee, hwritten⟩) ?_
    rintro ⟨account', haccount', hends', -⟩
    rw [haccount] at haccount'
    obtain rfl := Option.some.inj haccount'
    rw [hends] at hends'
    cases hends'
  · have hne := ne_of_stack hstack
    have hsame := unchanged_iff hsender hmoved
    constructor
    · rintro (⟨hwrote, -⟩ | hmeets) ⟨-, -, -, hto, hcost⟩
      · exact hne hwrote
      · obtain hsender | rfl := hsame.mp hmeets
        · exact hto hsender
        · exact hcost hfee
    · intro hharmed
      refine .inr (hsame.mpr ?_)
      by_contra hcon
      obtain ⟨hto, hcost⟩ := not_or.mp hcon
      refine hharmed ⟨account, haccount, hends, hto, fun hzero => hcost ?_⟩
      rw [hfee] at hzero
      exact Except.ok.inj hzero

end Storage

section Samples

/-- Alice calls the contract at Bob's address, where a byte of storage costs 2. -/
def contractCall : Call where
  ctx := ⟨bareNode, { firstHeader with
    previousBlock := some ⟨none, 0, [⟨1, 1, 0, 0, 0, 0⟩], 1⟩ }⟩
  tx := aliceSends .codeAccountCall bobAddress 0
  blockBloomKeys := []

def contractMachine : Machine :=
  let accounts := [(aliceAddress, createAccount 100 zero32), (bobAddress, createAccount 0 zero32),
    (storageAddress, createAccount 0 zero32)]
  newMachine (blockOf accounts).ledger 100 contractCall.tx

/-- The machine after a call of the contract. -/
def Machine.afterCall (m : Machine) (s : StorageCall) : Machine := (s.run contractCall m).2

theorem run_contractCall {m : Machine} {s : StorageCall}
    (h : (s.run contractCall m).1 = .ok ()) : s.run contractCall m = (.ok (), m.afterCall s) :=
  eq_of_fst (x := s.run contractCall) h

end Samples

end Astreum
