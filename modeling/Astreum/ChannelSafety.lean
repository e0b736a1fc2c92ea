import Astreum.Imbalance

namespace Astreum

open Eff

section Histories

/-- A payment channel as its record should be read. -/
structure ChannelState where
  balance : Int
  counter : Int
  window : Int
  deriving DecidableEq

/-- What a transaction that succeeds does to a channel. A withdrawal and a closure know the time of
the block before. -/
inductive Move where
  | update (amount : Int) (window : Option Int)
  | withdraw (time counter amount : Int)
  | close (time : Int)
  deriving DecidableEq

namespace ChannelState

def after (s : ChannelState) : Move → ChannelState
  | .update amount window => ⟨s.balance + amount, s.counter + 1, window.getD s.window⟩
  | .withdraw _ counter amount => ⟨s.balance - amount, counter, s.window⟩
  | .close _ => ⟨0, s.counter + 1, s.window⟩

/-- A withdrawal comes before the window and a closure after it, a withdrawal is new and covered, and
an update takes nothing and does not shorten the window. -/
def Allows (s : ChannelState) : Move → Prop
  | .update amount window => 0 ≤ amount ∧ s.window ≤ window.getD s.window
  | .withdraw time counter amount =>
    time < s.window ∧ s.counter < counter ∧ 0 ≤ amount ∧ amount ≤ s.balance
  | .close time => s.window < time

/-- What a move pays out. -/
def paid (s : ChannelState) : Move → Int
  | .update _ _ => 0
  | .withdraw _ _ amount => amount
  | .close _ => s.balance

def replay (s : ChannelState) : List Move → ChannelState
  | [] => s
  | m :: moves => (s.after m).replay moves

/-- Every move is allowed where it is made. -/
def AllowsAll (s : ChannelState) : List Move → Prop
  | [] => True
  | m :: moves => s.Allows m ∧ (s.after m).AllowsAll moves

def paidOut (s : ChannelState) : List Move → Int
  | [] => 0
  | m :: moves => s.paid m + (s.after m).paidOut moves

end ChannelState

/-- What a move pays in. -/
def Move.deposited : Move → Int
  | .update amount _ => amount
  | _ => 0

def deposits (moves : List Move) : Int := (moves.map Move.deposited).sum

variable {s : ChannelState} {m : Move} {moves : List Move}

theorem counter_lt_after (h : s.Allows m) : s.counter < (s.after m).counter := by
  cases m with
  | update amount window => exact Int.lt_succ s.counter
  | withdraw time counter amount => exact h.2.1
  | close time => exact Int.lt_succ s.counter

theorem window_le_after (h : s.Allows m) : s.window ≤ (s.after m).window := by
  cases m with
  | update amount window => exact h.2
  | withdraw time counter amount => exact le_rfl
  | close time => exact le_rfl

theorem balance_after_nonneg (h : s.Allows m) (hs : 0 ≤ s.balance) : 0 ≤ (s.after m).balance := by
  cases m with
  | update amount window => exact Int.add_nonneg hs h.1
  | withdraw time counter amount => exact Int.sub_nonneg_of_le h.2.2.2
  | close time => exact le_rfl

theorem balance_after (s : ChannelState) (m : Move) :
    (s.after m).balance = s.balance + m.deposited - s.paid m := by
  cases m <;> simp [ChannelState.after, Move.deposited, ChannelState.paid]

theorem allowsAll_append (moves moves' : List Move) :
    s.AllowsAll (moves ++ moves') ↔ s.AllowsAll moves ∧ (s.replay moves).AllowsAll moves' := by
  induction moves generalizing s with
  | nil => simp [ChannelState.AllowsAll, ChannelState.replay]
  | cons m moves ih => simp [ChannelState.AllowsAll, ChannelState.replay, ih, and_assoc]

theorem balance_replay_nonneg (h : s.AllowsAll moves) (hs : 0 ≤ s.balance) :
    0 ≤ (s.replay moves).balance := by
  induction moves generalizing s with
  | nil => exact hs
  | cons m moves ih => exact ih h.2 (balance_after_nonneg h.1 hs)

theorem balance_replay (s : ChannelState) (moves : List Move) :
    (s.replay moves).balance = s.balance + deposits moves - s.paidOut moves := by
  induction moves generalizing s with
  | nil => simp [ChannelState.replay, deposits, ChannelState.paidOut]
  | cons m moves ih =>
    rw [ChannelState.replay, ih, balance_after]
    simp only [deposits, List.map_cons, List.sum_cons, ChannelState.paidOut]
    ring

/-- The counter that a withdrawal asks for is above the one it finds. -/
theorem counter_lt_of_withdraw (h : s.AllowsAll moves) {time counter amount : Int}
    (hm : .withdraw time counter amount ∈ moves) : s.counter < counter := by
  induction moves generalizing s with
  | nil => cases hm
  | cons m moves ih =>
    rcases List.mem_cons.mp hm with rfl | hm
    · exact h.1.2.1
    · exact (counter_lt_after h.1).trans (ih h.2 hm)

/-- Whether a withdrawal asks for a smaller counter than another. -/
def Move.Precedes (m m' : Move) : Prop :=
  ∀ time counter amount time' counter' amount', m = .withdraw time counter amount →
    m' = .withdraw time' counter' amount' → counter < counter'

/-- A withdrawal asks for a larger counter than every one before it. -/
theorem withdraws_precede (h : s.AllowsAll moves) : moves.Pairwise Move.Precedes := by
  induction moves generalizing s with
  | nil => exact .nil
  | cons m moves ih =>
    refine .cons (fun m' hm' => ?_) (ih h.2)
    rintro time counter amount time' counter' amount' rfl rfl
    exact counter_lt_of_withdraw h.2 hm'

end Histories

section Records

variable (c : Ctx)

/-- What the tree of `owner` holds for its channel with `counterparty`. -/
def Ledger.channelAt (l : Ledger) (owner counterparty : Bytes) : Option TreeValue :=
  ((l.account c owner).map Account.channels).bind fun tree => tree.get? counterparty

/-- The record of a channel. -/
def ChannelState.channel (s : ChannelState) : Channel :=
  ⟨.int s.balance, .int s.counter, .int s.window⟩

/-- What storage holds under the hash of a record are cells of the same values, as far as they are
held. -/
def Node.ReadsBack (node : Node) (s : ChannelState) : Prop :=
  ∀ channel, Channel.fromStorage node (getExpr node (node.hash s.channel.expr)) =
      .ok (some channel) →
    (∀ n, channel.balance = .int n → n = s.balance) ∧
      (∀ n, channel.counter = .int n → n = s.counter) ∧
      ∀ n, channel.withdrawalWindow = .int n → n = s.window

/-- The balance of a record is read as an integer. -/
def Node.ReadsBalance (node : Node) (s : ChannelState) : Prop :=
  ∀ channel, Channel.fromStorage node (getExpr node (node.hash s.channel.expr)) =
    .ok (some channel) → ∃ n, channel.balance = .int n

/-- `l'` is `l` with a record written, as far as the channels go. -/
def Ledger.WritesChannel (l l' : Ledger) (owner counterparty : Bytes) (channel : Channel) : Prop :=
  ∀ o k, l'.channelAt c o k =
    if o = owner ∧ k = counterparty then some (.hashOf channel.expr) else l.channelAt c o k

variable {c} {l l' : Ledger} {owner counterparty : Bytes}

theorem channelAt_of_account
    (h : ∀ a, (l'.account c a).map Account.channels = (l.account c a).map Account.channels) :
    l'.channelAt c = l.channelAt c := by
  funext o k
  rw [Ledger.channelAt, Ledger.channelAt, h]

theorem channelAt_of_mutate {a : Bytes} {f : Account → Account}
    (hf : ∀ account, (f account).channels = account.channels) (h : mutate a f l = (.ok (), l')) :
    l'.channelAt c = l.channelAt c := by
  refine channelAt_of_account fun b => ?_
  rw [account_of_mutate h, Option.map_map]
  congr 1
  funext account
  simp only [Function.comp]
  split
  · exact hf account
  · rfl

theorem channelAt_of_addBalance {a : Bytes} {n : Int} (h : addBalance a n l = (.ok (), l')) :
    l'.channelAt c = l.channelAt c :=
  @channelAt_of_mutate c l l' a (fun account => { account with balance := account.balance + n })
    (fun _ => rfl) h

theorem keeps_channels_mutate (a : Bytes) {f : Account → Account}
    (hf : ∀ account, (f account).channels = account.channels) :
    Keeps (fun l l' => l'.channelAt c = l.channelAt c) (mutate a f) := by
  intro l
  rcases h : mutate a f l with ⟨e | _, l'⟩
  · rw [mutate] at h
    split at h
    · cases h
    · obtain ⟨-, rfl⟩ := Prod.mk.inj h
      rfl
  · exact channelAt_of_mutate hf h

theorem channels_neutral : Neutral c fun l l' => l'.channelAt c = l.channelAt c where
  read a l := channelAt_of_account fun b => by rw [account_getAccount]
  data a _ := keeps_channels_mutate a fun _ => rfl
  rest f hf l := channelAt_of_account fun b => by
    change (Ledger.account c (f l) b).map _ = _
    rw [Ledger.account, hf, Ledger.account]

theorem writesChannel_putChannel {channel : Channel}
    (h : putChannel c owner counterparty channel l = (.ok true, l')) :
    l.WritesChannel c l' owner counterparty channel := by
  obtain ⟨account, haccount, rfl⟩ := putChannel_eq_true h
  intro o k
  simp only [Ledger.channelAt, Ledger.account_insert]
  by_cases ho : owner = o
  · subst ho
    rw [if_pos rfl, Option.map_some, Option.bind_some, Dict.get?_insert,
      Ledger.account_of_cached haccount]
    by_cases hk : counterparty = k
    · simp [hk]
    · simp [hk, Ne.symm hk]
  · simp [ho, Ne.symm ho]

/-- A record that is written after steps that leave the channels, and before such steps. -/
theorem Ledger.WritesChannel.of_keeps {l₁ l₂ : Ledger} {channel : Channel}
    (h : l₁.WritesChannel c l₂ owner counterparty channel) (h₁ : l₁.channelAt c = l.channelAt c)
    (h₂ : l'.channelAt c = l₂.channelAt c) : l.WritesChannel c l' owner counterparty channel := by
  intro o k
  rw [h₂, h o k, h₁]

/-- The record that a handler reads is the one that the tree names. -/
theorem channelState_of_record {s : ChannelState} {channel : Channel}
    (hs : l.channelAt c owner counterparty = some (.hashOf s.channel.expr))
    (h : channelState c owner counterparty l = (.ok (some channel), l')) :
    Channel.fromStorage c.node (getExpr c.node (c.node.hash s.channel.expr)) =
      .ok (some channel) := by
  obtain ⟨-, account, haccount, hread⟩ := channelState_eq_ok h
  rw [Ledger.channelAt, Ledger.account_of_cached haccount, Option.map_some, Option.bind_some] at hs
  rwa [getFromRadixTree, hs] at hread

end Records

section Handlers

/-- The integer that a cell holds. -/
def Val.int? : Val → Option Int
  | .int n => some n
  | _ => Option.none

/-- The withdrawal that the data of a transaction asks for. -/
def withdrawal (c : Ctx) (t : Transaction) : Option Move := do
  let time ← c.header.previousBlock.bind Parent.timestamp
  let [counter, amount, _] := dataNodes c.node t.data | none
  return .withdraw time (← counter.value.int?) (← amount.value.int?)

variable {c : Ctx} {l l' : Ledger}

/-- What an update that succeeds has read, checked and written. -/
theorem handleChannelUpdate_eq_true {sender counterparty : Bytes} {window : Val} {amount : Int}
    (h : handleChannelUpdate c sender counterparty window amount l = (.ok true, l')) :
    ∃ (current : Channel) (newWindow currentWindow counter : Int) (balance : Val),
      0 ≤ amount ∧ channelState c sender counterparty l = (.ok (some current), l) ∧
      (if window = .none then current.withdrawalWindow else window) = .int newWindow ∧
      current.withdrawalWindow = .int currentWindow ∧ currentWindow ≤ newWindow ∧
      current.counter = .int counter ∧
      ((∃ n, current.balance = .int n ∧ balance = .int (n + amount)) ∨
        amount = 0 ∧ balance = current.balance) ∧
      l.WritesChannel c l' sender counterparty ⟨balance, .int (counter + 1), .int newWindow⟩ := by
  rw [handleChannelUpdate] at h
  split at h
  · cases h
  rename_i hamount
  obtain ⟨current, l₁, h₁, h₂⟩ := bind_eq_ok.mp h
  obtain ⟨rfl, -⟩ := channelState_eq_ok h₁
  rcases current with _ | current
  · cases h₂
  obtain ⟨newWindow, l₃, h₃, h₄⟩ := bind_eq_ok.mp h₂
  obtain ⟨hnew, rfl⟩ := Prod.mk.inj h₃
  obtain ⟨currentWindow, l₄, h₅, h₆⟩ := bind_eq_ok.mp h₄
  obtain ⟨hcurrent, rfl⟩ := Prod.mk.inj h₅
  simp only at h₆
  split at h₆
  · cases h₆
  rename_i hwindow
  obtain ⟨balance, l₅, h₇, h₈⟩ := bind_eq_ok.mp h₆
  obtain ⟨hbalance, rfl⟩ := Prod.mk.inj h₇
  obtain ⟨counter, l₆, h₉, h₁₀⟩ := bind_eq_ok.mp h₈
  obtain ⟨hcounter, rfl⟩ := Prod.mk.inj h₉
  rw [toInt_eq_ok hnew] at h₁₀
  obtain ⟨put, l₇, h₁₁, h₁₂⟩ := bind_eq_ok.mp h₁₀
  cases put with
  | false => cases h₁₂
  | true =>
    obtain ⟨_, l₈, h₁₃, h₁₄⟩ := bind_eq_ok.mp h₁₂
    obtain ⟨-, rfl⟩ := Prod.mk.inj h₁₄
    refine ⟨current, newWindow, currentWindow, counter, balance, by omega, h₁, toInt_eq_ok hnew,
      toInt_eq_ok hcurrent, by omega, toInt_eq_ok hcounter, ?_, ?_⟩
    · split at hbalance
      · obtain ⟨n, hn, hsum⟩ := except_bind_eq_ok.mp hbalance
        exact .inl ⟨n, toInt_eq_ok hn, (Except.ok.inj hsum).symm⟩
      · exact .inr ⟨by omega, (Except.ok.inj hbalance).symm⟩
    · exact (writesChannel_putChannel h₁₁).of_keeps rfl
        ((channels_neutral.pendChannel _).of_ok h₁₃)

theorem withdrawalSigned_eq_true {t : Transaction} {counter amount : Int} {signature : Bytes}
    (h : withdrawalSigned c t (.int counter) (.int amount) signature = true) :
    ∃ message, withdrawMessage t.chainId t.recipient t.sender counter amount = .ok message ∧
      c.node.verify t.recipient signature message = true := by
  simp only [withdrawalSigned] at h
  split at h
  · rename_i message hmessage
    exact ⟨message, hmessage, h⟩
  · cases h

/-- What a withdrawal that succeeds has read, checked and written. -/
theorem handleChannelWithdraw_eq_true {t : Transaction}
    (h : handleChannelWithdraw c t l = (.ok true, l')) :
    ∃ (counterNode amountNode : Expr) (signature : Bytes) (requested amount : Int) (l₁ : Ledger)
      (channel : Channel) (time window stored balance : Int),
      dataNodes c.node t.data = [counterNode, amountNode, .bytes signature] ∧
      counterNode.value = .int requested ∧ amountNode.value = .int amount ∧ 0 ≤ amount ∧
      (∃ message, withdrawMessage t.chainId t.recipient t.sender requested amount = .ok message ∧
        c.node.verify t.recipient signature message = true) ∧
      l₁.channelAt c = l.channelAt c ∧
      channelState c t.recipient t.sender l₁ = (.ok (some channel), l₁) ∧
      c.header.previousBlock.bind Parent.timestamp = some time ∧
      channel.withdrawalWindow = .int window ∧ time < window ∧
      channel.counter = .int stored ∧ stored < requested ∧
      channel.balance = .int balance ∧ amount ≤ balance ∧
      l.WritesChannel c l' t.recipient t.sender
        ⟨.int (balance - amount), .int requested, .int window⟩ := by
  rw [handleChannelWithdraw] at h
  rcases hnodes : dataNodes c.node t.data with
    _ | ⟨counterNode, _ | ⟨amountNode, _ | ⟨sigNode, _ | ⟨extra, rest⟩⟩⟩⟩ <;>
    simp only [hnodes] at h
  case cons.cons.cons.nil =>
    split at h
    · cases h
    obtain ⟨amount, l₁, h₁, h₂⟩ := bind_eq_ok.mp h
    obtain ⟨hamount, rfl⟩ := Prod.mk.inj h₁
    split at h₂
    · cases h₂
    rename_i hnonneg
    cases sigNode with
    | bytes signature =>
      simp only at h₂
      split at h₂
      · cases h₂
      rename_i hsigned
      obtain ⟨requested, l₂, h₃, h₄⟩ := bind_eq_ok.mp h₂
      obtain ⟨hrequested, rfl⟩ := Prod.mk.inj h₃
      obtain ⟨payer, l₃, h₅, h₆⟩ := bind_eq_ok.mp h₄
      split at h₆
      · cases h₆
      obtain ⟨channel, l₄, h₇, h₈⟩ := bind_eq_ok.mp h₆
      obtain ⟨rfl, -⟩ := channelState_eq_ok h₇
      rcases channel with _ | channel
      · cases h₈
      simp only at h₈
      rcases hprevious : c.header.previousBlock with _ | previous
      · simp only [hprevious] at h₈
        cases h₈
      simp only [hprevious] at h₈
      rcases htime : previous.timestamp with _ | time
      · simp only [htime] at h₈
        cases h₈
      simp only [htime] at h₈
      obtain ⟨window, l₅, h₉, h₁₀⟩ := bind_eq_ok.mp h₈
      obtain ⟨hwindow, rfl⟩ := Prod.mk.inj h₉
      split at h₁₀
      · cases h₁₀
      rename_i hopen
      obtain ⟨stored, l₆, h₁₁, h₁₂⟩ := bind_eq_ok.mp h₁₀
      obtain ⟨hstored, rfl⟩ := Prod.mk.inj h₁₁
      split at h₁₂
      · cases h₁₂
      rename_i hnew
      obtain ⟨balance, l₇, h₁₃, h₁₄⟩ := bind_eq_ok.mp h₁₂
      obtain ⟨hbalance, rfl⟩ := Prod.mk.inj h₁₃
      split at h₁₄
      · cases h₁₄
      rename_i hcovered
      obtain ⟨put, l₈, h₁₅, h₁₆⟩ := bind_eq_ok.mp h₁₄
      cases put with
      | false => cases h₁₆
      | true =>
        obtain ⟨_, l₉, h₁₇, h₁₈⟩ := bind_eq_ok.mp h₁₆
        obtain ⟨_, l₁₀, h₁₉, h₂₀⟩ := bind_eq_ok.mp h₁₈
        obtain ⟨_, l₁₁, h₂₁, h₂₂⟩ := bind_eq_ok.mp h₂₀
        obtain ⟨-, rfl⟩ := Prod.mk.inj h₂₂
        have hread := (channels_neutral.read _).of_ok h₅
        have hrest := (((channels_neutral.involve _).of_ok h₂₁).trans
          ((channels_neutral.pendChannel _).of_ok h₁₉)).trans
          (channelAt_of_addBalance h₁₇)
        refine ⟨counterNode, amountNode, signature, requested, amount, _, channel, time, window,
          stored, balance, rfl, toInt_eq_ok hrequested, toInt_eq_ok hamount, by omega, ?_, hread,
          h₇, by simp [htime], toInt_eq_ok hwindow, by omega, toInt_eq_ok hstored,
          by omega, toInt_eq_ok hbalance, by omega, (writesChannel_putChannel h₁₅).of_keeps hread hrest⟩
        rw [toInt_eq_ok hrequested, toInt_eq_ok hamount] at hsigned
        exact withdrawalSigned_eq_true (by simpa using hsigned)
    | _ => cases h₂
  all_goals cases h

/-- What a closure that succeeds has read, checked and written. -/
theorem handleChannelClose_eq_true {sender counterparty : Bytes}
    (h : handleChannelClose c sender counterparty l = (.ok true, l')) :
    ∃ (channel : Channel) (time window balance counter : Int),
      c.header.previousBlock.bind Parent.timestamp = some time ∧
      channelState c sender counterparty l = (.ok (some channel), l) ∧
      channel.withdrawalWindow = .int window ∧ window < time ∧
      channel.balance = .int balance ∧ channel.counter = .int counter ∧
      l.WritesChannel c l' sender counterparty ⟨.int 0, .int (counter + 1), .int window⟩ := by
  rw [handleChannelClose] at h
  rcases htime : c.header.previousBlock.bind Parent.timestamp with _ | time
  · simp only [htime] at h
    cases h
  simp only [htime] at h
  obtain ⟨channel, l₁, h₁, h₂⟩ := bind_eq_ok.mp h
  obtain ⟨rfl, -⟩ := channelState_eq_ok h₁
  rcases channel with _ | channel
  · cases h₂
  obtain ⟨window, l₂, h₃, h₄⟩ := bind_eq_ok.mp h₂
  obtain ⟨hwindow, rfl⟩ := Prod.mk.inj h₃
  split at h₄
  · cases h₄
  rename_i hover
  obtain ⟨balance, l₃, h₅, h₆⟩ := bind_eq_ok.mp h₄
  obtain ⟨hbalance, rfl⟩ := Prod.mk.inj h₅
  obtain ⟨_, l₄, h₇, h₈⟩ := bind_eq_ok.mp h₆
  obtain ⟨counter, l₅, h₉, h₁₀⟩ := bind_eq_ok.mp h₈
  obtain ⟨hcounter, rfl⟩ := Prod.mk.inj h₉
  obtain ⟨put, l₆, h₁₁, h₁₂⟩ := bind_eq_ok.mp h₁₀
  cases put with
  | false => cases h₁₂
  | true =>
    obtain ⟨_, l₇, h₁₃, h₁₄⟩ := bind_eq_ok.mp h₁₂
    obtain ⟨-, rfl⟩ := Prod.mk.inj h₁₄
    exact ⟨channel, time, window, balance, counter, rfl, h₁, toInt_eq_ok hwindow, by omega,
      toInt_eq_ok hbalance, toInt_eq_ok hcounter, (writesChannel_putChannel h₁₁).of_keeps
        (channelAt_of_addBalance h₇) ((channels_neutral.pendChannel _).of_ok h₁₃)⟩

/-- What a handler writes is the channel after a move that is allowed. -/
theorem writes_after {owner counterparty : Bytes} {s : ChannelState} {m : Move} {channel : Channel}
    (h : l.WritesChannel c l' owner counterparty channel)
    (hafter : channel = (s.after m).channel) :
    l'.channelAt c owner counterparty = some (.hashOf (s.after m).channel.expr) := by
  rw [h, if_pos ⟨rfl, rfl⟩, hafter]

variable {s : ChannelState}

theorem update_allowed {sender counterparty : Bytes} {window : Val} {amount : Int}
    (hs : l.channelAt c sender counterparty = some (.hashOf s.channel.expr))
    (hback : c.node.ReadsBack s)
    (hbalance : amount = 0 → c.node.ReadsBalance s)
    (h : handleChannelUpdate c sender counterparty window amount l = (.ok true, l')) :
    s.Allows (.update amount window.int?) ∧
      l'.channelAt c sender counterparty =
        some (.hashOf (s.after (.update amount window.int?)).channel.expr) := by
  obtain ⟨current, newWindow, currentWindow, counter, balance, hamount, hread, hnew, hcurrent, hle,
    hcounter, hsum, hwrites⟩ := handleChannelUpdate_eq_true h
  have hstored := channelState_of_record hs hread
  obtain ⟨hbalances, hcounters, hwindows⟩ := hback current hstored
  obtain rfl := hwindows _ hcurrent
  obtain rfl := hcounters _ hcounter
  have hwindow : window.int?.getD s.window = newWindow := by
    split at hnew
    · rename_i hnone
      rw [hnew] at hcurrent
      simp only [hnone, Val.int?, Option.getD_none]
      exact (Val.int.inj hcurrent).symm
    · rw [hnew, Val.int?, Option.getD_some]
  have hsame : balance = .int (s.balance + amount) := by
    rcases hsum with ⟨n, hn, rfl⟩ | ⟨hzero, rfl⟩
    · rw [hbalances n hn]
    · obtain ⟨n, hn⟩ := hbalance hzero current hstored
      rw [hn, hbalances n hn, hzero, Int.add_zero]
  refine ⟨⟨hamount, hwindow ▸ hle⟩, writes_after hwrites ?_⟩
  rw [hsame, ChannelState.after, hwindow, ChannelState.channel]

theorem withdraw_allowed {t : Transaction}
    (hs : l.channelAt c t.recipient t.sender = some (.hashOf s.channel.expr))
    (hback : c.node.ReadsBack s) (h : handleChannelWithdraw c t l = (.ok true, l')) :
    ∃ m, withdrawal c t = some m ∧ s.Allows m ∧
      l'.channelAt c t.recipient t.sender = some (.hashOf (s.after m).channel.expr) := by
  obtain ⟨counterNode, amountNode, signature, requested, amount, l₁, channel, time, window, stored,
    balance, hnodes, hrequested, hamount, hnonneg, -, hsame, hread, htime, hwindow, hopen, hstored,
    hnew, hbalance, hcovered, hwrites⟩ := handleChannelWithdraw_eq_true h
  rw [← hsame] at hs
  obtain ⟨hbalances, hcounters, hwindows⟩ := hback channel (channelState_of_record hs hread)
  obtain rfl := hwindows _ hwindow
  obtain rfl := hcounters _ hstored
  obtain rfl := hbalances _ hbalance
  refine ⟨.withdraw time requested amount, ?_, ⟨hopen, hnew, hnonneg, hcovered⟩,
    writes_after hwrites rfl⟩
  simp [withdrawal, htime, hnodes, hrequested, hamount, Val.int?]

theorem close_allowed {sender counterparty : Bytes}
    (hs : l.channelAt c sender counterparty = some (.hashOf s.channel.expr))
    (hback : c.node.ReadsBack s)
    (h : handleChannelClose c sender counterparty l = (.ok true, l')) :
    ∃ time, c.header.previousBlock.bind Parent.timestamp = some time ∧ s.Allows (.close time) ∧
      l'.channelAt c sender counterparty = some (.hashOf (s.after (.close time)).channel.expr) := by
  obtain ⟨channel, time, window, balance, counter, htime, hread, hwindow, hover, -, hcounter,
    hwrites⟩ := handleChannelClose_eq_true h
  obtain ⟨-, hcounters, hwindows⟩ := hback channel (channelState_of_record hs hread)
  obtain rfl := hwindows _ hwindow
  obtain rfl := hcounters _ hcounter
  exact ⟨time, htime, hover, writes_after hwrites rfl⟩

end Handlers

section Transactions

def channelCodes : List TransactionCode := [.channelUpdate, .channelWithdraw, .channelClose]

/-- The move that a transaction makes on a channel when it succeeds, if it names that channel. -/
def channelMove (c : Ctx) (t : Transaction) (owner counterparty : Bytes) : Option Move :=
  match t.code with
  | .channelUpdate => match channelUpdateData c t with
    | .ok (named, window) =>
      if t.sender = owner ∧ named = counterparty then some (.update t.amount window.int?) else none
    | .error _ => none
  | .channelWithdraw =>
    if t.recipient = owner ∧ t.sender = counterparty then withdrawal c t else none
  | .channelClose => match dataNodes c.node t.data with
    | [.bytes named] =>
      if t.sender = owner ∧ named = counterparty then
        (c.header.previousBlock.bind Parent.timestamp).map .close
      else none
    | _ => none
  | _ => none

/-- The channel has made the move, or none. -/
def ChannelState.Moved (c : Ctx) (owner counterparty : Bytes) (s : ChannelState) (l : Ledger) :
    Option Move → Prop
  | some m => s.Allows m ∧
    l.channelAt c owner counterparty = some (.hashOf (s.after m).channel.expr)
  | none => l.channelAt c owner counterparty = some (.hashOf s.channel.expr)

theorem ChannelState.Moved.of_channelAt {c : Ctx} {owner counterparty : Bytes} {s : ChannelState}
    {l l' : Ledger} {m : Option Move} (h : s.Moved c owner counterparty l m)
    (e : l'.channelAt c owner counterparty = l.channelAt c owner counterparty) :
    s.Moved c owner counterparty l' m := by
  cases m with
  | none => exact e.trans h
  | some m => exact ⟨h.1, e.trans h.2⟩

theorem ChannelState.Moved.isSome {c : Ctx} {owner counterparty : Bytes} {s : ChannelState}
    {l : Ledger} {m : Option Move} (h : s.Moved c owner counterparty l m) :
    l.account c owner ≠ none := by
  intro hcon
  have hnone : l.channelAt c owner counterparty = none := by rw [Ledger.channelAt, hcon]; rfl
  cases m with
  | none => cases hnone.symm.trans h
  | some m => cases hnone.symm.trans h.2

/-- What a node has to read of a channel for a transaction to keep it safe: cells of the values that
the record was written with, and, where an update carries the balance over, the balance. -/
def ReadsFor (node : Node) (t : Transaction) (s : ChannelState) : Prop :=
  node.ReadsBack s ∧ (t.code = .channelUpdate → t.amount = 0 → node.ReadsBalance s)

variable {c : Ctx} {t : Transaction} {g : Guarded} {l l' : Ledger} {h : Handled}
  {owner counterparty : Bytes} {s : ChannelState}

theorem unmoved_of_writes {o k : Bytes} {channel : Channel}
    (hs : l.channelAt c owner counterparty = some (.hashOf s.channel.expr))
    (hw : l.WritesChannel c l' o k channel) (hne : ¬(o = owner ∧ k = counterparty)) :
    s.Moved c owner counterparty l' none := by
  have hne' : ¬(owner = o ∧ counterparty = k) := fun hcon => hne ⟨hcon.1.symm, hcon.2.symm⟩
  rw [ChannelState.Moved, hw, if_neg hne', hs]

theorem success_of_handled {status : Status} {amount : Int} {r : Recipient}
    (hr : (pure (handled t status amount r) : Stateful Ledger Handled) l = (.ok h, l'))
    (hs : h.status = .success) : status = .success ∧ l' = l := by
  obtain ⟨hh, rfl⟩ := Prod.mk.inj hr
  rw [← Except.ok.inj hh] at hs
  exact ⟨hs, rfl⟩

/-- An update that succeeds has gone through its handler. -/
theorem applyChannelUpdate_eq_ok (hr : applyChannelUpdate c t g l = (.ok h, l'))
    (hsuccess : h.status = .success) :
    ∃ named window, channelUpdateData c t = .ok (named, window) ∧
      handleChannelUpdate c t.sender named window t.amount l = (.ok true, l') := by
  rw [applyChannelUpdate] at hr
  split at hr
  · cases (success_of_handled hr hsuccess).1
  split at hr
  · exact absurd (success_of_handled hr hsuccess).1 ‹_›
  obtain ⟨⟨named, window⟩, l₁, h₁, h₂⟩ := bind_eq_ok.mp hr
  obtain ⟨hdata, rfl⟩ := Prod.mk.inj h₁
  obtain ⟨updated, l₂, h₃, h₄⟩ := bind_eq_ok.mp h₂
  cases updated with
  | false => cases (success_of_handled h₄ hsuccess).1
  | true =>
    obtain ⟨-, rfl⟩ := success_of_handled h₄ hsuccess
    exact ⟨named, window, hdata, h₃⟩

theorem moved_applyChannelUpdate (hcode : t.code = .channelUpdate)
    (hs : l.channelAt c owner counterparty = some (.hashOf s.channel.expr))
    (hread : ReadsFor c.node t s) (hr : applyChannelUpdate c t g l = (.ok h, l'))
    (hsuccess : h.status = .success) :
    s.Moved c owner counterparty l' (channelMove c t owner counterparty) := by
  obtain ⟨named, window, hdata, h₁⟩ := applyChannelUpdate_eq_ok hr hsuccess
  simp only [channelMove, hcode, hdata]
  split_ifs with hnamed
  · obtain ⟨rfl, rfl⟩ := hnamed
    exact update_allowed hs hread.1 (hread.2 hcode) h₁
  · obtain ⟨_, _, _, _, _, -, -, -, -, -, -, -, hw⟩ := handleChannelUpdate_eq_true h₁
    exact unmoved_of_writes hs hw hnamed

/-- A withdrawal that succeeds has gone through its handler. -/
theorem applyChannelWithdraw_eq_ok (hr : applyChannelWithdraw c t g l = (.ok h, l'))
    (hsuccess : h.status = .success) :
    ∃ l₁, l₁.channelAt c = l.channelAt c ∧ handleChannelWithdraw c t l₁ = (.ok true, l') := by
  obtain ⟨recipient, l₁, h₁, h₂⟩ := bind_eq_ok.mp hr
  have hsame := (channels_neutral.read _).of_ok h₁
  split at h₂
  · exact absurd (success_of_handled h₂ hsuccess).1 ‹_›
  split at h₂
  · cases (success_of_handled h₂ hsuccess).1
  obtain ⟨withdrawn, l₂, h₃, h₄⟩ := bind_eq_ok.mp h₂
  cases withdrawn with
  | false => cases (success_of_handled h₄ hsuccess).1
  | true =>
    obtain ⟨-, rfl⟩ := success_of_handled h₄ hsuccess
    exact ⟨l₁, hsame, h₃⟩

theorem moved_applyChannelWithdraw (hcode : t.code = .channelWithdraw)
    (hs : l.channelAt c owner counterparty = some (.hashOf s.channel.expr))
    (hread : ReadsFor c.node t s) (hr : applyChannelWithdraw c t g l = (.ok h, l'))
    (hsuccess : h.status = .success) :
    s.Moved c owner counterparty l' (channelMove c t owner counterparty) := by
  obtain ⟨l₁, hsame, h₁⟩ := applyChannelWithdraw_eq_ok hr hsuccess
  rw [← hsame] at hs
  simp only [channelMove, hcode]
  split_ifs with hnamed
  · obtain ⟨rfl, rfl⟩ := hnamed
    obtain ⟨m, hm, hmoved⟩ := withdraw_allowed hs hread.1 h₁
    rw [hm]
    exact hmoved
  · obtain ⟨_, _, _, _, _, _, _, _, _, _, _, -, -, -, -, -, -, -, -, -, -, -, -, -, -, hw⟩ :=
      handleChannelWithdraw_eq_true h₁
    exact unmoved_of_writes hs hw hnamed

/-- A closure that succeeds has gone through its handler. -/
theorem applyChannelClose_eq_ok (hr : applyChannelClose c t g l = (.ok h, l'))
    (hsuccess : h.status = .success) :
    ∃ named, dataNodes c.node t.data = [.bytes named] ∧
      handleChannelClose c t.sender named l = (.ok true, l') := by
  rw [applyChannelClose] at hr
  split at hr
  · cases (success_of_handled hr hsuccess).1
  split at hr
  · exact absurd (success_of_handled hr hsuccess).1 ‹_›
  rcases hnodes : dataNodes c.node t.data with _ | ⟨first, _ | ⟨second, rest⟩⟩ <;>
    simp only [hnodes] at hr
  case cons.nil =>
    cases first with
    | bytes named =>
      obtain ⟨closed, l₁, h₁, h₂⟩ := bind_eq_ok.mp hr
      cases closed with
      | false => cases (success_of_handled h₂ hsuccess).1
      | true =>
        obtain ⟨-, rfl⟩ := success_of_handled h₂ hsuccess
        exact ⟨named, rfl, h₁⟩
    | _ => cases (success_of_handled hr hsuccess).1
  all_goals cases (success_of_handled hr hsuccess).1

theorem moved_applyChannelClose (hcode : t.code = .channelClose)
    (hs : l.channelAt c owner counterparty = some (.hashOf s.channel.expr))
    (hread : ReadsFor c.node t s) (hr : applyChannelClose c t g l = (.ok h, l'))
    (hsuccess : h.status = .success) :
    s.Moved c owner counterparty l' (channelMove c t owner counterparty) := by
  obtain ⟨named, hnodes, h₁⟩ := applyChannelClose_eq_ok hr hsuccess
  simp only [channelMove, hcode, hnodes]
  split_ifs with hnamed
  · obtain ⟨rfl, rfl⟩ := hnamed
    obtain ⟨time, htime, hmoved⟩ := close_allowed hs hread.1 h₁
    rw [htime]
    exact hmoved
  · obtain ⟨_, _, _, _, _, -, -, -, -, -, -, hw⟩ := handleChannelClose_eq_true h₁
    exact unmoved_of_writes hs hw hnamed

/-- A channel transaction that succeeds makes its move on the channel that it names, and no other. -/
theorem moved_runHandler (hcode : t.code ∈ channelCodes) {nested : Bool} {keys : List Bytes}
    {apply : NestedApply} {transactionHash : Bytes}
    (hs : l.channelAt c owner counterparty = some (.hashOf s.channel.expr))
    (hread : ReadsFor c.node t s)
    (hr : runHandler c t nested keys apply transactionHash g l = (.ok h, l'))
    (hsuccess : h.status = .success) :
    s.Moved c owner counterparty l' (channelMove c t owner counterparty) := by
  have hcases : t.code = .channelUpdate ∨ t.code = .channelWithdraw ∨ t.code = .channelClose := by
    simpa [channelCodes] using hcode
  rcases hcases with hcode | hcode | hcode <;> rw [runHandler, hcode] at hr
  · exact moved_applyChannelUpdate hcode hs hread hr hsuccess
  · exact moved_applyChannelWithdraw hcode hs hread hr hsuccess
  · exact moved_applyChannelClose hcode hs hread hr hsuccess

/-- A channel transaction that goes through makes its move when it succeeds, and else none. -/
theorem moved_applyTxEffects {node : Node} {b b' : Block} {o : Outcome} {transactionHash : Bytes}
    (hcode : t.code ∈ channelCodes)
    (hs : b.ledger.channelAt (b.ctx node) owner counterparty = some (.hashOf s.channel.expr))
    (hread : ReadsFor node t s) (hrun : applyTxEffects t transactionHash node b = (.ok o, b')) :
    s.Moved (b.ctx node) owner counterparty b'.ledger
      (if o.status = .success then channelMove (b.ctx node) t owner counterparty else none) := by
  cases hstatus : o.status with
  | failed =>
    obtain ⟨_, _, _, -, -, -, -, hfrom⟩ := failedFrom_of_failed hrun hstatus
    have hsame : b'.ledger.channelAt (b.ctx node) = b.ledger.channelAt (b.ctx node) :=
      channelAt_of_account fun a => by
        rw [hfrom.account, Option.map_map]
        rfl
    rw [if_neg (by simp), ChannelState.Moved, hsame]
    exact hs
  | success =>
    obtain ⟨g, l₀, h, l₁, e₀, e₁, hf⟩ := applyTxEffects_eq_ok hrun
    obtain ⟨-, hentered, -⟩ := enter_eq_ok e₀
    have hs₀ : l₀.channelAt (b.ctx node) owner counterparty = some (.hashOf s.channel.expr) := by
      rw [channelAt_of_account fun a => congrArg _ (hentered.account a)]
      exact hs
    obtain ⟨h₁, b₁, balance, priced, b₂, inserted, account, -, -, -, -, hcase⟩ := finish_eq_ok hf
    rcases hcase with ⟨hsuccess, -, -, -, -, -, hc⟩ | ⟨-, hc⟩
    · have hmoved := moved_runHandler hcode hs₀ hread e₁ hsuccess
      have hfresh := fresh_runHandler _ _ _ _ l₀ trivial h l₁ e₁
      rw [if_pos rfl]
      refine hmoved.of_channelAt ?_
      have hafter := account_of_deduct (c := b.ctx node) (a := owner) hc.deducted
        fun account hr hown => hmoved.isSome (hown ▸ (hfresh account hr).2.2)
      rw [Ledger.channelAt, hafter, Option.map_map]
      rfl
    · rw [hc.outcome] at hstatus
      cases hstatus

end Transactions

section Runs

variable {owner counterparty : Bytes} {b b' : Block} {trace : List Application} {s : ChannelState}

/-- The record of a channel in a block. -/
def Block.HasChannel (b : Block) (owner counterparty : Bytes) (s : ChannelState) : Prop :=
  ((b.account owner).map Account.channels).bind (fun tree => tree.get? counterparty) =
    some (.hashOf s.channel.expr)

instance (b : Block) (owner counterparty : Bytes) (s : ChannelState) :
    Decidable (b.HasChannel owner counterparty s) :=
  inferInstanceAs (Decidable (_ = _))

/-- Channel transactions one after the other. Between them may be whatever else leaves the record of
the channel: other transactions, and the opening of the next block. -/
inductive ChannelRun (owner counterparty : Bytes) : Block → List Application → Block → Prop
  | stop (b : Block) : ChannelRun owner counterparty b [] b
  | applied {node : Node} {t : Transaction} {transactionHash : Bytes} {b b₁ b' : Block}
      {o : Outcome} {trace : List Application} (hcode : t.code ∈ channelCodes)
      (h : applyTxEffects t transactionHash node b = (.ok o, b₁))
      (rest : ChannelRun owner counterparty b₁ trace b') :
      ChannelRun owner counterparty b (⟨node, t, transactionHash, b, o, b₁⟩ :: trace) b'
  | between {b b₁ b' : Block} {trace : List Application}
      (h : ∀ s, b.HasChannel owner counterparty s → b₁.HasChannel owner counterparty s)
      (rest : ChannelRun owner counterparty b₁ trace b') : ChannelRun owner counterparty b trace b'

/-- The move that an application made on a channel. -/
def Application.move (owner counterparty : Bytes) (e : Application) : Option Move :=
  if e.outcome.status = .success then
    channelMove (e.before.ctx e.node) e.t owner counterparty
  else none

def movesOf (owner counterparty : Bytes) (trace : List Application) : List Move :=
  trace.filterMap (Application.move owner counterparty)

/-- A node that applies a transaction reads the channel as it has to. -/
def Application.ReadsChannel (owner counterparty : Bytes) (e : Application) : Prop :=
  ∀ s, e.before.HasChannel owner counterparty s → ReadsFor e.node e.t s

/-- The transactions of a run replay on the channel what they do, and each is allowed. -/
theorem channelRun_replays (hrun : ChannelRun owner counterparty b trace b')
    (hs : b.HasChannel owner counterparty s)
    (hread : ∀ e ∈ trace, e.ReadsChannel owner counterparty) :
    s.AllowsAll (movesOf owner counterparty trace) ∧
      b'.HasChannel owner counterparty (s.replay (movesOf owner counterparty trace)) := by
  induction hrun generalizing s with
  | stop b => exact ⟨trivial, hs⟩
  | @applied node t transactionHash b b₁ b' o trace hcode h rest ih =>
    obtain ⟨hfirst, hrest⟩ := List.forall_mem_cons.mp hread
    have hheader : b₁.header = b.header := (header_applyTxEffects node).of_ok h
    have hmoved := moved_applyTxEffects hcode hs (hfirst s hs) h
    have hview : ∀ s', b₁.ledger.channelAt (b.ctx node) owner counterparty =
        some (.hashOf s'.channel.expr) → b₁.HasChannel owner counterparty s' := by
      intro s' hs'
      rw [Block.HasChannel, Block.account, hheader]
      exact hs'
    rw [movesOf, List.filterMap_cons]
    simp only [Application.move]
    split <;> rename_i hm <;> rw [hm] at hmoved
    · exact ih (hview s hmoved) hrest
    · obtain ⟨hallowed, hrec⟩ := hmoved
      obtain ⟨hall, hlast⟩ := ih (hview _ hrec) hrest
      exact ⟨⟨hallowed, hall⟩, hlast⟩
  | between h rest ih => exact ih (h s hs) hread

/-- What went through in a run went through from the block it names. -/
theorem applied_of_channelRun (hrun : ChannelRun owner counterparty b trace b') :
    ∀ e ∈ trace, applyTxEffects e.t e.transactionHash e.node e.before = (.ok e.outcome, e.after) := by
  induction hrun with
  | stop b => exact List.forall_mem_nil _
  | applied hcode h rest ih => exact List.forall_mem_cons.mpr ⟨h, ih⟩
  | between h rest ih => exact ih

/-- A withdrawal that was made is one that the payer has signed. -/
theorem signed_of_withdraw {e : Application} {time counter amount : Int}
    (h : applyTxEffects e.t e.transactionHash e.node e.before = (.ok e.outcome, e.after))
    (hm : e.move owner counterparty = some (.withdraw time counter amount)) :
    ∃ signature message,
      withdrawMessage e.t.chainId owner counterparty counter amount = .ok message ∧
        e.node.verify owner signature message = true := by
  rw [Application.move] at hm
  split at hm
  · rename_i hstatus
    obtain ⟨g, l₀, handled, l₁, e₀, e₁, hf⟩ := applyTxEffects_eq_ok h
    obtain ⟨_, _, _, _, _, _, _, -, -, -, -, hcase⟩ := finish_eq_ok hf
    rcases hcase with ⟨hsuccess, -⟩ | ⟨-, hc⟩
    · rw [channelMove] at hm
      rw [runHandler] at e₁
      split at hm <;> rename_i hcode
      · split at hm
        · split at hm <;> cases hm
        · cases hm
      · rw [hcode] at e₁
        split at hm
        · rename_i hnamed
          obtain ⟨l₂, -, h₂⟩ := applyChannelWithdraw_eq_ok e₁ hsuccess
          obtain ⟨counterNode, amountNode, signature, _, _, _, _, _, _, _, _, hnodes, hrequested,
            hamount, -, ⟨message, hmessage, hverify⟩, -, -, htime, -⟩ :=
            handleChannelWithdraw_eq_true h₂
          have hdata : (withdrawal (e.before.ctx e.node) e.t) = _ := hm
          simp only [withdrawal, htime, hnodes, hrequested, hamount, Val.int?] at hdata
          obtain ⟨-, rfl, rfl⟩ := Move.withdraw.inj (Option.some.inj hdata)
          obtain ⟨rfl, rfl⟩ := hnamed
          exact ⟨signature, message, hmessage, hverify⟩
        · cases hm
      · split at hm
        · split at hm
          · obtain ⟨_, -, hcon⟩ := Option.map_eq_some_iff.mp hm
            cases hcon
          · cases hm
        · cases hm
      · cases hm
    · rw [hc.outcome] at hstatus
      cases hstatus
  · cases hm

section Samples

/-- Alice's channel with Bob. -/
def aliceChannel : ChannelState := ⟨5, 1, 9⟩

def channelBlock : Block :=
  blockOf [(aliceAddress, { createAccount 9 zero32 with
    channels := Dict.empty.insert bobAddress (.hashOf aliceChannel.channel.expr) }),
    (storageAddress, createAccount 0 zero32)]

/-- An update of Alice's channel with Bob. -/
def aliceUpdates (amount : Int) : Transaction :=
  { aliceSends .channelUpdate aliceAddress amount with data := link (.bytes bobAddress) .nil }

/-- A node that holds the record under its hash. -/
def nodeHolding (record : Expr) : Node :=
  { bareNode with
    stored := fun h => if h = bareNode.hash aliceChannel.channel.expr then some record else none }

/-- The record of the channel as cold storage returns it, with the balance known by its hashes. -/
def coldRecord : Expr :=
  link (.link .none (.byHash ((int_ 5).getHeadHash bareNode.blake3))
    (.byHash (bareNode.hash (.symbol "int")))) <| link (int_ 1) <| link (int_ 9) .nil

end Samples

theorem channelBlock_hasChannel : channelBlock.HasChannel aliceAddress bobAddress aliceChannel := by
  decide

theorem channel_of_expr {s s' : ChannelState} (h : s.channel.expr = s'.channel.expr) : s = s' := by
  cases s
  cases s'
  simpa [ChannelState.channel, Channel.expr, link, typed] using h

end Runs

end Astreum
