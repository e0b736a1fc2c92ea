import Astreum.Rates
import Astreum.Records

namespace Astreum

variable (c : Ctx)

/-- `get_channel_from_storage` for the channel that `owner` holds with `counterparty`. -/
def channelState (owner counterparty : Bytes) : Stateful Ledger (Option Channel) := do
  let account ← held owner
  .ofExcept (Channel.fromStorage c.node (getFromRadixTree c.node account.channels counterparty))

/-- The last steps of every channel handler: the record goes into the tree and its cells go to the
pending ones. A record that hashes to nothing is refused. -/
def putChannel (owner counterparty : Bytes) (channel : Channel) : Stateful Ledger Bool := do
  let e := channel.expr
  if c.node.hash e = [] ∨ c.node.hash e = zero32 then return false
  let account ← held owner
  let tree ← .ofExcept (putInRadixTree account.channels counterparty (.hashOf e))
  setChannels owner tree
  return true

def pendChannel (channel : Channel) : Stateful Ledger Unit := do
  let (exprs, _) ← .ofExcept (resolveInnerExprs c.node channel.expr)
  extendPendingExprs exprs

def handleChannelUpdate (sender counterparty : Bytes) (newWithdrawalWindow : Val)
    (txAmount : Int) : Stateful Ledger Bool := do
  if txAmount < 0 then return false
  let some current ← channelState c sender counterparty | return false
  let withdrawalWindow :=
    if newWithdrawalWindow = .none then current.withdrawalWindow else newWithdrawalWindow
  let window ← .ofExcept withdrawalWindow.toInt
  let currentWindow ← .ofExcept current.withdrawalWindow.toInt
  if window < currentWindow then return false
  -- without an amount the balance is carried over unread
  let updatedBalance ← .ofExcept <|
    if 0 < txAmount then do
      let balance ← current.balance.toInt
      pure (Val.int (balance + txAmount))
    else pure current.balance
  let counter ← .ofExcept current.counter.toInt
  let channel : Channel := ⟨updatedBalance, .int (counter + 1), withdrawalWindow⟩
  if !(← putChannel c sender counterparty channel) then return false
  pendChannel c channel
  return true

def withdrawMessage (chainId : Int) (payer recipient : Bytes) (counter amount : Int) : Py Bytes := do
  let chain ← Python.toBytesUnsigned 8 chainId
  let counter ← Python.toBytesUnsigned 8 counter
  let amount ← Python.toBytesUnsigned 8 amount
  return 2 :: chain ++ payer ++ recipient ++ counter ++ amount

/-- Whether the payer signed the withdrawal. An amount or a counter that does not fit its eight
bytes is refused like a wrong signature. -/
def withdrawalSigned (t : Transaction) (counter amount : Val) (signature : Bytes) : Bool :=
  match counter, amount with
  | .int counter, .int amount =>
    match withdrawMessage t.chainId t.recipient t.sender counter amount with
    | .ok message => c.node.verify t.recipient signature message
    | .error _ => false
  | _, _ => false

def handleChannelWithdraw (t : Transaction) : Stateful Ledger Bool := do
  let [counterNode, amountNode, sigNode] := dataNodes c.node t.data | return false
  if c.node.tag counterNode ≠ "int" ∨ c.node.tag amountNode ≠ "int" ∨
      c.node.tag sigNode ≠ "bytes" then return false
  let requestedAmount ← .ofExcept amountNode.value.toInt
  if requestedAmount < 0 then return false
  let .bytes signature := sigNode | return false
  if !withdrawalSigned c t counterNode.value amountNode.value signature then return false
  let requestedCounter ← .ofExcept counterNode.value.toInt
  if (← getAccount c t.recipient).isNone then return false
  let some channel ← channelState c t.recipient t.sender | return false
  let some previous := c.header.previousBlock | .raise .attributeError
  let some timestamp := previous.timestamp | return false
  let window ← .ofExcept channel.withdrawalWindow.toInt
  if window ≤ timestamp then return false
  let storedCounter ← .ofExcept channel.counter.toInt
  if requestedCounter ≤ storedCounter then return false
  let balance ← .ofExcept channel.balance.toInt
  if balance < requestedAmount then return false
  let updated : Channel := ⟨.int (balance - requestedAmount), .int requestedCounter, .int window⟩
  if !(← putChannel c t.recipient t.sender updated) then return false
  addBalance t.sender requestedAmount
  pendChannel c updated
  involve t.recipient
  return true

def handleChannelClose (sender counterparty : Bytes) : Stateful Ledger Bool := do
  let some timestamp := c.header.previousBlock.bind Parent.timestamp | return false
  let some channel ← channelState c sender counterparty | return false
  let window ← .ofExcept channel.withdrawalWindow.toInt
  if timestamp ≤ window then return false
  let balance ← .ofExcept channel.balance.toInt
  addBalance sender balance
  let counter ← .ofExcept channel.counter.toInt
  let updated : Channel := ⟨.int 0, .int (counter + 1), .int window⟩
  if !(← putChannel c sender counterparty updated) then return false
  pendChannel c updated
  return true

end Astreum
