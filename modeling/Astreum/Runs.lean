import Astreum.Apply

namespace Astreum

/-- The account that a transaction of the block would find. -/
def Block.account (b : Block) (address : Bytes) : Option Account :=
  (b.ledger.cache.get? address).or (b.header.accountsTrie.get? address)

/-- An application of a transaction that went through. -/
structure Application where
  node : Node
  t : Transaction
  transactionHash : Bytes
  before : Block
  outcome : Outcome
  after : Block

/-- `after` starts from the accounts that `before` left. What is settled between two blocks moves
balances and stakes, and no counter. -/
def Block.Opens (before after : Block) : Prop :=
  ∀ a account, before.account a = some account →
    ∃ account', after.account a = some account' ∧ account'.counter = account.counter

/-- Transactions one after the other, over any number of blocks. A transaction that raises leaves no
record, and the block goes on from what it left. -/
inductive Run : Block → List Application → Block → Prop
  | stop (b : Block) : Run b [] b
  | applied {node : Node} {t : Transaction} {transactionHash : Bytes} {b b₁ b' : Block}
      {o : Outcome} {trace : List Application}
      (h : applyTxEffects t transactionHash node b = (.ok o, b₁)) (rest : Run b₁ trace b') :
      Run b (⟨node, t, transactionHash, b, o, b₁⟩ :: trace) b'
  | raised {node : Node} {t : Transaction} {transactionHash : Bytes} {b b₁ b' : Block}
      {e : PyError} {trace : List Application}
      (h : applyTxEffects t transactionHash node b = (.error e, b₁)) (rest : Run b₁ trace b') :
      Run b trace b'
  | opened {b b₁ b' : Block} {trace : List Application} (h : b.Opens b₁) (rest : Run b₁ trace b') :
      Run b trace b'

/-- `Accounts.update_trie`: the tree that the accounts of a block leave. -/
def Block.updateTrie (b : Block) : Dict Bytes Account := b.header.accountsTrie.putAll b.ledger.cache

/-- The block after `b` that has read nothing yet. -/
theorem opens_of_updateTrie {b b' : Block} (hcache : b'.ledger.cache = .empty)
    (htrie : b'.header.accountsTrie = b.updateTrie) : b.Opens b' := by
  intro a account ha
  refine ⟨account, ?_, rfl⟩
  rw [Block.account, hcache, htrie, Block.updateTrie, Dict.get?_putAll, Dict.get?_empty,
    Option.none_or]
  exact ha

end Astreum
