import Astreum.Transaction
import Astreum.Sorted

namespace Astreum

/-- A cell of a message with its children linked in. The hash of a cell is computed when the message
is read and kept with the cell whatever becomes of it. `absent` stands where a cell has no child. -/
inductive Linked where
  | absent
  | nil
  | symbol (hash : Bytes) (value : String)
  | bytes (hash : Bytes) (value : Bytes)
  | link (hash : Bytes) (value : Val) (head tail : Linked)
  deriving DecidableEq

namespace Linked

def hash : Linked → Bytes
  | absent => zero32
  | nil => zero32
  | symbol h _ => h
  | bytes h _ => h
  | link h _ _ _ => h

/-- `get_expr_builtin_tag`. -/
def builtinTag : Linked → String
  | symbol _ _ => "symbol"
  | bytes _ _ => "bytes"
  | link _ _ _ (symbol _ tag) => if tag ∈ builtinCompositeTypeNames then tag else "link"
  | _ => "link"

def value : Linked → Val
  | symbol _ s => .str s
  | bytes _ b => .raw b
  | link _ v _ _ => v
  | _ => .none

def head : Linked → Linked
  | link _ _ h _ => h
  | _ => absent

def tail : Linked → Linked
  | link _ _ _ t => t
  | _ => absent

/-- `base == "link"`. -/
def isLink : Linked → Bool
  | link _ _ _ _ => true
  | nil => true
  | _ => false

/-- `_list_items`: the heads along a chain of links. -/
def items : Linked → List Linked
  | link _ _ h t => (if h = absent then [] else [h]) ++ t.items
  | _ => []

end Linked

section Pages

/-- The entries of a page, each with its length in front. -/
def pageEntries : Nat → Bytes → Py (List Expr)
  | 0, rest => if rest = [] then .ok [] else .error .valueError
  | count + 1, rest =>
    if rest.length < 4 then .error .valueError
    else
      let exprLen := Python.fromBytesBig (rest.take 4)
      if exprLen = 0 ∨ (rest.drop 4).length < exprLen then .error .valueError
      else do
        let expr ← decodeExprFromBytes ((rest.drop 4).take exprLen)
        let exprs ← pageEntries count ((rest.drop 4).drop exprLen)
        return expr :: exprs

/-- `decode_found_page`. -/
def decodeFoundPage (payload : Bytes) : Py (Nat × Nat × List Expr) :=
  if payload.length < 7 ∨ payload.head? ≠ some 1 then .error .valueError
  else
    let page := Python.fromBytesBig ((payload.drop 1).take 2)
    let total := Python.fromBytesBig ((payload.drop 3).take 2)
    let count := Python.fromBytesBig ((payload.drop 5).take 2)
    if total = 0 ∨ page = 0 ∨ total < page ∨ count = 0 then .error .valueError
    else do
      let exprs ← pageEntries count (payload.drop 7)
      return (page, total, exprs)

variable (blake3 : Bytes → Bytes)

/-- `encode_expr_to_bytes`. -/
def encodeExprToBytes : Expr → Bytes
  | .symbol s => 1 :: utf8 s
  | .bytes b => 2 :: b
  | e => 0 :: e.getHeadHash blake3 ++ e.getTailHash blake3

/-- `MAX_INLINE_MESSAGE_BYTES`. -/
def maxInlineMessageBytes : Nat := 65507 - (8 + 1 + 32 + 12 + 8 + 1 + 16)

/-- `PAGE_ENTRY_BUDGET`. -/
def pageEntryBudget : Nat := maxInlineMessageBytes - 33 - 7

/-- `n.to_bytes(len, "big", signed=False)`. -/
def toBytesBig (len n : Nat) : Py Bytes := (Python.toBytesUnsigned len n).map List.reverse

def pageEntry (entry : Bytes) : Py Bytes := do
  return (← toBytesBig 4 entry.length) ++ entry

def joinEntries : List Bytes → Py Bytes
  | [] => return []
  | entry :: entries => do
    let first ← pageEntry entry
    return first ++ (← joinEntries entries)

/-- `_build_page`. -/
def buildPage (page total : Nat) (entries : List Bytes) : Py Bytes := do
  let header := 1 :: (← toBytesBig 2 page) ++ (← toBytesBig 2 total) ++ (← toBytesBig 2 entries.length)
  return header ++ (← joinEntries entries)

/-- The loop of `encode_found_pages`, where an entry that is too large raises. -/
def packPages (page : List Bytes) (used : Nat) : List Expr → Py (List (List Bytes))
  | [] => return [page]
  | e :: exprs => do
    let entry := encodeExprToBytes blake3 e
    let cost := 4 + entry.length
    if pageEntryBudget < cost then .error .valueError
    else if pageEntryBudget < used + cost then do
      return page :: (← packPages [entry] cost exprs)
    else packPages (page ++ [entry]) (used + cost) exprs

/-- `_encode_single_page`. -/
def encodeSinglePage (exprs : List Expr) : Py Bytes :=
  match exprs with
  | [] => .error .valueError
  | root :: exprs => do
    let entry := encodeExprToBytes blake3 root
    if pageEntryBudget < 4 + entry.length then .error .valueError
    else match ← packPages blake3 [entry] (4 + entry.length) exprs with
      | [page] => buildPage 1 1 page
      | _ => .error .valueError

end Pages

section Encoding

variable (blake3 : Bytes → Bytes)

/-- The hashes of `_KNOWN_TYPE_EXPRS`. -/
def isKnownType (hash : Bytes) : Bool :=
  builtinCompositeTypeNames.any fun name => terminalHash blake3 1 (utf8 name) == hash

/-- The bytes cell that stands for an inline value: `TAG_BYTE_ENCODINGS[tag](value)`. -/
def valueCell (v : Val) (tag : String) : Py (List Expr) :=
  match tagByteEncode tag v with
  | some data => .ok [.bytes data]
  | none => .error .typeError

/-- The type of a cell that holds its value inline. -/
def inlineType? (v : Val) (t : Child) : Option String :=
  match t with
  | .loaded (.symbol tag) => if v ≠ .none ∧ tag ∈ builtinCompositeTypeNames then some tag else none
  | _ => none

mutual

/-- `_walk`: the cells of a tree in their order, a shared one each time that it is met. -/
def walkCells : Expr → Py (List Expr)
  | .link v h t =>
    if isKnownType blake3 ((Expr.link v h t).hash blake3) then .ok []
    else match inlineType? v t with
      | some tag => do return .link v h t :: (← valueCell v tag)
      | none => do
        let heads ← walkChild h
        let tails ← walkChild t
        return .link v h t :: (heads ++ tails)
  | e => .ok (if isKnownType blake3 (e.hash blake3) then [] else [e])

def walkChild : Child → Py (List Expr)
  | .loaded e => walkCells e
  | _ => .ok []

end

/-- `_add`: every cell once, by its hash. -/
def addCells (seen : List Bytes) : List Expr → List Expr
  | [] => []
  | e :: exprs =>
    let h := e.hash blake3
    if h ∈ seen then addCells seen exprs else e :: addCells (h :: seen) exprs

/-- `encode_transaction_message`, of the tree below `root`. -/
def encodeTransactionMessage (root : Expr) : Py Bytes := do
  let cells ← walkCells blake3 root
  encodeSinglePage blake3 (addCells blake3 [] cells)

end Encoding

/-- A transaction as a message gives it. Its integers are what the cells hold as their value, which
may be nothing. -/
structure MessageTransaction where
  chainId : Val
  amount : Val
  code : TransactionCode
  counter : Val
  costLimit : Val
  data : Linked
  recipient : Bytes
  sender : Bytes
  signature : Bytes
  bodyHash : Bytes
  hash : Bytes
  root : Linked
  deriving DecidableEq

/-- The eight fields of a transaction, the data by its hash. -/
structure MessageFields where
  amount : Val
  chainId : Val
  code : TransactionCode
  costLimit : Val
  counter : Val
  dataHash : Bytes
  recipient : Bytes
  sender : Bytes
  deriving DecidableEq

section Decoding

variable (blake3 : Bytes → Bytes)

/-- `_KNOWN_TYPE_EXPRS`. -/
def knownTypeExprs : List (Bytes × Expr) :=
  builtinCompositeTypeNames.map fun name => (terminalHash blake3 1 (utf8 name), .symbol name)

/-- `expr_map`: later cells overwrite earlier ones, and the known types overwrite all. -/
def exprMap (exprs : List Expr) : List (Bytes × Expr) :=
  knownTypeExprs blake3 ++ (exprs.map fun e => (e.hash blake3, e)).reverse

/-- A child of a cell, linked by `link`. A hash that is zero stands for `zero`. -/
def linkChild (cells : List (Bytes × Expr)) (link : Expr → Py Linked) (zero : Linked) :
    Child → Py Linked
  | .none => .ok .absent
  | .loaded e => link e
  | .byHash x =>
    if x = zero32 then .ok zero
    else match lookupPair x cells with
      | some e => link e
      | none => .error .keyError

/-- `_link_tree`: every hash is replaced by the cell that it names. -/
def linkTree (cells : List (Bytes × Expr)) : Nat → Expr → Py Linked
  | 0, _ => .error .outOfFuel
  | n + 1, e => match e with
    | .link v h t => do
      let head ← linkChild cells (linkTree cells n) .nil h
      let tail ← linkChild cells (linkTree cells n) .absent t
      return .link (e.hash blake3) v head tail
    | .symbol s => .ok (.symbol (e.hash blake3) s)
    | .bytes b => .ok (.bytes (e.hash blake3) b)
    | .bytesOf _ => .error .typeError
    | .nil => .ok .nil

/-- `_reconstruct_builtin_composites`: a bytes cell under a type symbol becomes a value. -/
def reconstruct : Linked → Py Linked
  | .link hash v h t =>
    match h, t with
    | .bytes _ b, .symbol s tag =>
      if tag ∈ builtinCompositeTypeNames then
        (tagByteDecode tag b).map fun v => .link hash v .absent (.symbol s tag)
      else .ok (.link hash v h t)
    | h, t => do
      let head ← reconstruct h
      let tail ← reconstruct t
      return .link hash v head tail
  | e => .ok e

/-- The checks of `_parse_transaction` on the integer cells of a body. -/
def integerCells (cells : List Linked) : Bool := cells.all fun cell => cell.builtinTag == "int"

/-- `TransactionCode(value)`. -/
def transactionCodeOf : Val → Py TransactionCode
  | .int n => TransactionCode.ofInt n
  | _ => .error .valueError

/-- `_parse_transaction`. -/
def parseTransaction (root : Linked) : Py MessageTransaction :=
  if !root.head.isLink then .error .valueError
  else match root.head.items with
    | [body, .bytes _ signature] =>
      if !body.isLink then .error .valueError
      else match body.items with
        | [amount, chainId, code, costLimit, counter, data, .bytes _ recipient, .bytes _ sender] =>
          if !integerCells [amount, chainId, code, costLimit, counter] then .error .valueError
          else do
            let transactionCode ← transactionCodeOf code.value
            return {
              chainId := chainId.value
              amount := amount.value
              code := transactionCode
              counter := counter.value
              costLimit := costLimit.value
              data, recipient, sender, signature
              bodyHash := body.hash
              hash := root.hash
              root }
        | _ => .error .valueError
    | _ => .error .valueError

/-- `decode_transaction_message`. What the reconstruction raises is not caught. `fuel` bounds the
depth of the cells. -/
def decodeTransactionMessage (fuel : Nat) (content : Bytes) : Py (Option MessageTransaction) :=
  match decodeFoundPage content with
  | .ok (1, 1, root :: exprs) =>
    if root.base ≠ .link then .ok none
    else match linkTree blake3 (exprMap blake3 (root :: exprs)) fuel root with
      | .error .keyError => .ok none
      | .error err => .error err
      | .ok root => do
        let root ← reconstruct root
        match root.tail with
        | .symbol _ "transaction" => return (parseTransaction root).toOption
        | _ => return none
  | _ => .ok none

end Decoding

section Signature

variable (blake3 : Bytes → Bytes)

/-- `int_(value).hash()`. -/
def intHash (v : Val) : Bytes :=
  let head := match tagByteEncode "int" v with
    | some data => terminalHash blake3 2 data
    | none => zero32
  linkHash blake3 head (terminalHash blake3 1 (utf8 "int"))

/-- The hash of a chain of links over items with these hashes. -/
def chainHash (items : List Bytes) (last : Bytes) : Bytes := items.foldr (linkHash blake3) last

namespace MessageTransaction

/-- `_body().hash()`: the body is built again from the fields. -/
def signedHash (t : MessageTransaction) : Bytes :=
  chainHash blake3 [intHash blake3 t.amount, intHash blake3 t.chainId,
    intHash blake3 (.int t.code.value), intHash blake3 t.costLimit, intHash blake3 t.counter,
    t.data.hash, terminalHash blake3 2 t.recipient, terminalHash blake3 2 t.sender] zero32

def verifySignature (verify : (publicKey signature message : Bytes) → Bool)
    (t : MessageTransaction) : Bool :=
  decide (t.signature.length = 64) && decide (t.sender.length = 32) &&
    verify t.sender t.signature (t.signedHash blake3)

def fields (t : MessageTransaction) : MessageFields where
  amount := t.amount
  chainId := t.chainId
  code := t.code
  costLimit := t.costLimit
  counter := t.counter
  dataHash := t.data.hash
  recipient := t.recipient
  sender := t.sender

end MessageTransaction

end Signature

section Received

variable (blake3 : Bytes → Bytes)

/-- A cell off the wire. -/
inductive WireCell : Expr → Prop
  | link (head tail : Bytes) : WireCell (.link .none (.byHash head) (.byHash tail))
  | symbol (s : String) : WireCell (.symbol s)
  | bytes (b : Bytes) : WireCell (.bytes b)

/-- A linked cell whose hash is the one of its parts. -/
def Linked.Plain : Linked → Prop
  | .absent => True
  | .nil => True
  | .symbol hash s => hash = terminalHash blake3 1 (utf8 s)
  | .bytes hash b => hash = terminalHash blake3 2 b
  | .link hash v h t =>
    v = .none ∧ h ≠ .absent ∧ hash = linkHash blake3 h.hash t.hash ∧ h.Plain ∧ t.Plain

/-- A linked cell after the reconstruction. A link without a head holds a value under a type. -/
def Linked.Received : Linked → Prop
  | .absent => True
  | .nil => True
  | .symbol hash s => hash = terminalHash blake3 1 (utf8 s)
  | .bytes hash b => hash = terminalHash blake3 2 b
  | .link hash _ h t =>
    (h = .absent ∧ t.items = []) ∨
      (h ≠ .absent ∧ hash = linkHash blake3 h.hash t.hash ∧ h.Received ∧ t.Received)

/-- Where a list ends: behind its last item. -/
def Linked.listEnd : Linked → Linked
  | .link hash v h t => if h = .absent then .link hash v h t else t.listEnd
  | e => e

variable {blake3}

theorem decodeExprFromBytes_wire {data : Bytes} {e : Expr} (h : decodeExprFromBytes data = .ok e) :
    WireCell e := by
  rw [decodeExprFromBytes.eq_def] at h
  split at h
  · split at h
    · cases h
    · cases h
      exact .link _ _
  · rename_i rest
    rcases hs : utf8Decode rest with err | s <;> rw [hs] at h
    · cases h
    · cases h
      exact .symbol s
  · cases h
    exact .bytes _
  · cases h

theorem pageEntries_wire {count : Nat} {rest : Bytes} {exprs : List Expr}
    (h : pageEntries count rest = .ok exprs) : ∀ e ∈ exprs, WireCell e := by
  induction count generalizing rest exprs with
  | zero =>
    rw [pageEntries] at h
    split at h
    · cases h
      exact fun _ h => absurd h List.not_mem_nil
    · cases h
  | succ count ih =>
    rw [pageEntries] at h
    split at h
    · cases h
    dsimp only at h
    split at h
    · cases h
    obtain ⟨expr, hexpr, h⟩ := except_bind_eq_ok.mp h
    obtain ⟨others, hothers, h⟩ := except_bind_eq_ok.mp h
    cases h
    intro e he
    rcases List.mem_cons.mp he with rfl | he
    · exact decodeExprFromBytes_wire hexpr
    · exact ih hothers e he

theorem decodeFoundPage_wire {payload : Bytes} {page total : Nat} {exprs : List Expr}
    (h : decodeFoundPage payload = .ok (page, total, exprs)) : ∀ e ∈ exprs, WireCell e := by
  rw [decodeFoundPage] at h
  split at h
  · cases h
  dsimp only at h
  split at h
  · cases h
  obtain ⟨found, hfound, h⟩ := except_bind_eq_ok.mp h
  cases h
  exact pageEntries_wire hfound

/-- A cell that a message names is one of its cells, or a type, under its own hash. -/
theorem exprMap_lookup {exprs : List Expr} {x : Bytes} {e : Expr}
    (hwire : ∀ e ∈ exprs, WireCell e) (h : lookupPair x (exprMap blake3 exprs) = some e) :
    e.hash blake3 = x ∧ WireCell e := by
  have hmem := mem_of_lookupPair h
  rcases List.mem_append.mp hmem with htype | hcell
  · obtain ⟨name, -, hname⟩ := List.mem_map.mp htype
    obtain ⟨rfl, rfl⟩ := Prod.mk.inj hname
    exact ⟨rfl, .symbol name⟩
  · obtain ⟨e', he', hpair⟩ := List.mem_map.mp (List.mem_reverse.mp hcell)
    obtain ⟨rfl, rfl⟩ := Prod.mk.inj hpair
    exact ⟨rfl, hwire e' he'⟩

/-- Linking keeps the hash of every cell. -/
theorem linkTree_ok {cells : List (Bytes × Expr)}
    (hcells : ∀ x e, lookupPair x cells = some e → e.hash blake3 = x ∧ WireCell e) {n : Nat}
    {e : Expr} {l : Linked} (hwire : WireCell e) (h : linkTree blake3 cells n e = .ok l) :
    l.hash = e.hash blake3 ∧ l.Plain blake3 ∧ l ≠ .absent := by
  induction n generalizing e l with
  | zero => cases h
  | succ n ih =>
    have hchild : ∀ (zero : Linked) (x : Bytes) (l : Linked), zero.hash = zero32 →
        zero.Plain blake3 → linkChild cells (linkTree blake3 cells n) zero (.byHash x) = .ok l →
        l.hash = x ∧ l.Plain blake3 ∧ (zero ≠ .absent → l ≠ .absent) := by
      intro zero x l hzero hplain h
      rw [linkChild] at h
      split at h
      · rename_i hx
        cases h
        exact ⟨hzero.trans hx.symm, hplain, id⟩
      · rcases hfound : lookupPair x cells with _ | found <;> rw [hfound] at h
        · cases h
        · obtain ⟨hhash, hfoundWire⟩ := hcells x found hfound
          obtain ⟨hl, hp, hne⟩ := ih hfoundWire h
          exact ⟨hl.trans hhash, hp, fun _ => hne⟩
    cases hwire with
    | link head tail =>
      rw [linkTree] at h
      obtain ⟨hd, hhead, h⟩ := except_bind_eq_ok.mp h
      obtain ⟨tl, htail, h⟩ := except_bind_eq_ok.mp h
      cases h
      obtain ⟨hhd, hpd, hne⟩ := hchild .nil head hd rfl trivial hhead
      obtain ⟨htl, hpt, -⟩ := hchild .absent tail tl rfl trivial htail
      refine ⟨rfl, ⟨rfl, hne fun h => (by cases h), ?_, hpd, hpt⟩, fun h => by cases h⟩
      rw [hhd, htl]
      simp [Expr.hash, Child.hash]
    | symbol s =>
      cases h
      exact ⟨rfl, by simp [Linked.Plain, Expr.hash], fun h => by cases h⟩
    | bytes b =>
      cases h
      exact ⟨rfl, by simp [Linked.Plain, Expr.hash], fun h => by cases h⟩

/-- The reconstruction keeps the hash of every cell. -/
theorem reconstruct_ok {l l' : Linked} (hplain : l.Plain blake3) (h : reconstruct l = .ok l') :
    l'.hash = l.hash ∧ l'.Received blake3 ∧ (l ≠ .absent → l' ≠ .absent) := by
  induction l generalizing l' with
  | absent =>
    cases h
    exact ⟨rfl, trivial, id⟩
  | nil =>
    cases h
    exact ⟨rfl, trivial, id⟩
  | symbol hash s =>
    cases h
    exact ⟨rfl, hplain, id⟩
  | bytes hash b =>
    cases h
    exact ⟨rfl, hplain, id⟩
  | link hash v hd tl ihd itl =>
    obtain ⟨-, hne, hhash, hpd, hpt⟩ := hplain
    rw [reconstruct.eq_def] at h
    dsimp only at h
    split at h
    · split at h
      · rename_i h₁ b h₂ tag htag
        rcases hv : tagByteDecode tag b with err | v' <;> rw [hv] at h
        · cases h
        · cases h
          exact ⟨rfl, .inl ⟨rfl, rfl⟩, nofun⟩
      · cases h
        exact ⟨rfl, .inr ⟨hne, hhash, hpd, hpt⟩, nofun⟩
    · obtain ⟨hd', hhd, h⟩ := except_bind_eq_ok.mp h
      obtain ⟨tl', htl, h⟩ := except_bind_eq_ok.mp h
      cases h
      obtain ⟨ehd, rhd, nhd⟩ := ihd hpd hhd
      obtain ⟨etl, rtl, -⟩ := itl hpt htl
      exact ⟨rfl, .inr ⟨nhd hne, by rw [hhash, ehd, etl], rhd, rtl⟩, nofun⟩

/-- A chain has the hash of its items over its end. -/
theorem hash_of_chain {e : Linked} (h : e.Received blake3) :
    e.hash = chainHash blake3 (e.items.map Linked.hash) e.listEnd.hash ∧
      ∀ item ∈ e.items, item.Received blake3 := by
  induction e with
  | link hash v hd tl _ itl =>
    rcases h with ⟨hnone, htail⟩ | ⟨hne, hhash, hhd, htl⟩
    · rw [Linked.items, Linked.listEnd, if_pos hnone, if_pos hnone, htail]
      exact ⟨rfl, fun _ h => absurd h List.not_mem_nil⟩
    · obtain ⟨hchain, hitems⟩ := itl htl
      rw [Linked.items, Linked.listEnd, if_neg hne, if_neg hne]
      refine ⟨hhash.trans (by rw [hchain]; rfl), fun item hitem => ?_⟩
      rcases List.mem_cons.mp hitem with rfl | hitem
      · exact hhd
      · exact hitems item hitem
  | _ => exact ⟨rfl, fun _ h => absurd h List.not_mem_nil⟩

end Received

section Malleability

variable {blake3 : Bytes → Bytes} {fuel : Nat} {content content₁ content₂ : Bytes}
  {t t₁ t₂ : MessageTransaction}

/-- What a message holds of a transaction besides its fields and its signature: the cells in which
the five integers are written, in the order of the body, and the ends of its two lists. -/
structure Written where
  integers : List Bytes
  bodyEnd : Bytes
  headerEnd : Bytes
  deriving DecidableEq

def Linked.written (root : Linked) : Written :=
  match root.head.items with
  | body :: _ => ⟨(body.items.take 5).map Linked.hash, body.listEnd.hash, root.head.listEnd.hash⟩
  | [] => ⟨[], [], []⟩

/-- The cells of a message. -/
def messageCells (content : Bytes) : List Expr :=
  match decodeFoundPage content with
  | .ok (_, _, exprs) => exprs
  | .error _ => []

/-- How the transaction in a message is written. -/
def writtenIn (blake3 : Bytes → Bytes) (fuel : Nat) (content : Bytes) : Option Written :=
  match messageCells content with
  | root :: exprs =>
    match (linkTree blake3 (exprMap blake3 (root :: exprs)) fuel root).bind reconstruct with
    | .ok root => some root.written
    | .error _ => none
  | [] => none

/-- The cells of a transaction that was parsed. -/
theorem parseTransaction_eq_ok {root : Linked} (h : parseTransaction root = .ok t) :
    t.root = root ∧ t.hash = root.hash ∧ root.head.isLink ∧
    ∃ body sigHash amount chainId code costLimit counter recipientHash senderHash,
      root.head.items = [body, .bytes sigHash t.signature] ∧ t.bodyHash = body.hash ∧ body.isLink ∧
      body.items = [amount, chainId, code, costLimit, counter, t.data,
        .bytes recipientHash t.recipient, .bytes senderHash t.sender] ∧
      integerCells [amount, chainId, code, costLimit, counter] = true := by
  rw [parseTransaction] at h
  split at h
  · cases h
  rename_i hinner
  split at h
  · rename_i body sigHash signature hitems
    split at h
    · cases h
    rename_i hbody
    split at h
    · rename_i amount chainId code costLimit counter data rHash recipient sHash sender hfields
      split at h
      · cases h
      rename_i hintegers
      obtain ⟨transactionCode, -, h⟩ := except_bind_eq_ok.mp h
      cases h
      exact ⟨rfl, rfl, by simpa using hinner, body, sigHash, amount, chainId, code, costLimit,
        counter, rHash, sHash, hitems, rfl, by simpa using hbody, hfields, by simpa using hintegers⟩
    · cases h
  · cases h

/-- How a message that is accepted was read. -/
theorem decodeTransactionMessage_eq_some
    (h : decodeTransactionMessage blake3 fuel content = .ok (some t)) :
    ∃ root exprs linked, messageCells content = root :: exprs ∧
      (∀ e ∈ root :: exprs, WireCell e) ∧
      linkTree blake3 (exprMap blake3 (root :: exprs)) fuel root = .ok linked ∧
      reconstruct linked = .ok t.root ∧ (∃ hash, t.root.tail = .symbol hash "transaction") ∧
      parseTransaction t.root = .ok t := by
  rw [decodeTransactionMessage.eq_def] at h
  split at h
  · rename_i root exprs hpage
    split at h
    · cases h
    have hcells : messageCells content = root :: exprs := by rw [messageCells, hpage]
    rcases hlink : linkTree blake3 (exprMap blake3 (root :: exprs)) fuel root with err | linked <;>
      rw [hlink] at h
    · cases err <;> cases h
    · obtain ⟨root', hroot, h⟩ := except_bind_eq_ok.mp h
      split at h
      · rename_i hash htail
        rcases hparse : parseTransaction root' with err | t' <;> rw [hparse] at h
        · cases h
        · cases h
          rw [(parseTransaction_eq_ok hparse).1]
          exact ⟨root, exprs, linked, hcells, decodeFoundPage_wire hpage, hlink, hroot,
            ⟨hash, htail⟩, hparse⟩
      · cases h
  · cases h

theorem writtenIn_of_accepted
    (h : decodeTransactionMessage blake3 fuel content = .ok (some t)) :
    writtenIn blake3 fuel content = some t.root.written := by
  obtain ⟨root, exprs, linked, hcells, -, hlink, hroot, -, -⟩ := decodeTransactionMessage_eq_some h
  have hbind : (linkTree blake3 (exprMap blake3 (root :: exprs)) fuel root).bind reconstruct =
      .ok t.root := by
    rw [hlink]
    exact hroot
  rw [writtenIn, hcells]
  simp only [hbind]

/-- The hash of a transaction is the one of its signature and its fields as they are written. -/
theorem hash_of_message (h : decodeTransactionMessage blake3 fuel content = .ok (some t)) :
    ∃ body, body = chainHash blake3 (t.root.written.integers ++ [t.data.hash,
        terminalHash blake3 2 t.recipient, terminalHash blake3 2 t.sender]) t.root.written.bodyEnd ∧
      t.hash = linkHash blake3
        (chainHash blake3 [body, terminalHash blake3 2 t.signature] t.root.written.headerEnd)
        (terminalHash blake3 1 (utf8 "transaction")) := by
  obtain ⟨root, exprs, linked, -, hwire, hlink, hroot, ⟨tailHash, htail⟩, hparse⟩ :=
    decodeTransactionMessage_eq_some h
  obtain ⟨-, hplain, -⟩ :=
    linkTree_ok (fun x e => exprMap_lookup hwire) (hwire root List.mem_cons_self) hlink
  obtain ⟨-, hreceived, -⟩ := reconstruct_ok hplain hroot
  obtain ⟨-, hhash, hinner, body, sigHash, amount, chainId, code, costLimit, counter, rHash, sHash,
    hitems, -, hbody, hfields, -⟩ := parseTransaction_eq_ok hparse
  rcases hr : t.root with _ | _ | ⟨_, _⟩ | ⟨_, _⟩ | ⟨hash, v, hd, tl⟩ <;>
    rw [hr] at hreceived hhash hinner hitems htail
  case link =>
    have htl : tl = .symbol tailHash "transaction" := htail
    subst htl
    rcases hreceived with ⟨hnone, -⟩ | ⟨-, hroothash, hhd, htailhash⟩
    · have hheads : hd.items = [] := by rw [hnone]; rfl
      cases hheads.symm.trans hitems
    · have htransaction : tailHash = terminalHash blake3 1 (utf8 "transaction") := htailhash
      obtain ⟨hheader, hreceivedItems⟩ := hash_of_chain hhd
      have hheadItems : hd.items = [body, .bytes sigHash t.signature] := hitems
      rw [hheadItems] at hheader hreceivedItems
      have hsig : sigHash = terminalHash blake3 2 t.signature :=
        hreceivedItems (.bytes sigHash t.signature) (by simp)
      obtain ⟨hbodyHash, hbodyItems⟩ := hash_of_chain (hreceivedItems body (by simp))
      rw [hfields] at hbodyHash hbodyItems
      have hrecipient : rHash = terminalHash blake3 2 t.recipient :=
        hbodyItems (.bytes rHash t.recipient) (by simp)
      have hsender : sHash = terminalHash blake3 2 t.sender :=
        hbodyItems (.bytes sHash t.sender) (by simp)
      have hwritten : (Linked.link hash v hd (.symbol tailHash "transaction")).written =
          ⟨[amount, chainId, code, costLimit, counter].map Linked.hash,
          body.listEnd.hash, hd.listEnd.hash⟩ := by
        rw [Linked.written, Linked.head, hheadItems]
        dsimp only
        rw [hfields]
        rfl
      rw [hwritten]
      refine ⟨body.hash, ?_, ?_⟩
      · rw [hbodyHash]
        simp only [List.map_cons, List.map_nil, List.cons_append, List.nil_append, Linked.hash,
          hrecipient, hsender]
      · rw [hhash, Linked.hash, hroothash, hheader, ← htransaction]
        simp only [List.map_cons, List.map_nil, Linked.hash, hsig]
  all_goals cases hitems

/-- Two maps that agree where both have a cell link a cell to the same tree. -/
theorem linkTree_unique {cells₁ cells₂ : List (Bytes × Expr)}
    (hagree : ∀ x e₁ e₂, lookupPair x cells₁ = some e₁ → lookupPair x cells₂ = some e₂ → e₁ = e₂)
    {n : Nat} {e : Expr} {l₁ l₂ : Linked} (h₁ : linkTree blake3 cells₁ n e = .ok l₁)
    (h₂ : linkTree blake3 cells₂ n e = .ok l₂) : l₁ = l₂ := by
  induction n generalizing e l₁ l₂ with
  | zero => cases h₁
  | succ n ih =>
    have hchild : ∀ (zero : Linked) (child : Child) (l₁ l₂ : Linked),
        linkChild cells₁ (linkTree blake3 cells₁ n) zero child = .ok l₁ →
        linkChild cells₂ (linkTree blake3 cells₂ n) zero child = .ok l₂ → l₁ = l₂ := by
      intro zero child l₁ l₂ h₁ h₂
      cases child with
      | none =>
        cases h₁
        cases h₂
        rfl
      | loaded e => exact ih h₁ h₂
      | byHash x =>
        rw [linkChild] at h₁ h₂
        split at h₁
        · rename_i hx
          rw [if_pos hx] at h₂
          cases h₁
          cases h₂
          rfl
        · rename_i hx
          rw [if_neg hx] at h₂
          rcases hf₁ : lookupPair x cells₁ with _ | e₁ <;> rw [hf₁] at h₁
          · cases h₁
          rcases hf₂ : lookupPair x cells₂ with _ | e₂ <;> rw [hf₂] at h₂
          · cases h₂
          obtain rfl := hagree x e₁ e₂ hf₁ hf₂
          exact ih h₁ h₂
    cases e with
    | link v head tail =>
      rw [linkTree] at h₁ h₂
      obtain ⟨hd₁, hhead₁, h₁⟩ := except_bind_eq_ok.mp h₁
      obtain ⟨tl₁, htail₁, h₁⟩ := except_bind_eq_ok.mp h₁
      obtain ⟨hd₂, hhead₂, h₂⟩ := except_bind_eq_ok.mp h₂
      obtain ⟨tl₂, htail₂, h₂⟩ := except_bind_eq_ok.mp h₂
      cases h₁
      cases h₂
      rw [hchild .nil head hd₁ hd₂ hhead₁ hhead₂, hchild .absent tail tl₁ tl₂ htail₁ htail₂]
    | bytesOf e => cases h₁
    | _ =>
      cases h₁
      cases h₂
      rfl

/-- No two different cells of the two messages have the same hash. -/
def CellsApart (blake3 : Bytes → Bytes) (content₁ content₂ : Bytes) : Prop :=
  ∀ e₁ ∈ messageCells content₁, ∀ e₂ ∈ messageCells content₂,
    e₁.hash blake3 = e₂.hash blake3 → e₁ = e₂

instance (blake3 : Bytes → Bytes) (content₁ content₂ : Bytes) :
    Decidable (CellsApart blake3 content₁ content₂) :=
  inferInstanceAs (Decidable (∀ _ ∈ _, ∀ _ ∈ _, _))

/-- Transactions with the same hash have the same cells. -/
theorem root_of_hash (h₁ : decodeTransactionMessage blake3 fuel content₁ = .ok (some t₁))
    (h₂ : decodeTransactionMessage blake3 fuel content₂ = .ok (some t₂))
    (hapart : CellsApart blake3 content₁ content₂) (hhash : t₁.hash = t₂.hash) :
    t₁.root = t₂.root := by
  obtain ⟨root₁, exprs₁, linked₁, hcells₁, hwire₁, hlink₁, hroot₁, -, hparse₁⟩ :=
    decodeTransactionMessage_eq_some h₁
  obtain ⟨root₂, exprs₂, linked₂, hcells₂, hwire₂, hlink₂, hroot₂, -, hparse₂⟩ :=
    decodeTransactionMessage_eq_some h₂
  have hkeep : ∀ {root : Expr} {exprs : List Expr} {linked : Linked} {t : MessageTransaction},
      (∀ e ∈ root :: exprs, WireCell e) →
      linkTree blake3 (exprMap blake3 (root :: exprs)) fuel root = .ok linked →
      reconstruct linked = .ok t.root → parseTransaction t.root = .ok t →
      t.hash = root.hash blake3 := by
    intro root exprs linked t hwire hlink hroot hparse
    obtain ⟨hlinked, hplain, -⟩ :=
      linkTree_ok (fun x e => exprMap_lookup hwire) (hwire root List.mem_cons_self) hlink
    rw [(parseTransaction_eq_ok hparse).2.1, (reconstruct_ok hplain hroot).1, hlinked]
  have hsame : root₁ = root₂ := by
    refine hapart root₁ (by rw [hcells₁]; exact List.mem_cons_self) root₂
      (by rw [hcells₂]; exact List.mem_cons_self) ?_
    rw [← hkeep hwire₁ hlink₁ hroot₁ hparse₁, ← hkeep hwire₂ hlink₂ hroot₂ hparse₂, hhash]
  subst hsame
  have hagree : ∀ x e₁ e₂, lookupPair x (exprMap blake3 (root₁ :: exprs₁)) = some e₁ →
      lookupPair x (exprMap blake3 (root₁ :: exprs₂)) = some e₂ → e₁ = e₂ := by
    intro x e₁ e₂ he₁ he₂
    rw [exprMap, lookupPair_append] at he₁ he₂
    rcases hknown : lookupPair x (knownTypeExprs blake3) with _ | known <;>
      rw [hknown] at he₁ he₂
    · have hmem : ∀ {exprs : List Expr} {e : Expr},
          lookupPair x (exprs.map fun e => (e.hash blake3, e)).reverse = some e →
          e ∈ exprs ∧ e.hash blake3 = x := by
        intro exprs e he
        obtain ⟨e', he', hpair⟩ := List.mem_map.mp (List.mem_reverse.mp (mem_of_lookupPair he))
        obtain ⟨rfl, rfl⟩ := Prod.mk.inj hpair
        exact ⟨he', rfl⟩
      rw [Option.none_or] at he₁ he₂
      obtain ⟨hmem₁, hhash₁⟩ := hmem he₁
      obtain ⟨hmem₂, hhash₂⟩ := hmem he₂
      rw [← hcells₁] at hmem₁
      rw [← hcells₂] at hmem₂
      exact hapart e₁ hmem₁ e₂ hmem₂ (hhash₁.trans hhash₂.symm)
    · rw [Option.some_or] at he₁ he₂
      exact Option.some.inj (he₁.symm.trans he₂)
  obtain rfl := linkTree_unique hagree hlink₁ hlink₂
  exact Except.ok.inj (hroot₁.symm.trans hroot₂)

/-- Two messages of one signed transaction give it one hash exactly when they write its integers
and end its lists in the same way. -/
theorem same_hash_iff_same_written {verify : (publicKey signature message : Bytes) → Bool}
    (h₁ : decodeTransactionMessage blake3 fuel content₁ = .ok (some t₁))
    (h₂ : decodeTransactionMessage blake3 fuel content₂ = .ok (some t₂))
    (hapart : CellsApart blake3 content₁ content₂) (hfields : t₁.fields = t₂.fields)
    (hsignature : t₁.signature = t₂.signature) :
    (t₁.verifySignature blake3 verify = t₂.verifySignature blake3 verify) ∧
    (t₁.hash = t₂.hash ↔ writtenIn blake3 fuel content₁ = writtenIn blake3 fuel content₂) := by
  simp only [MessageTransaction.fields, MessageFields.mk.injEq] at hfields
  obtain ⟨hamount, hchain, hcode, hcost, hcounter, hdata, hrecipient, hsender⟩ := hfields
  refine ⟨?_, fun hhash => ?_, fun hwritten => ?_⟩
  · simp only [MessageTransaction.verifySignature, MessageTransaction.signedHash, hamount, hchain,
      hcode, hcost, hcounter, hdata, hrecipient, hsender, hsignature]
  · rw [writtenIn_of_accepted h₁, writtenIn_of_accepted h₂, root_of_hash h₁ h₂ hapart hhash]
  · rw [writtenIn_of_accepted h₁, writtenIn_of_accepted h₂] at hwritten
    obtain ⟨body₁, hbody₁, hhash₁⟩ := hash_of_message h₁
    obtain ⟨body₂, hbody₂, hhash₂⟩ := hash_of_message h₂
    rw [hhash₁, hhash₂, hbody₁, hbody₂, Option.some.inj hwritten, hdata, hrecipient, hsender, hsignature]

section Samples

/-- A digest of eight bytes. Different cells of the samples have different digests. -/
def sampleDigest (bytes : Bytes) : Bytes :=
  let n := bytes.foldl (fun n b => (n * 257 + b.toNat + 1) % 2 ^ 64) 0
  ((List.range 8).map fun i => UInt8.ofNat (n / 256 ^ i)) ++ List.replicate 24 0

/-- The body of a transaction without data whose amount is in the cell given. -/
def bodyWith (amount : Expr) : Expr :=
  link amount <| link (int_ 0) <| link (int_ 0) <| link (int_ 0) <| link (int_ 0) <| link .nil <|
    link (.bytes (List.replicate 32 2)) <| link (.bytes (List.replicate 32 1)) .nil

def messageWith (amount : Expr) : Bytes :=
  let root := link (link (bodyWith amount) (link (.bytes (List.replicate 64 3)) .nil))
    (.symbol "transaction")
  (encodeTransactionMessage sampleDigest root).toOption.getD []

/-- The number 5 in two bytes. -/
def paddedFive : Expr := link (.bytes [5, 0]) (.symbol "int")

/-- The signer has signed the body with the amount 5, and nothing else. -/
def signedFive (_publicKey _signature message : Bytes) : Bool :=
  message == (bodyWith (int_ 5)).hash sampleDigest

theorem padded_five_is_read :
    ∃ t₁ t₂, decodeTransactionMessage sampleDigest 20 (messageWith (int_ 5)) = .ok (some t₁) ∧
      decodeTransactionMessage sampleDigest 20 (messageWith paddedFive) = .ok (some t₂) ∧
      (t₁.verifySignature sampleDigest signedFive = t₂.verifySignature sampleDigest signedFive) ∧
      (t₁.hash = t₂.hash ↔ writtenIn sampleDigest 20 (messageWith (int_ 5)) =
        writtenIn sampleDigest 20 (messageWith paddedFive)) := by
  have hread : ∀ {x : Py (Option MessageTransaction)}, x.map Option.isSome = .ok true →
      ∃ t, x = .ok (some t) := by
    intro x h
    rcases x with e | _ | t
    · cases h
    · cases h
    · exact ⟨t, rfl⟩
  obtain ⟨t₁, h₁⟩ := hread
    (by decide +kernel : (decodeTransactionMessage sampleDigest 20 (messageWith (int_ 5))).map
      Option.isSome = .ok true)
  obtain ⟨t₂, h₂⟩ := hread
    (by decide +kernel : (decodeTransactionMessage sampleDigest 20 (messageWith paddedFive)).map
      Option.isSome = .ok true)
  have hsame : (decodeTransactionMessage sampleDigest 20 (messageWith (int_ 5))).map
      (Option.map fun t => (t.fields, t.signature)) =
      (decodeTransactionMessage sampleDigest 20 (messageWith paddedFive)).map
        (Option.map fun t => (t.fields, t.signature)) := by decide +kernel
  rw [h₁, h₂] at hsame
  obtain ⟨hfields, hsignature⟩ := Prod.mk.inj (Option.some.inj (Except.ok.inj hsame))
  exact ⟨t₁, t₂, h₁, h₂,
    same_hash_iff_same_written h₁ h₂ (by decide +kernel) hfields hsignature⟩

/-- A message with the amount in two bytes has the fields and the signature of the one with the
amount in one byte, and passes the same check under another hash. -/
theorem padded_amount_changes_hash :
    ((decodeTransactionMessage sampleDigest 20 (messageWith (int_ 5))).map
        (Option.map fun t => (t.verifySignature sampleDigest signedFive, t.fields, t.signature)) =
      (decodeTransactionMessage sampleDigest 20 (messageWith paddedFive)).map
        (Option.map fun t => (true, t.fields, t.signature))) ∧
    ((decodeTransactionMessage sampleDigest 20 (messageWith paddedFive)).map
        (Option.map fun t => t.verifySignature sampleDigest signedFive) = .ok (some true)) ∧
    ((decodeTransactionMessage sampleDigest 20 (messageWith (int_ 5))).map
        (Option.map MessageTransaction.hash) ≠
      (decodeTransactionMessage sampleDigest 20 (messageWith paddedFive)).map
        (Option.map MessageTransaction.hash)) := by
  decide +kernel

end Samples

end Malleability

end Astreum
