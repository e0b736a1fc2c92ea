import Astreum.Python

namespace Astreum

mutual

/-- A cell. `nil` is the `NIL` singleton, told from other empty links by identity. `bytesOf` is a
bytes cell that was handed a cell in place of its bytes. -/
inductive Expr where
  | nil
  | symbol (value : String)
  | bytes (value : Bytes)
  | bytesOf (value : Expr)
  | link (value : Val) (head tail : Child)

/-- A side of a link: absent, held as a cell, or known by its hash only. -/
inductive Child where
  | none
  | loaded (e : Expr)
  | byHash (h : Bytes)

/-- What the `value` field of a cell can hold. Floats of 64 bits are kept as their bits. -/
inductive Val where
  | none
  | int (n : Int)
  | str (s : String)
  | f64 (bits : UInt64)
  | raw (b : Bytes)
  | cell (e : Expr)

end

deriving instance DecidableEq for Expr, Child, Val

instance : Inhabited Expr := ⟨.nil⟩

inductive Base where
  | link
  | symbol
  | bytes
  deriving DecidableEq, Repr

def Base.name : Base → String
  | .link => "link"
  | .symbol => "symbol"
  | .bytes => "bytes"

def Child.cell? : Child → Option Expr
  | .loaded e => some e
  | _ => Option.none

def Child.hash? : Child → Option Bytes
  | .byHash h => some h
  | _ => Option.none

namespace Expr

def base : Expr → Base
  | .symbol _ => .symbol
  | .bytes _ => .bytes
  | .bytesOf _ => .bytes
  | _ => .link

def value : Expr → Val
  | .symbol s => .str s
  | .bytes b => .raw b
  | .bytesOf e => .cell e
  | .link v _ _ => v
  | .nil => .none

def headChild : Expr → Child
  | .link _ h _ => h
  | _ => .none

def tailChild : Expr → Child
  | .link _ _ t => t
  | _ => .none

def head? (e : Expr) : Option Expr := e.headChild.cell?

def tail? (e : Expr) : Option Expr := e.tailChild.cell?

def headHash? (e : Expr) : Option Bytes := e.headChild.hash?

def tailHash? (e : Expr) : Option Bytes := e.tailChild.hash?

end Expr

def link (head tail : Expr) : Expr := .link .none (.loaded head) (.loaded tail)

/-- `Expr("link", head_hash=h)`: a wrapper that names a cell by its hash. -/
def refTo (h : Bytes) : Expr := .link .none (.byHash h) .none

def typed (value : Val) (tag : String) : Expr := .link value .none (.loaded (.symbol tag))

def int_ (value : Int) : Expr := typed (.int value) "int"

def str_ (value : String) : Expr := typed (.str value) "str"

def exprsToLinkedExpr (items : List Expr) : Expr := items.foldr link .nil

def floatTags : List String := ["e4m3", "e5m2", "fp16", "bf16", "fp32", "fp64"]

def builtinCompositeTypeNames : List String := ["int", "str"] ++ floatTags

/-- The names of `_BUILTIN_TYPE_HASH`, which also name the terminal types. -/
def builtinTypeNames : List String := builtinCompositeTypeNames ++ ["symbol", "bytes"]

def utf8 (s : String) : Bytes := s.toUTF8.data.toList

def utf8Decode (b : Bytes) : Py String :=
  match String.fromUTF8? ⟨b.toArray⟩ with
  | some s => .ok s
  | none => .error .valueError

/-- `TAG_BYTE_ENCODINGS[tag](value)`, for a value of the tag's own type. -/
def tagByteEncode (tag : String) : Val → Option Bytes
  | .int n => if tag = "int" then some (encodeInt n) else none
  | .str s => if tag = "str" ∨ tag = "symbol" then some (utf8 s) else none
  | .f64 bits => if tag = "fp64" then some (Python.toBytesLittle 8 bits.toNat) else none
  | .raw b => if tag ∈ floatTags ∨ tag = "bytes" then some b else none
  | _ => none

/-- `TAG_BYTE_DECODINGS[tag](data)`. -/
def tagByteDecode (tag : String) (data : Bytes) : Py Val :=
  if tag = "int" then .ok (.int (decodeInt data))
  else if tag = "str" ∨ tag = "symbol" then (utf8Decode data).map .str
  else if tag = "fp64" then
    if data.length = 8 then .ok (.f64 (UInt64.ofNat (Python.fromBytesLittle data)))
    else .error .structError
  else .ok (.raw data)

/-- `decode_expr_from_bytes`. -/
def decodeExprFromBytes : Bytes → Py Expr
  | 0 :: data =>
    if data.length < 64 then .error .valueError
    else .ok (.link .none (.byHash (data.take 32)) (.byHash ((data.drop 32).take 32)))
  | 1 :: data => Expr.symbol <$> utf8Decode data
  | 2 :: data => .ok (.bytes data)
  | _ => .error .valueError

/-- The encoded value of a cell that holds it inline under a type symbol. -/
def payload? : Val → Child → Option Bytes
  | v, .loaded (.symbol tag) => tagByteEncode tag v
  | _, _ => none

namespace Expr

def isBuiltinComposite : Expr → Bool
  | .link v h (.loaded (.symbol tag)) =>
    decide (tag ∈ builtinCompositeTypeNames) &&
      (v != .none || (match h with
        | .loaded e => e.base == .bytes
        | _ => false))
  | _ => false

end Expr

section Hashing

variable (blake3 : Bytes → Bytes)

def terminalHash (tagByte : UInt8) (data : Bytes) : Bytes := blake3 (tagByte :: blake3 data)

def linkHash (headHash tailHash : Bytes) : Bytes := blake3 (0 :: blake3 (headHash ++ tailHash))

mutual

def Expr.hash : Expr → Bytes
  | .nil => zero32
  | .symbol s => terminalHash blake3 1 (utf8 s)
  | .bytes b => terminalHash blake3 2 b
  | .bytesOf _ => []
  | .link v h t =>
    let head := match h with
      | .byHash x => x
      | h => match payload? v t with
        | some p => terminalHash blake3 2 p
        | none => h.hash
    linkHash blake3 head t.hash

def Child.hash : Child → Bytes
  | .none => zero32
  | .loaded e => e.hash
  | .byHash h => h

end

/-- `get_expr_head_hash`. -/
def Expr.getHeadHash (e : Expr) : Bytes :=
  match e.headChild with
  | .byHash x => x
  | h => match payload? e.value e.tailChild with
    | some p => terminalHash blake3 2 p
    | none => h.hash blake3

/-- `get_expr_tail_hash`. -/
def Expr.getTailHash (e : Expr) : Bytes := e.tailChild.hash blake3

/-- `_BUILTIN_TYPE_HASH.get(h)`. -/
def builtinTypeOfHash (h : Bytes) : Option String :=
  builtinTypeNames.find? fun name => terminalHash blake3 1 (utf8 name) == h

/-- `get_expr_builtin_tag`. -/
def Expr.builtinTag (e : Expr) : String :=
  match e.base with
  | .link => match e.tailChild with
    | .loaded (.symbol tag) => if tag ∈ builtinCompositeTypeNames then tag else "link"
    | .byHash h => match builtinTypeOfHash blake3 h with
      | some name => if name ∈ builtinCompositeTypeNames then name else "link"
      | none => "link"
    | _ => "link"
  | b => b.name

end Hashing

mutual

/-- Hashing reaches no bytes cell without bytes. -/
def Expr.hashable : Expr → Bool
  | .bytesOf _ => false
  | .link v h t => (match h with
      | .loaded e => (payload? v t).isSome || e.hashable
      | _ => true) && t.hashable
  | _ => true

def Child.hashable : Child → Bool
  | .loaded e => e.hashable
  | _ => true

end

mutual

/-- `Expr.size`. The length of a bytes cell without bytes is a `TypeError`. -/
def Expr.size : Expr → Py Nat
  | .nil => .ok 64
  | .symbol s => .ok (utf8 s).length
  | .bytes b => .ok b.length
  | .bytesOf _ => .error .typeError
  | .link v h t =>
    match payload? v t with
    | some p => .ok p.length
    | none => match h with
      | .loaded (.bytes b) => .ok b.length
      | .loaded (.bytesOf _) => .error .typeError
      | h => do
        let hs ← h.size
        let ts ← t.size
        return hs + ts

def Child.size : Child → Py Nat
  | .loaded e => e.size
  | _ => .ok 32

end

end Astreum
