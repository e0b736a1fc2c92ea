import Astreum.FoundPages
import Astreum.ShapeWalk
import Astreum.Varints

namespace Astreum

section Params

def checkShape (shape : Bytes) : Py Unit := (parseShape shape).map fun _ => ()

def encodeShape (shape : Bytes) : Bytes := varintBytes shape.length ++ shape

def readShape (data : Bytes) : Py (Bytes × Bytes) := do
  let (length, data) ← readVarint data
  readBytes length data

/-- The value shape of a radix param can be empty. -/
def checkValueShape (valueShape : Bytes) : Py Unit :=
  if valueShape = [] then .ok () else checkShape valueShape

def encodeValueShape (valueShape : Bytes) : Py Bytes := do
  checkValueShape valueShape
  return encodeShape valueShape

def readValueShape (data : Bytes) : Py (Bytes × Bytes) := do
  let (valueShape, data) ← readShape data
  checkValueShape valueShape
  return (valueShape, data)

def encodeRadixKeyParam (keyBitOffset : Int) (key valueShape : Bytes) : Py Bytes :=
  if keyBitOffset < 0 ∨ key.length * 8 < keyBitOffset then .error .valueError
  else do
    let shape ← encodeValueShape valueShape
    return varintBytes keyBitOffset.toNat ++ varintBytes key.length ++ key ++ shape

/-- The offset, the key and the value shape. -/
def readRadixKeyParam (data : Bytes) : Py ((Nat × Bytes × Bytes) × Bytes) := do
  let (keyBitOffset, data) ← readVarint data
  let (length, data) ← readVarint data
  let (key, data) ← readBytes length data
  expect (keyBitOffset ≤ length * 8)
  let (valueShape, data) ← readValueShape data
  return ((keyBitOffset, key, valueShape), data)

def parseRadixKeyParam (param : Bytes) : Py (Nat × Bytes × Bytes) := do
  let (fields, rest) ← readRadixKeyParam param
  expect (rest = [])
  return fields

def encodeRadixAllParam (valueShape : Bytes) : Py Bytes := encodeValueShape valueShape

def readRadixAllParam (data : Bytes) : Py (Bytes × Bytes) := readValueShape data

def parseRadixAllParam (param : Bytes) : Py Bytes := do
  let (valueShape, rest) ← readRadixAllParam param
  expect (rest = [])
  return valueShape

end Params

section Requests

/-- An entry of a `STORAGE_GET`. The shape of a radix entry is its param. -/
structure GetEntry where
  exprId : Bytes
  resolution : Int
  blockHash : Option Bytes
  shape : Bytes
  deriving DecidableEq

structure PutEntry where
  exprId : Bytes
  payloadType : Int
  deriving DecidableEq

/-- The code of a request, with the entries of its kind. -/
inductive RequestEntries where
  | storageGet (entries : Option (List GetEntry))
  | storagePut (entries : Option (List PutEntry))
  | storageIndexRequest (entries : Option (List PutEntry))
  deriving DecidableEq

structure StorageRequest where
  entries : RequestEntries
  data : Bytes
  exprId : Option Bytes
  payloadType : Option Int
  deriving DecidableEq

/-- `RESOLUTION_DYNAMIC`. -/
def resolutionDynamic : Int := 0

/-- `RESOLUTION_RADIX_KEY`. -/
def resolutionRadixKey : Int := 4

/-- `RESOLUTION_RADIX_ALL`. -/
def resolutionRadixAll : Int := 5

def getEntrySize (e : GetEntry) : Nat :=
  33 + (if e.blockHash.isSome then 32 else 0) +
    if e.resolution = resolutionDynamic then (varintBytes e.shape.length).length + e.shape.length
    else if e.resolution = resolutionRadixKey ∨ e.resolution = resolutionRadixAll then
      e.shape.length
    else 0

/-- The longest radix key param with a key and a value shape of these lengths. -/
def maxRadixKeyBytes (shapeMaxBytes radixKeyMaxBytes : Nat) : Nat :=
  (varintBytes (radixKeyMaxBytes * 8)).length + (varintBytes radixKeyMaxBytes).length +
    radixKeyMaxBytes + ((varintBytes shapeMaxBytes).length + shapeMaxBytes)

def maxGetEntryBytes (shapeMaxBytes radixKeyMaxBytes : Nat) : Nat :=
  65 + max ((varintBytes shapeMaxBytes).length + shapeMaxBytes)
    (maxRadixKeyBytes shapeMaxBytes radixKeyMaxBytes)

/-- `bytes([n])`. -/
def byteOf (n : Int) : Py UInt8 :=
  if n < 0 ∨ 256 ≤ n then .error .valueError else .ok (UInt8.ofNat n.toNat)

/-- `resolution | SCOPED_FLAG`. A negative number stays negative. -/
def withScope (resolution : Int) : Int :=
  if resolution < 0 then resolution else ((resolution.toNat ||| 128 : Nat) : Int)

/-- The checks of the shape of an entry. -/
def checkEntryShape (resolution : Int) (shape : Bytes) : Py Unit :=
  if resolution = resolutionDynamic then checkShape shape
  else if resolution = resolutionRadixKey then (parseRadixKeyParam shape).map fun _ => ()
  else if resolution = resolutionRadixAll then (parseRadixAllParam shape).map fun _ => ()
  else expect (shape = [])

def entryTail (e : GetEntry) : Bytes :=
  if e.resolution = resolutionDynamic then encodeShape e.shape
  else if e.resolution = resolutionRadixKey ∨ e.resolution = resolutionRadixAll then e.shape
  else []

def encodeGetEntry (e : GetEntry) : Py Bytes := do
  expect (e.exprId.length = 32)
  checkEntryShape e.resolution e.shape
  match e.blockHash with
  | none => return e.exprId ++ [← byteOf e.resolution] ++ entryTail e
  | some blockHash =>
    expect (blockHash.length = 32)
    return e.exprId ++ [← byteOf (withScope e.resolution)] ++ blockHash ++ entryTail e

def encodeGetEntries : List GetEntry → Py Bytes
  | [] => return []
  | e :: entries => do
    let first ← encodeGetEntry e
    return first ++ (← encodeGetEntries entries)

def getToBytes (entries : List GetEntry) : Py Bytes := do
  expect (entries ≠ [])
  expect (entries.length ≤ 0xFFFF)
  let count ← toBytesBig 2 entries.length
  let parts ← encodeGetEntries entries
  let body := 0 :: count ++ parts
  expect (body.length ≤ maxInlineMessageBytes)
  return body

/-- `PEER_INFO_BYTES`. -/
def peerInfoBytes : Nat := 2 * 32 + 4 + 2

def encodePutEntries : List PutEntry → Py Bytes
  | [] => return []
  | e :: entries => do
    expect (e.exprId.length = 32)
    let payloadType ← byteOf e.payloadType
    return e.exprId ++ [payloadType] ++ (← encodePutEntries entries)

def putToBytes (data : Bytes) (entries : List PutEntry) : Py Bytes := do
  let providers := data.length / peerInfoBytes
  expect (data.length % peerInfoBytes = 0 ∧ 1 ≤ providers ∧ providers ≤ 2)
  expect (entries ≠ [])
  expect (entries.length ≤ 0xFFFF)
  let count ← toBytesBig 2 entries.length
  let parts ← encodePutEntries entries
  let body := 1 :: UInt8.ofNat providers :: data ++ count ++ parts
  expect (body.length ≤ maxInlineMessageBytes)
  return body

def StorageRequest.toBytes (r : StorageRequest) : Py Bytes :=
  match r.entries with
  | .storagePut entries => putToBytes r.data (entries.getD [])
  | .storageGet entries => getToBytes (entries.getD [])
  | .storageIndexRequest _ => .ok [2]

/-- The shape of an entry as it is read, by its resolution. -/
def readEntryShape (resolution : Int) (body : Bytes) : Py (Bytes × Bytes) :=
  if resolution = resolutionDynamic then do
    let (shape, rest) ← readShape body
    checkShape shape
    return (shape, rest)
  else if resolution = resolutionRadixKey then do
    let (_, rest) ← readRadixKeyParam body
    return (body.take (body.length - rest.length), rest)
  else if resolution = resolutionRadixAll then do
    let (_, rest) ← readRadixAllParam body
    return (body.take (body.length - rest.length), rest)
  else .ok ([], body)

def readBlockHash (hasBlock : Bool) (body : Bytes) : Py (Option Bytes × Bytes) :=
  if hasBlock then do
    let (blockHash, rest) ← readBytes 32 body
    return (some blockHash, rest)
  else .ok (none, body)

def readGetEntry (body : Bytes) : Py (GetEntry × Bytes) := do
  let (front, body) ← readBytes 33 body
  let byte := ((front.drop 32).headD 0).toNat
  let (blockHash, body) ← readBlockHash (decide (byte &&& 128 ≠ 0)) body
  let resolution : Int := (byte &&& 127 : Nat)
  let (shape, body) ← readEntryShape resolution body
  return (⟨front.take 32, resolution, blockHash, shape⟩, body)

def readGetEntries : Nat → Bytes → Py (List GetEntry)
  | 0, body => if body = [] then .ok [] else .error .valueError
  | count + 1, body => do
    let (e, body) ← readGetEntry body
    let entries ← readGetEntries count body
    return e :: entries

def getFromBytes (data : Bytes) : Py StorageRequest := do
  expect (data.length ≤ maxInlineMessageBytes)
  expect (3 ≤ data.length)
  let count := Python.fromBytesBig ((data.drop 1).take 2)
  expect (1 ≤ count)
  let entries ← readGetEntries count (data.drop 3)
  return ⟨.storageGet (some entries), [], none, none⟩

/-- The entries of a `STORAGE_PUT`, of 33 bytes each. -/
def putEntries : Nat → Bytes → List PutEntry
  | 0, _ => []
  | count + 1, body =>
    ⟨body.take 32, ((body.drop 32).headD 0).toNat⟩ :: putEntries count (body.drop 33)

def putFromBytes (data : Bytes) : Py StorageRequest := do
  expect (data.length ≤ maxInlineMessageBytes)
  expect (2 ≤ data.length)
  let providers := ((data.drop 1).headD 0).toNat
  expect (1 ≤ providers ∧ providers ≤ 2)
  let providerEnd := 2 + providers * peerInfoBytes
  expect (providerEnd + 2 ≤ data.length)
  let count := Python.fromBytesBig ((data.drop providerEnd).take 2)
  expect (1 ≤ count)
  let body := data.drop (providerEnd + 2)
  expect (body.length = count * 33)
  return ⟨.storagePut (some (putEntries (body.length / 33) body)),
    (data.drop 2).take (providers * peerInfoBytes), none, none⟩

def StorageRequest.fromBytes (data : Bytes) : Py StorageRequest :=
  match data.head? with
  | some code =>
    if code = 1 then putFromBytes data
    else if code = 0 then getFromBytes data
    else if code = 2 then
      if data.length ≠ 1 then .error .valueError
      else .ok ⟨.storageIndexRequest none, [], none, none⟩
    else .error .valueError
  | none => .error .valueError

end Requests

section Readers

theorem expect_of {c : Prop} [Decidable c] (h : c) : expect c = .ok () := if_pos h

theorem prefixReader_readShape : PrefixReader readShape :=
  prefixReader_readVarint.bind prefixReader_readBytes

theorem prefixReader_readValueShape : PrefixReader readValueShape :=
  prefixReader_readShape.bind fun valueShape =>
    (PrefixReader.pure valueShape).check (checkValueShape valueShape)

theorem prefixReader_readRadixKeyParam : PrefixReader readRadixKeyParam :=
  prefixReader_readVarint.bind fun keyBitOffset => prefixReader_readVarint.bind fun length =>
    (prefixReader_readBytes length).bind fun key =>
      (prefixReader_readValueShape.bind fun valueShape =>
        PrefixReader.pure (keyBitOffset, key, valueShape)).check
          (expect (keyBitOffset ≤ length * 8))

theorem onlyValueError_checkShape (shape : Bytes) : OnlyValueError (checkShape shape) :=
  OnlyValueError.unit fun _ h => parseShape_error h

theorem onlyValueError_readShape (data : Bytes) : OnlyValueError (readShape data) :=
  (onlyValueError_readVarint data).bind fun p => onlyValueError_readBytes p.1 p.2

theorem onlyValueError_readValueShape (data : Bytes) : OnlyValueError (readValueShape data) := by
  refine (onlyValueError_readShape data).bind fun p => ?_
  refine OnlyValueError.bind ?_ fun _ => OnlyValueError.ok _
  rw [checkValueShape]
  split
  · exact OnlyValueError.ok ()
  · exact onlyValueError_checkShape p.1

theorem onlyValueError_readRadixKeyParam (data : Bytes) :
    OnlyValueError (readRadixKeyParam data) :=
  (onlyValueError_readVarint data).bind fun offset =>
    (onlyValueError_readVarint offset.2).bind fun length =>
      (onlyValueError_readBytes length.1 length.2).bind fun key =>
        (OnlyValueError.expect _).bind fun _ =>
          (onlyValueError_readValueShape key.2).bind fun _ => OnlyValueError.ok _

end Readers

section Layout

theorem or_scope : ∀ n < 128, n ||| 128 = n + 128 := by decide

theorem and_scope : ∀ n < 256, (n &&& 128 ≠ 0 ↔ 128 ≤ n) := by decide +kernel

theorem byteOf_eq_ok {n : Int} {b : UInt8} (h : byteOf n = .ok b) :
    0 ≤ n ∧ n < 256 ∧ b = UInt8.ofNat n.toNat := by
  rw [byteOf] at h
  split at h
  · cases h
  · rename_i hn
    rw [not_or, not_lt, not_le] at hn
    exact ⟨hn.1, hn.2, (Except.ok.inj h).symm⟩

theorem byteOf_of_lt {n : Int} (h₀ : 0 ≤ n) (h : n < 256) :
    byteOf n = .ok (UInt8.ofNat n.toNat) := by
  rw [byteOf, if_neg (by omega)]

/-- The byte behind the expr id. -/
def entryByte (e : GetEntry) : Nat := e.resolution.toNat + if e.blockHash.isSome then 128 else 0

/-- An entry in its layout, with the field in front of its shape. -/
def rawEntry (e : GetEntry) (field : Bytes) : Bytes :=
  e.exprId ++ [UInt8.ofNat (entryByte e)] ++ (e.blockHash.getD [] ++ (field ++ e.shape))

structure ValidEntry (e : GetEntry) : Prop where
  exprId : e.exprId.length = 32
  nonneg : 0 ≤ e.resolution
  unflagged : e.resolution < 128
  blockHash : ∀ b, e.blockHash = some b → b.length = 32
  shape : checkEntryShape e.resolution e.shape = .ok ()

/-- A field that is read as the length of the shape of a dynamic entry. -/
def FieldOf (e : GetEntry) (field : Bytes) : Prop :=
  if e.resolution = resolutionDynamic then readVarint field = .ok (e.shape.length, [])
  else field = []

/-- The field that the encoder writes. -/
def shortestField (e : GetEntry) : Bytes :=
  if e.resolution = resolutionDynamic then varintBytes e.shape.length else []

variable {e : GetEntry} {field rest : Bytes}

theorem entryTail_eq (hshape : checkEntryShape e.resolution e.shape = .ok ()) :
    entryTail e = shortestField e ++ e.shape := by
  rw [entryTail, shortestField]
  split
  · rfl
  rename_i hdynamic
  split
  · rfl
  · rename_i hradix
    rw [not_or] at hradix
    rw [checkEntryShape, if_neg hdynamic, if_neg hradix.1, if_neg hradix.2, expect_eq_ok] at hshape
    rw [hshape]
    rfl

theorem encodeGetEntry_eq_ok {x : Bytes} (h : encodeGetEntry e = .ok x) :
    e.exprId.length = 32 ∧ checkEntryShape e.resolution e.shape = .ok () ∧
      (∀ b, e.blockHash = some b → b.length = 32) ∧ 0 ≤ e.resolution ∧
      ∃ byte : UInt8, x = e.exprId ++ [byte] ++ (e.blockHash.getD [] ++ entryTail e) := by
  rw [encodeGetEntry] at h
  obtain ⟨u, hid, h⟩ := except_bind_eq_ok.mp h
  obtain ⟨u', hshape, h⟩ := except_bind_eq_ok.mp h
  refine ⟨expect_eq_ok.mp hid, hshape, ?_⟩
  split at h
  · rename_i hnone
    obtain ⟨byte, hbyte, h⟩ := except_bind_eq_ok.mp h
    obtain ⟨hnonneg, -, -⟩ := byteOf_eq_ok hbyte
    refine ⟨fun b hb => ?_, hnonneg, byte, ?_⟩
    · rw [hnone] at hb
      cases hb
    · rw [hnone, ← Except.ok.inj h]
      simp
  · rename_i blockHash hsome
    obtain ⟨u'', hlength, h⟩ := except_bind_eq_ok.mp h
    obtain ⟨byte, hbyte, h⟩ := except_bind_eq_ok.mp h
    obtain ⟨hnonneg, -, -⟩ := byteOf_eq_ok hbyte
    refine ⟨fun b hb => ?_, ?_, byte, ?_⟩
    · rw [hsome] at hb
      exact Option.some.inj hb ▸ expect_eq_ok.mp hlength
    · rw [withScope] at hnonneg
      split at hnonneg
      · exact hnonneg
      · omega
    · rw [hsome, ← Except.ok.inj h]
      simp

theorem length_encodeGetEntry {x : Bytes} (h : encodeGetEntry e = .ok x) :
    x.length = getEntrySize e := by
  obtain ⟨hid, hshape, hblock, -, byte, rfl⟩ := encodeGetEntry_eq_ok h
  have htail : (entryTail e).length =
      if e.resolution = resolutionDynamic then (varintBytes e.shape.length).length + e.shape.length
      else if e.resolution = resolutionRadixKey ∨ e.resolution = resolutionRadixAll then
        e.shape.length
      else 0 := by
    rw [entryTail]
    split
    · rw [encodeShape, List.length_append]
    · split <;> rfl
  have hscope : (e.blockHash.getD []).length = if e.blockHash.isSome then 32 else 0 := by
    rcases hb : e.blockHash with _ | b
    · rfl
    · simpa using hblock b hb
  rw [getEntrySize, ← htail, ← hscope]
  simp only [List.length_append, List.length_singleton, hid]
  omega

theorem encodeGetEntry_valid (h : ValidEntry e) :
    encodeGetEntry e = .ok (rawEntry e (shortestField e)) := by
  have hnonneg := h.nonneg
  have hlt := h.unflagged
  rw [encodeGetEntry, expect_of h.exprId, py_ok_bind, h.shape, py_ok_bind, rawEntry,
    entryByte, ← entryTail_eq h.shape]
  rcases hb : e.blockHash with _ | b
  · simp only [byteOf_of_lt hnonneg (by omega), py_ok_bind]
    rfl
  · have hscope : withScope e.resolution = ((e.resolution.toNat + 128 : Nat) : Int) := by
      rw [withScope, if_neg (by omega), or_scope _ (by omega)]
    simp only [hscope]
    rw [expect_of (h.blockHash b hb), py_ok_bind, byteOf_of_lt (by omega) (by omega),
      Int.toNat_natCast]
    simp only [py_ok_bind, List.append_assoc]
    rfl

theorem map_eq_ok {α : Type} {x : Py α} (h : x.map (fun _ => ()) = .ok ()) : ∃ v, x = .ok v := by
  cases x with
  | error err => cases h
  | ok v => exact ⟨v, rfl⟩

theorem readRadixKeyParam_of_parse {param : Bytes} {fields : Nat × Bytes × Bytes}
    (h : parseRadixKeyParam param = .ok fields) : readRadixKeyParam param = .ok (fields, []) := by
  rw [parseRadixKeyParam] at h
  obtain ⟨⟨found, rest⟩, hread, h⟩ := except_bind_eq_ok.mp h
  obtain ⟨u, hrest, h⟩ := except_bind_eq_ok.mp h
  rw [hread, ← Except.ok.inj h, expect_eq_ok.mp hrest]

theorem readRadixAllParam_of_parse {param shape : Bytes}
    (h : parseRadixAllParam param = .ok shape) : readRadixAllParam param = .ok (shape, []) := by
  rw [parseRadixAllParam] at h
  obtain ⟨⟨found, rest⟩, hread, h⟩ := except_bind_eq_ok.mp h
  obtain ⟨u, hrest, h⟩ := except_bind_eq_ok.mp h
  rw [hread, ← Except.ok.inj h, expect_eq_ok.mp hrest]

/-- What a reader of a param takes from the bytes. -/
theorem take_sub_length (param rest : Bytes) :
    (param ++ rest).take ((param ++ rest).length - rest.length) = param := by
  rw [List.length_append, Nat.add_sub_cancel, List.take_left' rfl]

theorem readEntryShape_raw (hshape : checkEntryShape e.resolution e.shape = .ok ())
    (hfield : FieldOf e field) :
    readEntryShape e.resolution (field ++ e.shape ++ rest) = .ok (e.shape, rest) := by
  rw [FieldOf] at hfield
  rw [checkEntryShape] at hshape
  rw [readEntryShape]
  split at hshape
  · rename_i hdynamic
    rw [if_pos hdynamic] at hfield
    rw [if_pos hdynamic, List.append_assoc, readShape, prefixReader_readVarint.append hfield,
      py_ok_bind]
    dsimp only
    rw [readBytes_append rfl, py_ok_bind]
    dsimp only
    rw [hshape]
    rfl
  rename_i hdynamic
  rw [if_neg hdynamic] at hfield
  rw [if_neg hdynamic, hfield, List.nil_append]
  split at hshape
  · rename_i hkey
    obtain ⟨fields, hparse⟩ := map_eq_ok hshape
    rw [if_pos hkey, prefixReader_readRadixKeyParam.append (readRadixKeyParam_of_parse hparse),
      py_ok_bind]
    dsimp only
    rw [take_sub_length]
    rfl
  rename_i hkey
  rw [if_neg hkey]
  split at hshape
  · rename_i hall
    obtain ⟨shape, hparse⟩ := map_eq_ok hshape
    have hread := prefixReader_readValueShape.append (readRadixAllParam_of_parse hparse) rest
    rw [if_pos hall, readRadixAllParam, hread, py_ok_bind]
    dsimp only
    rw [take_sub_length]
    rfl
  · rename_i hall
    rw [if_neg hall, expect_eq_ok.mp hshape]
    rfl

theorem readEntryShape_eq_ok {resolution : Int} {body shape : Bytes}
    (h : readEntryShape resolution body = .ok (shape, rest)) :
    checkEntryShape resolution shape = .ok () ∧ ∃ field,
      (if resolution = resolutionDynamic then readVarint field = .ok (shape.length, [])
        else field = []) ∧ body = field ++ shape ++ rest := by
  rw [readEntryShape] at h
  rw [checkEntryShape]
  split at h
  · rename_i hdynamic
    obtain ⟨⟨found, rest'⟩, hread, h⟩ := except_bind_eq_ok.mp h
    obtain ⟨u, hcheck, h⟩ := except_bind_eq_ok.mp h
    obtain ⟨rfl, rfl⟩ := Prod.mk.inj (Except.ok.inj h)
    rw [if_pos hdynamic]
    refine ⟨hcheck, ?_⟩
    rw [readShape] at hread
    obtain ⟨⟨length, data⟩, hvarint, hbytes⟩ := except_bind_eq_ok.mp hread
    obtain ⟨field, rfl, hfield⟩ := prefixReader_readVarint _ _ _ hvarint
    obtain ⟨rfl, rfl⟩ := readBytes_eq_ok hbytes
    refine ⟨field, ?_, by rw [List.append_assoc]⟩
    rw [if_pos hdynamic]
    have hall := hfield []
    rwa [List.append_nil] at hall
  rename_i hdynamic
  rw [if_neg hdynamic]
  split at h
  · rename_i hkey
    obtain ⟨⟨fields, rest'⟩, hread, h⟩ := except_bind_eq_ok.mp h
    obtain ⟨hshape, rfl⟩ := Prod.mk.inj (Except.ok.inj h)
    obtain ⟨param, rfl, hparam⟩ := prefixReader_readRadixKeyParam _ _ _ hread
    rw [take_sub_length] at hshape
    subst hshape
    have hall := hparam []
    rw [List.append_nil] at hall
    rw [if_pos hkey]
    refine ⟨?_, [], by rw [if_neg hdynamic], rfl⟩
    rw [parseRadixKeyParam, hall]
    rfl
  rename_i hkey
  rw [if_neg hkey]
  split at h
  · rename_i hradix
    obtain ⟨⟨found, rest'⟩, hread, h⟩ := except_bind_eq_ok.mp h
    obtain ⟨hshape, rfl⟩ := Prod.mk.inj (Except.ok.inj h)
    obtain ⟨param, rfl, hparam⟩ := prefixReader_readValueShape _ _ _ hread
    rw [take_sub_length] at hshape
    subst hshape
    have hall := hparam []
    rw [List.append_nil] at hall
    rw [if_pos hradix]
    refine ⟨?_, [], by rw [if_neg hdynamic], rfl⟩
    rw [parseRadixAllParam, readRadixAllParam, hall]
    rfl
  · rename_i hradix
    obtain ⟨rfl, rfl⟩ := Prod.mk.inj (Except.ok.inj h)
    rw [if_neg hradix]
    exact ⟨rfl, [], by rw [if_neg hdynamic], rfl⟩

/-- An entry in its layout is read. -/
theorem readGetEntry_raw (h : ValidEntry e) (hfield : FieldOf e field) :
    readGetEntry (rawEntry e field ++ rest) = .ok (e, rest) := by
  have hnonneg := h.nonneg
  have hlt := h.unflagged
  have hbyte : entryByte e < 256 := by
    rw [entryByte]
    split <;> omega
  have hfront : (e.exprId ++ [UInt8.ofNat (entryByte e)]).length = 33 := by
    rw [List.length_append, h.exprId]
    rfl
  have hresolution : ((entryByte e &&& 127 : Nat) : Int) = e.resolution := by
    have hmod : entryByte e &&& 127 = entryByte e % 128 :=
      Nat.and_two_pow_sub_one_eq_mod (entryByte e) 7
    rw [hmod, entryByte]
    split <;> omega
  rw [readGetEntry, rawEntry, List.append_assoc, readBytes_append hfront, py_ok_bind]
  dsimp only
  rw [List.drop_left' h.exprId, List.take_left' h.exprId, List.headD_cons, toNat_ofNat_of_lt hbyte,
    hresolution]
  have hblock : readBlockHash (decide (entryByte e &&& 128 ≠ 0))
      (e.blockHash.getD [] ++ (field ++ e.shape) ++ rest) =
        .ok (e.blockHash, field ++ e.shape ++ rest) := by
    rw [readBlockHash, List.append_assoc]
    rcases hb : e.blockHash with _ | b
    · have hsmall : ¬entryByte e &&& 128 ≠ 0 := by
        rw [and_scope _ hbyte, entryByte, hb, if_neg (by decide)]
        omega
      rw [if_neg (by simpa using hsmall)]
      rfl
    · have hbig : entryByte e &&& 128 ≠ 0 := by
        rw [and_scope _ hbyte, entryByte, hb]
        simp
      rw [if_pos (decide_eq_true hbig), Option.getD_some, readBytes_append (h.blockHash b hb)]
      rfl
  rw [hblock, py_ok_bind]
  dsimp only
  rw [readEntryShape_raw h.shape hfield]
  rfl

/-- What is read as an entry is one in its layout. -/
theorem readGetEntry_eq_ok {body : Bytes} (h : readGetEntry body = .ok (e, rest)) :
    ValidEntry e ∧ ∃ field, FieldOf e field ∧ body = rawEntry e field ++ rest := by
  rw [readGetEntry] at h
  obtain ⟨⟨front, body₁⟩, hfront, h⟩ := except_bind_eq_ok.mp h
  obtain ⟨⟨blockHash, body₂⟩, hblock, h⟩ := except_bind_eq_ok.mp h
  obtain ⟨⟨shape, rest'⟩, hshape, h⟩ := except_bind_eq_ok.mp h
  obtain ⟨rfl, rfl⟩ := Prod.mk.inj (Except.ok.inj h)
  obtain ⟨hlength, rfl⟩ := readBytes_eq_ok hfront
  obtain ⟨hcheck, field, hfield, rfl⟩ := readEntryShape_eq_ok hshape
  obtain ⟨exprId, byte, rfl, hid⟩ : ∃ (exprId : Bytes) (byte : UInt8),
      front = exprId ++ [byte] ∧ exprId.length = 32 := by
    refine ⟨front.take 32, (front.drop 32).headD 0, ?_, by rw [List.length_take]; omega⟩
    have hone : (front.drop 32).length = 1 := by
      rw [List.length_drop]
      omega
    obtain ⟨b, hb⟩ := List.length_eq_one_iff.mp hone
    rw [hb, List.headD_cons, ← hb, List.take_append_drop]
  rw [List.drop_left' hid, List.headD_cons] at hblock hcheck hfield hshape ⊢
  rw [List.take_left' hid]
  have hbyte : byte.toNat < 256 := byte.toNat_lt
  have hmod : byte.toNat &&& 127 = byte.toNat % 128 :=
    Nat.and_two_pow_sub_one_eq_mod byte.toNat 7
  have hparts : (∀ b, blockHash = some b → b.length = 32) ∧
      body₁ = blockHash.getD [] ++ (field ++ shape ++ rest') ∧
        (blockHash.isSome = true ↔ 128 ≤ byte.toNat) := by
    rw [readBlockHash] at hblock
    split at hblock
    · rename_i hscope
      obtain ⟨⟨found, rest''⟩, hread, hblock⟩ := except_bind_eq_ok.mp hblock
      obtain ⟨rfl, rfl⟩ := Prod.mk.inj (Except.ok.inj hblock)
      obtain ⟨hfound, rfl⟩ := readBytes_eq_ok hread
      refine ⟨fun b hb => Option.some.inj hb ▸ hfound, rfl, ?_⟩
      exact ⟨fun _ => (and_scope _ hbyte).mp (of_decide_eq_true hscope), fun _ => rfl⟩
    · rename_i hscope
      obtain ⟨rfl, rfl⟩ := Prod.mk.inj (Except.ok.inj hblock)
      refine ⟨nofun, rfl, ⟨nofun, fun hb => ?_⟩⟩
      exact absurd (decide_eq_true ((and_scope _ hbyte).mpr hb)) hscope
  obtain ⟨hblocks, rfl, hscoped⟩ := hparts
  refine ⟨⟨hid, Int.natCast_nonneg _, ?_, hblocks, hcheck⟩, field, hfield, ?_⟩
  · change ((byte.toNat &&& 127 : Nat) : Int) < 128
    rw [hmod]
    omega
  · have hsame : UInt8.ofNat (entryByte ⟨exprId, ((byte.toNat &&& 127 : Nat) : Int), blockHash,
        shape⟩) = byte := by
      rw [entryByte, Int.toNat_natCast, hmod]
      split
      · rename_i hsome
        have hle := hscoped.mp hsome
        rw [show byte.toNat % 128 + 128 = byte.toNat by omega, UInt8.ofNat_toNat]
      · rename_i hnone
        have hlt : byte.toNat < 128 := not_le.mp fun hcon => hnone (hscoped.mpr hcon)
        rw [Nat.mod_eq_of_lt hlt, Nat.add_zero, UInt8.ofNat_toNat]
    rw [rawEntry, hsame]
    simp only [List.append_assoc]

end Layout

section Bodies

variable {entries : List GetEntry} {fields : List (GetEntry × Bytes)}

/-- The entries of a request in their layout, each with its field. -/
def rawEntries (fields : List (GetEntry × Bytes)) : Bytes :=
  (fields.map fun p => rawEntry p.1 p.2).flatten

theorem readGetEntries_raw (h : ∀ p ∈ fields, ValidEntry p.1 ∧ FieldOf p.1 p.2) :
    readGetEntries fields.length (rawEntries fields) = .ok (fields.map Prod.fst) := by
  induction fields with
  | nil => rfl
  | cons p fields ih =>
    obtain ⟨hvalid, hfield⟩ := h p List.mem_cons_self
    have hrest := ih fun q hq => h q (List.mem_cons_of_mem _ hq)
    have hraw : rawEntries (p :: fields) = rawEntry p.1 p.2 ++ rawEntries fields := rfl
    rw [List.length_cons, readGetEntries, hraw, readGetEntry_raw hvalid hfield, py_ok_bind]
    dsimp only
    rw [hrest]
    rfl

theorem readGetEntries_eq_ok {count : Nat} {body : Bytes}
    (h : readGetEntries count body = .ok entries) : ∃ fields : List (GetEntry × Bytes),
      fields.length = count ∧ fields.map Prod.fst = entries ∧
        (∀ p ∈ fields, ValidEntry p.1 ∧ FieldOf p.1 p.2) ∧ body = rawEntries fields := by
  induction count generalizing body entries with
  | zero =>
    rw [readGetEntries] at h
    split at h
    · rename_i hbody
      obtain rfl := Except.ok.inj h
      exact ⟨[], rfl, rfl, fun p hp => absurd hp List.not_mem_nil, hbody⟩
    · cases h
  | succ count ih =>
    rw [readGetEntries] at h
    obtain ⟨⟨e, rest⟩, hread, h⟩ := except_bind_eq_ok.mp h
    obtain ⟨others, hothers, h⟩ := except_bind_eq_ok.mp h
    obtain rfl := Except.ok.inj h
    obtain ⟨hvalid, field, hfield, rfl⟩ := readGetEntry_eq_ok hread
    obtain ⟨fields, rfl, rfl, hfields, rfl⟩ := ih hothers
    refine ⟨(e, field) :: fields, rfl, rfl, fun p hp => ?_, rfl⟩
    rcases List.mem_cons.mp hp with rfl | hp
    · exact ⟨hvalid, hfield⟩
    · exact hfields p hp

theorem encodeGetEntries_eq_ok {parts : Bytes} (h : encodeGetEntries entries = .ok parts) :
    parts.length = (entries.map getEntrySize).sum ∧
      ∀ e ∈ entries, ∃ x, encodeGetEntry e = .ok x := by
  induction entries generalizing parts with
  | nil =>
    obtain rfl := Except.ok.inj h
    exact ⟨rfl, fun e he => absurd he List.not_mem_nil⟩
  | cons e entries ih =>
    rw [encodeGetEntries] at h
    obtain ⟨first, hfirst, h⟩ := except_bind_eq_ok.mp h
    obtain ⟨rest, hrest, h⟩ := except_bind_eq_ok.mp h
    obtain rfl := Except.ok.inj h
    obtain ⟨hlength, hothers⟩ := ih hrest
    refine ⟨?_, fun e' he' => ?_⟩
    · rw [List.length_append, length_encodeGetEntry hfirst, hlength]
      rfl
    · rcases List.mem_cons.mp he' with rfl | he'
      · exact ⟨first, hfirst⟩
      · exact hothers e' he'

theorem encodeGetEntries_valid (h : ∀ e ∈ entries, ValidEntry e) :
    encodeGetEntries entries = .ok (rawEntries (entries.map fun e => (e, shortestField e))) := by
  induction entries with
  | nil => rfl
  | cons e entries ih =>
    rw [encodeGetEntries, encodeGetEntry_valid (h e List.mem_cons_self), py_ok_bind,
      ih fun e' he' => h e' (List.mem_cons_of_mem _ he')]
    rfl

theorem validEntry_of_encoded {e : GetEntry} {x : Bytes} (h : encodeGetEntry e = .ok x)
    (hlt : e.resolution < 128) : ValidEntry e := by
  obtain ⟨hid, hshape, hblock, hnonneg, -⟩ := encodeGetEntry_eq_ok h
  exact ⟨hid, hnonneg, hlt, hblock, hshape⟩

theorem readVarint_varintBytes {value : Nat} (h : value < 2 ^ 21) (rest : Bytes) :
    readVarint (varintBytes value ++ rest) = .ok (value, rest) :=
  readVarintFrom_varintBytes (by decide) h

theorem fieldOf_shortestField {e : GetEntry} (h : e.shape.length < 2 ^ 21) :
    FieldOf e (shortestField e) := by
  rw [FieldOf, shortestField]
  split
  · have hread := readVarint_varintBytes h []
    rwa [List.append_nil] at hread
  · rfl

/-- No other field of an entry is as short. -/
theorem shortestField_le {e : GetEntry} {field : Bytes} (h : FieldOf e field) :
    field = shortestField e ∨ (shortestField e).length < field.length := by
  rw [FieldOf] at h
  rw [shortestField]
  split at h
  · rename_i hdynamic
    rw [if_pos hdynamic]
    exact varintBytes_shortest h
  · rename_i hdynamic
    rw [if_neg hdynamic]
    exact .inl h

theorem length_rawEntry (e : GetEntry) (field : Bytes) :
    (rawEntry e field).length = (rawEntry e []).length + field.length := by
  simp only [rawEntry, List.length_append, List.length_nil, List.length_singleton]
  omega

/-- Written again, entries are the same just if each has its shortest field, and else shorter. -/
theorem rawEntries_shortest (h : ∀ p ∈ fields, FieldOf p.1 p.2) :
    (rawEntries (fields.map fun p => (p.1, shortestField p.1))).length ≤
        (rawEntries fields).length ∧
      (rawEntries (fields.map fun p => (p.1, shortestField p.1)) = rawEntries fields ↔
        ∀ p ∈ fields, p.2 = shortestField p.1) := by
  induction fields with
  | nil => exact ⟨le_rfl, fun _ p hp => absurd hp List.not_mem_nil, fun _ => rfl⟩
  | cons p fields ih =>
    obtain ⟨hle, hiff⟩ := ih fun q hq => h q (List.mem_cons_of_mem _ hq)
    have hraw : rawEntries (p :: fields) = rawEntry p.1 p.2 ++ rawEntries fields := rfl
    have hshort : rawEntries ((p :: fields).map fun p => (p.1, shortestField p.1)) =
        rawEntry p.1 (shortestField p.1) ++
          rawEntries (fields.map fun p => (p.1, shortestField p.1)) := rfl
    have hlengths := length_rawEntry p.1 p.2
    have hlengths' := length_rawEntry p.1 (shortestField p.1)
    rw [hraw, hshort, List.forall_mem_cons]
    rcases shortestField_le (h p List.mem_cons_self) with hsame | hlonger
    · rw [← hsame]
      refine ⟨by simpa using hle, ?_⟩
      rw [List.append_right_inj, hiff]
      exact (and_iff_right rfl).symm
    · refine ⟨by simp only [List.length_append]; omega, fun heq => ?_, fun hall => ?_⟩
      · have hlength := congrArg List.length heq
        simp only [List.length_append] at hlength
        omega
      · rw [hall.1] at hlonger
        exact absurd hlonger (lt_irrefl _)

theorem getToBytes_eq_ok {b : Bytes} : getToBytes entries = .ok b ↔
    entries ≠ [] ∧ entries.length ≤ 0xFFFF ∧ b.length ≤ maxInlineMessageBytes ∧
      ∃ count parts, toBytesBig 2 entries.length = .ok count ∧
        encodeGetEntries entries = .ok parts ∧ b = 0 :: count ++ parts := by
  rw [getToBytes]
  constructor
  · intro h
    obtain ⟨u, hne, h⟩ := except_bind_eq_ok.mp h
    obtain ⟨u, hmany, h⟩ := except_bind_eq_ok.mp h
    obtain ⟨count, hcount, h⟩ := except_bind_eq_ok.mp h
    obtain ⟨parts, hparts, h⟩ := except_bind_eq_ok.mp h
    obtain ⟨u, hlength, h⟩ := except_bind_eq_ok.mp h
    obtain rfl := Except.ok.inj h
    exact ⟨expect_eq_ok.mp hne, expect_eq_ok.mp hmany, expect_eq_ok.mp hlength, count, parts,
      hcount, hparts, rfl⟩
  · rintro ⟨hne, hmany, hlength, count, parts, hcount, hparts, rfl⟩
    rw [expect_of hne, py_ok_bind, expect_of hmany, py_ok_bind, hcount, py_ok_bind, hparts,
      py_ok_bind]
    dsimp only
    rw [expect_of hlength]
    rfl

theorem getFromBytes_layout {count body : Bytes} (hcount : count.length = 2) :
    getFromBytes (0 :: count ++ body) =
      (do
        expect ((0 :: count ++ body).length ≤ maxInlineMessageBytes)
        expect (1 ≤ Python.fromBytesBig count)
        let entries ← readGetEntries (Python.fromBytesBig count) body
        return ⟨.storageGet (some entries), [], none, none⟩) := by
  have htake : ((0 :: count ++ body).drop 1).take 2 = count := by
    rw [List.cons_append, List.drop_one, List.tail_cons, List.take_left' hcount]
  have hdrop : (0 :: count ++ body).drop 3 = body := by
    rw [List.cons_append, show (3 : Nat) = 2 + 1 from rfl, List.drop_succ_cons,
      List.drop_left' hcount]
  rw [getFromBytes, htake, hdrop]
  have hthree : 3 ≤ (0 :: count ++ body).length := by simp [hcount]
  rw [expect_of hthree]
  rfl

theorem getFromBytes_eq_ok {b : Bytes} {r : StorageRequest} (hzero : b.head? = some 0)
    (h : getFromBytes b = .ok r) : ∃ fields : List (GetEntry × Bytes), ∃ count,
      toBytesBig 2 fields.length = .ok count ∧ fields ≠ [] ∧ b.length ≤ maxInlineMessageBytes ∧
      (∀ p ∈ fields, ValidEntry p.1 ∧ FieldOf p.1 p.2) ∧ b = 0 :: count ++ rawEntries fields ∧
      r = ⟨.storageGet (some (fields.map Prod.fst)), [], none, none⟩ := by
  rw [getFromBytes] at h
  obtain ⟨u, hlength, h⟩ := except_bind_eq_ok.mp h
  obtain ⟨u, hthree, h⟩ := except_bind_eq_ok.mp h
  obtain ⟨u, hcount, h⟩ := except_bind_eq_ok.mp h
  obtain ⟨entries, hentries, h⟩ := except_bind_eq_ok.mp h
  obtain rfl := Except.ok.inj h
  obtain ⟨fields, hfields, rfl, hvalid, hbody⟩ := readGetEntries_eq_ok hentries
  have hthree' := expect_eq_ok.mp hthree
  have htwo : ((b.drop 1).take 2).length = 2 := by
    rw [List.length_take, List.length_drop]
    omega
  have hbytes := toBytesBig_fromBytesBig ((b.drop 1).take 2)
  rw [htwo, ← hfields] at hbytes
  refine ⟨fields, _, hbytes, ?_, expect_eq_ok.mp hlength, hvalid, ?_, rfl⟩
  · rintro rfl
    have hpos := expect_eq_ok.mp hcount
    rw [← hfields] at hpos
    exact absurd hpos (by decide)
  · rw [← hbody]
    obtain ⟨rest, rfl⟩ : ∃ rest, b = 0 :: rest := by
      cases b with
      | nil => cases hzero
      | cons x rest => exact ⟨rest, by rw [Option.some.inj hzero]⟩
    rw [List.drop_one, List.tail_cons, show (3 : Nat) = 2 + 1 from rfl, List.drop_succ_cons,
      List.cons_append, List.take_append_drop]

end Bodies

end Astreum
