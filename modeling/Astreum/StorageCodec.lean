import Astreum.StorageRequests

namespace Astreum

section Put

variable {entries : List PutEntry} {data b parts body : Bytes}

theorem putEntries_encoded (h : encodePutEntries entries = .ok parts) :
    parts.length = entries.length * 33 ∧ putEntries entries.length parts = entries := by
  induction entries generalizing parts with
  | nil =>
    obtain rfl := Except.ok.inj h
    exact ⟨rfl, rfl⟩
  | cons e entries ih =>
    rw [encodePutEntries] at h
    obtain ⟨u, hid, h⟩ := except_bind_eq_ok.mp h
    obtain ⟨payloadType, hbyte, h⟩ := except_bind_eq_ok.mp h
    obtain ⟨rest, hrest, h⟩ := except_bind_eq_ok.mp h
    obtain rfl := Except.ok.inj h
    obtain ⟨hlength, hentries⟩ := ih hrest
    obtain ⟨hnonneg, hlt, rfl⟩ := byteOf_eq_ok hbyte
    have hid' := expect_eq_ok.mp hid
    have hfront : (e.exprId ++ [UInt8.ofNat e.payloadType.toNat]).length = 33 := by
      rw [List.length_append, hid']
      rfl
    refine ⟨?_, ?_⟩
    · rw [List.length_append, hfront, hlength, List.length_cons]
      omega
    · have hpayload : ((UInt8.ofNat e.payloadType.toNat).toNat : Int) = e.payloadType := by
        rw [toNat_ofNat_of_lt (by omega), Int.toNat_of_nonneg hnonneg]
      rw [List.length_cons, putEntries, List.drop_left' hfront, hentries, List.append_assoc,
        List.take_left' hid', List.drop_left' hid', List.singleton_append, List.headD_cons,
        hpayload]

theorem encodePutEntries_read {count : Nat} (h : body.length = count * 33) :
    (putEntries count body).length = count ∧
      encodePutEntries (putEntries count body) = .ok body := by
  induction count generalizing body with
  | zero =>
    obtain rfl := List.length_eq_zero_iff.mp (by omega : body.length = 0)
    exact ⟨rfl, rfl⟩
  | succ count ih =>
    have htail : (body.drop 33).length = count * 33 := by
      rw [List.length_drop]
      omega
    obtain ⟨hcount, hrest⟩ := ih htail
    have hid : (body.take 32).length = 32 := by
      rw [List.length_take]
      omega
    have hbyte : body.take 32 ++ [(body.drop 32).headD 0] = body.take 33 := by
      have hlt : 32 < body.length := by omega
      rw [List.take_succ_eq_append_getElem hlt, List.drop_eq_getElem_cons hlt, List.headD_cons]
    refine ⟨by rw [putEntries, List.length_cons, hcount], ?_⟩
    rw [putEntries, encodePutEntries, expect_of hid, py_ok_bind]
    have hlt := ((body.drop 32).headD 0).toNat_lt
    rw [byteOf_of_lt (Int.natCast_nonneg _) (by omega), py_ok_bind, hrest, py_ok_bind]
    dsimp only
    rw [Int.toNat_natCast, UInt8.ofNat_toNat, hbyte, List.take_append_drop]
    rfl

theorem putToBytes_eq_ok : putToBytes data entries = .ok b ↔
    (∃ providers, 1 ≤ providers ∧ providers ≤ 2 ∧ data.length = providers * peerInfoBytes ∧
      entries ≠ [] ∧ entries.length ≤ 0xFFFF ∧ b.length ≤ maxInlineMessageBytes ∧
      ∃ count parts, toBytesBig 2 entries.length = .ok count ∧
        encodePutEntries entries = .ok parts ∧
          b = 1 :: UInt8.ofNat providers :: (data ++ (count ++ parts))) := by
  rw [putToBytes]
  constructor
  · intro h
    obtain ⟨u, hdata, h⟩ := except_bind_eq_ok.mp h
    obtain ⟨u, hne, h⟩ := except_bind_eq_ok.mp h
    obtain ⟨u, hmany, h⟩ := except_bind_eq_ok.mp h
    obtain ⟨count, hcount, h⟩ := except_bind_eq_ok.mp h
    obtain ⟨parts, hparts, h⟩ := except_bind_eq_ok.mp h
    obtain ⟨u, hlength, h⟩ := except_bind_eq_ok.mp h
    obtain rfl := Except.ok.inj h
    obtain ⟨hwhole, hone, htwo⟩ := expect_eq_ok.mp hdata
    refine ⟨data.length / peerInfoBytes, hone, htwo, ?_, expect_eq_ok.mp hne,
      expect_eq_ok.mp hmany, expect_eq_ok.mp hlength, count, parts, hcount, hparts, ?_⟩
    · exact (Nat.div_mul_cancel (Nat.dvd_of_mod_eq_zero hwhole)).symm
    · simp only [List.cons_append, List.append_assoc]
  · rintro ⟨providers, hone, htwo, hdata, hne, hmany, hlength, count, parts, hcount, hparts, rfl⟩
    have hdiv : data.length / peerInfoBytes = providers := by
      rw [hdata]
      exact Nat.mul_div_cancel _ (by decide)
    have hmod : data.length % peerInfoBytes = 0 := by
      rw [hdata]
      exact Nat.mul_mod_left _ _
    dsimp only
    rw [hdiv, expect_of ⟨hmod, hone, htwo⟩, py_ok_bind, expect_of hne, py_ok_bind,
      expect_of hmany, py_ok_bind, hcount, py_ok_bind, hparts, py_ok_bind]
    simp only [List.cons_append, List.append_assoc]
    rw [expect_of hlength]
    rfl

theorem putFromBytes_layout {providers : Nat} {count : Bytes} (hone : 1 ≤ providers)
    (htwo : providers ≤ 2) (hdata : data.length = providers * peerInfoBytes)
    (hcount : count.length = 2) :
    putFromBytes (1 :: UInt8.ofNat providers :: (data ++ (count ++ body))) =
      (do
        expect ((1 :: UInt8.ofNat providers :: (data ++ (count ++ body))).length ≤
          maxInlineMessageBytes)
        expect (1 ≤ Python.fromBytesBig count)
        expect (body.length = Python.fromBytesBig count * 33)
        return ⟨.storagePut (some (putEntries (body.length / 33) body)), data, none, none⟩) := by
  have hproviders : (UInt8.ofNat providers).toNat = providers := toNat_ofNat_of_lt (by omega)
  have hdrop : ∀ n, (1 :: UInt8.ofNat providers :: (data ++ (count ++ body))).drop (2 + n) =
      (data ++ (count ++ body)).drop n := by
    intro n
    rw [Nat.add_comm, List.drop_succ_cons, List.drop_succ_cons]
  have hcounted : ((1 :: UInt8.ofNat providers :: (data ++ (count ++ body))).drop
      (2 + providers * peerInfoBytes)).take 2 = count := by
    rw [hdrop, List.drop_left' hdata, List.take_left' hcount]
  have hbody : (1 :: UInt8.ofNat providers :: (data ++ (count ++ body))).drop
      (2 + providers * peerInfoBytes + 2) = body := by
    rw [Nat.add_assoc, hdrop, ← List.drop_drop, List.drop_left' hdata, List.drop_left' hcount]
  have hfront : ((1 :: UInt8.ofNat providers :: (data ++ (count ++ body))).drop 2).take
      (providers * peerInfoBytes) = data := by
    rw [show (2 : Nat) = 2 + 0 from rfl, hdrop, List.drop_zero, List.take_left' hdata]
  have hlong : 2 + providers * peerInfoBytes + 2 ≤
      (1 :: UInt8.ofNat providers :: (data ++ (count ++ body))).length := by
    simp only [List.length_cons, List.length_append]
    omega
  rw [putFromBytes]
  have hsecond : (((1 :: UInt8.ofNat providers :: (data ++ (count ++ body))).drop 1).headD
      0).toNat = providers := hproviders
  have hpair : expect (1 ≤ providers ∧ providers ≤ 2) = .ok () := expect_of ⟨hone, htwo⟩
  have hshort : 2 ≤ (1 :: UInt8.ofNat providers :: (data ++ (count ++ body))).length := by
    simp only [List.length_cons]
    omega
  rw [hsecond]
  dsimp only
  rw [hcounted, hbody, hfront, hpair, expect_of hlong, expect_of hshort]
  rfl

/-- A `STORAGE_PUT` that is encoded is read as its provider payload and its entries. -/
theorem putFromBytes_putToBytes (h : putToBytes data entries = .ok b) :
    b.head? = some 1 ∧ putFromBytes b = .ok ⟨.storagePut (some entries), data, none, none⟩ := by
  obtain ⟨providers, hone, htwo, hdata, hne, -, hlength, count, parts, hcount, hparts, rfl⟩ :=
    putToBytes_eq_ok.mp h
  obtain ⟨hcount₂, hvalue⟩ := fromBytesBig_toBytesBig hcount
  obtain ⟨hbody, hentries⟩ := putEntries_encoded hparts
  refine ⟨rfl, ?_⟩
  have hpos : 1 ≤ entries.length := List.length_pos_iff.mpr hne
  have hdiv : parts.length / 33 = entries.length := by
    rw [hbody]
    exact Nat.mul_div_cancel _ (by decide)
  rw [putFromBytes_layout hone htwo hdata hcount₂, expect_of hlength, hvalue, expect_of hpos,
    expect_of hbody, hdiv, hentries]
  rfl

/-- What is read as a `STORAGE_PUT` is encoded as the same bytes. -/
theorem putToBytes_putFromBytes {r : StorageRequest} (hput : b.head? = some 1)
    (h : putFromBytes b = .ok r) : r.toBytes = .ok b := by
  obtain ⟨tail, rfl⟩ : ∃ tail, b = 1 :: tail := by
    cases b with
    | nil => cases hput
    | cons x rest => exact ⟨rest, by rw [Option.some.inj hput]⟩
  rw [putFromBytes] at h
  obtain ⟨u, hlength, h⟩ := except_bind_eq_ok.mp h
  obtain ⟨u, hshort, h⟩ := except_bind_eq_ok.mp h
  obtain ⟨u, hproviders, h⟩ := except_bind_eq_ok.mp h
  obtain ⟨u, hlong, h⟩ := except_bind_eq_ok.mp h
  obtain ⟨u, hpos, h⟩ := except_bind_eq_ok.mp h
  obtain ⟨u, hbody, h⟩ := except_bind_eq_ok.mp h
  obtain rfl := Except.ok.inj h
  obtain ⟨second, tail, rfl⟩ : ∃ second tail', tail = second :: tail' := by
    cases tail with
    | nil => exact absurd (expect_eq_ok.mp hshort) (by decide)
    | cons x rest => exact ⟨x, rest, rfl⟩
  have hsecond : (((1 :: second :: tail).drop 1).headD 0).toNat = second.toNat := rfl
  rw [hsecond] at hproviders hlong hpos hbody ⊢
  have hdrop : ∀ n, (1 :: second :: tail).drop (2 + n) = tail.drop n := by
    intro n
    rw [Nat.add_comm, List.drop_succ_cons, List.drop_succ_cons]
  have hlong' := expect_eq_ok.mp hlong
  have hpos' := expect_eq_ok.mp hpos
  have hbody' := expect_eq_ok.mp hbody
  obtain ⟨hone, htwo⟩ := expect_eq_ok.mp hproviders
  rw [hdrop] at hpos' hbody'
  rw [Nat.add_assoc, hdrop, ← List.drop_drop] at hbody' ⊢
  have hfront : (1 :: second :: tail).drop 2 = tail := rfl
  rw [hfront]
  simp only [List.length_cons] at hlong'
  have hcount : ((tail.drop (second.toNat * peerInfoBytes)).take 2).length = 2 := by
    rw [List.length_take, List.length_drop]
    omega
  have hbytes := toBytesBig_fromBytesBig ((tail.drop (second.toNat * peerInfoBytes)).take 2)
  rw [hcount] at hbytes
  have hdiv : ((tail.drop (second.toNat * peerInfoBytes)).drop 2).length / 33 =
      Python.fromBytesBig ((tail.drop (second.toNat * peerInfoBytes)).take 2) := by
    rw [hbody']
    exact Nat.mul_div_cancel _ (by decide)
  obtain ⟨hmany, hparts⟩ := encodePutEntries_read hbody'
  rw [hdiv, StorageRequest.toBytes]
  refine putToBytes_eq_ok.mpr ⟨second.toNat, hone, htwo, ?_, ?_, ?_, expect_eq_ok.mp hlength,
    (tail.drop (second.toNat * peerInfoBytes)).take 2,
    (tail.drop (second.toNat * peerInfoBytes)).drop 2, ?_, hparts, ?_⟩
  · rw [List.length_take]
    omega
  · rw [Option.getD_some, ← List.length_pos_iff, hmany]
    exact hpos'
  · have hlt := fromBytesLittle_lt ((tail.drop (second.toNat * peerInfoBytes)).take 2).reverse
    rw [List.length_reverse, hcount] at hlt
    rw [Option.getD_some, hmany]
    exact Nat.le_of_lt_succ hlt
  · rw [Option.getD_some, hmany]
    exact hbytes
  · rw [UInt8.ofNat_toNat, List.take_append_drop, List.take_append_drop]

end Put

section Sizes

variable {e : GetEntry} {offset : Nat} {key valueShape param : Bytes}

/-- The lengths of the shape and of the key of an entry. -/
def entryLengths (e : GetEntry) : Nat × Nat :=
  if e.resolution = resolutionDynamic then (e.shape.length, 0)
  else if e.resolution = resolutionRadixKey then
    match parseRadixKeyParam e.shape with
    | .ok (_, key, valueShape) => (valueShape.length, key.length)
    | .error _ => (0, 0)
  else if e.resolution = resolutionRadixAll then
    match parseRadixAllParam e.shape with
    | .ok valueShape => (valueShape.length, 0)
    | .error _ => (0, 0)
  else (0, 0)

/-- The shortest radix key param of these fields. -/
def shortestParam (offset : Nat) (key valueShape : Bytes) : Nat :=
  (varintBytes offset).length + (varintBytes key.length).length + key.length +
    ((varintBytes valueShape.length).length + valueShape.length)

/-- The bytes by which the varints of a radix key param are longer than they have to be. -/
def paddingOf (param : Bytes) : Nat :=
  match parseRadixKeyParam param with
  | .ok (offset, key, valueShape) => param.length - shortestParam offset key valueShape
  | .error _ => 0

/-- The bytes that an offset leaves of the varint of the bit length of its key. -/
def slackOf (param : Bytes) : Nat :=
  match parseRadixKeyParam param with
  | .ok (offset, key, _) => (varintBytes (key.length * 8)).length - (varintBytes offset).length
  | .error _ => 0

/-- A scoped radix key entry is padded by more bytes than its offset leaves. -/
def Overpadded (e : GetEntry) : Prop :=
  e.blockHash.isSome ∧ e.resolution = resolutionRadixKey ∧ slackOf e.shape < paddingOf e.shape

theorem readVarint_length {field rest : Bytes} {value : Nat}
    (h : readVarint field = .ok (value, rest)) :
    (varintBytes value).length + rest.length ≤ field.length ∧ field.length ≤ 3 + rest.length := by
  obtain ⟨front, rfl, hfront⟩ := readVarintFrom_field h
  have hshort := varintBytes_shortest hfront
  have hlong := readVarintFrom_length hfront
  rw [List.length_append]
  rcases hshort with rfl | hshort <;> omega

theorem readValueShape_length {rest : Bytes}
    (h : readValueShape param = .ok (valueShape, rest)) :
    (varintBytes valueShape.length).length + valueShape.length + rest.length ≤ param.length ∧
      param.length ≤ 3 + valueShape.length + rest.length := by
  rw [readValueShape, readShape] at h
  obtain ⟨⟨shape, rest₁⟩, hshape, h⟩ := except_bind_eq_ok.mp h
  obtain ⟨⟨length, rest₂⟩, hlength, hshape⟩ := except_bind_eq_ok.mp hshape
  obtain ⟨u, hcheck, h⟩ := except_bind_eq_ok.mp h
  obtain ⟨rfl, rfl⟩ := Prod.mk.inj (Except.ok.inj h)
  obtain ⟨rfl, rfl⟩ := readBytes_eq_ok hshape
  have hvarint := readVarint_length hlength
  rw [List.length_append] at hvarint
  omega

theorem parseRadixAllParam_length (h : parseRadixAllParam param = .ok valueShape) :
    param.length ≤ 3 + valueShape.length := by
  have hread := readValueShape_length (readRadixAllParam_of_parse h)
  simpa using hread.2

/-- A radix key param holds its key and its value shape behind three varints. -/
theorem parseRadixKeyParam_length (h : parseRadixKeyParam param = .ok (offset, key, valueShape)) :
    offset ≤ key.length * 8 ∧ shortestParam offset key valueShape ≤ param.length ∧
      param.length ≤ 9 + key.length + valueShape.length := by
  have hread := readRadixKeyParam_of_parse h
  rw [readRadixKeyParam] at hread
  obtain ⟨⟨keyBitOffset, rest₁⟩, hoffset, hread⟩ := except_bind_eq_ok.mp hread
  obtain ⟨⟨length, rest₂⟩, hlength, hread⟩ := except_bind_eq_ok.mp hread
  obtain ⟨⟨found, rest₃⟩, hkey, hread⟩ := except_bind_eq_ok.mp hread
  obtain ⟨u, hinside, hread⟩ := except_bind_eq_ok.mp hread
  obtain ⟨⟨shape, rest₄⟩, hshape, hread⟩ := except_bind_eq_ok.mp hread
  obtain ⟨hfields, rfl⟩ := Prod.mk.inj (Except.ok.inj hread)
  obtain ⟨rfl, hpair⟩ := Prod.mk.inj hfields
  obtain ⟨rfl, rfl⟩ := Prod.mk.inj hpair
  obtain ⟨rfl, rfl⟩ := readBytes_eq_ok hkey
  have hoffsets := readVarint_length hoffset
  have hlengths := readVarint_length hlength
  have hshapes := readValueShape_length hshape
  rw [List.length_append] at hlengths
  rw [List.length_nil] at hshapes
  refine ⟨expect_eq_ok.mp hinside, ?_, ?_⟩
  · rw [shortestParam]
    omega
  · omega

/-- An entry is above the longest of its lengths just if it is padded. -/
theorem getEntrySize_le_iff (hshape : checkEntryShape e.resolution e.shape = .ok ()) :
    getEntrySize e ≤ maxGetEntryBytes (entryLengths e).1 (entryLengths e).2 ↔ ¬Overpadded e := by
  have hscope : (if e.blockHash.isSome then 32 else 0 : Nat) ≤ 32 := by
    split <;> decide
  rw [checkEntryShape] at hshape
  rw [getEntrySize, entryLengths, maxGetEntryBytes, Overpadded]
  split at hshape
  · rename_i hdynamic
    have hkey : e.resolution ≠ resolutionRadixKey := by
      rw [hdynamic]
      decide
    simp only [if_pos hdynamic]
    refine iff_of_true ?_ fun hpadded => hkey hpadded.2.1
    have hmax := le_max_left ((varintBytes e.shape.length).length + e.shape.length)
      (maxRadixKeyBytes e.shape.length 0)
    omega
  rename_i hdynamic
  split at hshape
  · rename_i hkey
    obtain ⟨⟨offset, key, valueShape⟩, hparse⟩ := map_eq_ok hshape
    obtain ⟨hinside, hshort, hlong⟩ := parseRadixKeyParam_length hparse
    have hmono := length_varintBytes_mono hinside
    have hpos := length_varintBytes_pos key.length
    have hpos' := length_varintBytes_pos offset
    have hpos'' := length_varintBytes_pos valueShape.length
    have hradix : e.resolution = resolutionRadixKey ∨ e.resolution = resolutionRadixAll := .inl hkey
    simp only [if_neg hdynamic, if_pos hkey, if_pos hradix, paddingOf, slackOf, hparse]
    rw [max_eq_right (by rw [maxRadixKeyBytes]; omega), maxRadixKeyBytes]
    rw [shortestParam] at hshort ⊢
    rcases hb : e.blockHash with _ | b
    · refine iff_of_true ?_ fun hpadded => absurd hpadded.1 (by simp)
      rw [if_neg (show ¬(none : Option Bytes).isSome = true by simp)]
      omega
    · rw [if_pos (show (some b).isSome = true from rfl)]
      constructor
      · rintro hle ⟨-, -, hpadded⟩
        omega
      · intro hnot
        have hle := not_lt.mp fun hlt => hnot ⟨rfl, hkey, hlt⟩
        omega
  rename_i hkey
  split at hshape
  · rename_i hall
    obtain ⟨valueShape, hparse⟩ := map_eq_ok hshape
    have hlong := parseRadixAllParam_length hparse
    have hpos := length_varintBytes_pos valueShape.length
    have hradix : e.resolution = resolutionRadixKey ∨ e.resolution = resolutionRadixAll := .inr hall
    simp only [if_neg hdynamic, if_neg hkey, if_pos hall, if_pos hradix, hparse]
    refine iff_of_true ?_ fun hpadded => hkey hpadded.2.1
    have hone : (varintBytes 0).length = 1 := by rw [varintBytes]; rfl
    have hmax := le_max_right ((varintBytes valueShape.length).length + valueShape.length)
      (maxRadixKeyBytes valueShape.length 0)
    rw [maxRadixKeyBytes] at hmax ⊢
    rw [Nat.zero_mul, hone] at hmax ⊢
    omega
  · rename_i hall
    rw [if_neg hdynamic, if_neg (not_or.mpr ⟨hkey, hall⟩)]
    refine iff_of_true ?_ fun hpadded => hkey hpadded.2.1
    omega

end Sizes

section Errors

theorem onlyValueError_readEntryShape (resolution : Int) (body : Bytes) :
    OnlyValueError (readEntryShape resolution body) := by
  rw [readEntryShape]
  split
  · exact (onlyValueError_readShape body).bind fun p =>
      (onlyValueError_checkShape p.1).bind fun _ => OnlyValueError.ok _
  split
  · exact (onlyValueError_readRadixKeyParam body).bind fun _ => OnlyValueError.ok _
  split
  · exact (onlyValueError_readValueShape body).bind fun _ => OnlyValueError.ok _
  · exact OnlyValueError.ok _

theorem onlyValueError_readGetEntry (body : Bytes) : OnlyValueError (readGetEntry body) := by
  refine (onlyValueError_readBytes 33 body).bind fun front => ?_
  refine OnlyValueError.bind ?_ fun blockHash => ?_
  · rw [readBlockHash]
    split
    · exact (onlyValueError_readBytes 32 front.2).bind fun _ => OnlyValueError.ok _
    · exact OnlyValueError.ok _
  · exact (onlyValueError_readEntryShape _ blockHash.2).bind fun _ => OnlyValueError.ok _

theorem onlyValueError_readGetEntries (count : Nat) (body : Bytes) :
    OnlyValueError (readGetEntries count body) := by
  induction count generalizing body with
  | zero =>
    rw [readGetEntries]
    split
    · exact OnlyValueError.ok _
    · exact OnlyValueError.error
  | succ count ih =>
    exact (onlyValueError_readGetEntry body).bind fun p =>
      (ih p.2).bind fun _ => OnlyValueError.ok _

/-- Bytes that are no request raise a `ValueError`. -/
theorem onlyValueError_fromBytes (data : Bytes) :
    OnlyValueError (StorageRequest.fromBytes data) := by
  rw [StorageRequest.fromBytes]
  cases data.head? with
  | none => exact OnlyValueError.error
  | some code =>
    dsimp only
    split
    · exact (OnlyValueError.expect _).bind fun _ => (OnlyValueError.expect _).bind fun _ =>
        (OnlyValueError.expect _).bind fun _ => (OnlyValueError.expect _).bind fun _ =>
          (OnlyValueError.expect _).bind fun _ => (OnlyValueError.expect _).bind fun _ =>
            OnlyValueError.ok _
    split
    · exact (OnlyValueError.expect _).bind fun _ => (OnlyValueError.expect _).bind fun _ =>
        (OnlyValueError.expect _).bind fun _ =>
          (onlyValueError_readGetEntries _ _).bind fun _ => OnlyValueError.ok _
    split
    · split
      · exact OnlyValueError.error
      · exact OnlyValueError.ok _
    · exact OnlyValueError.error

end Errors

section Codec

variable {r : StorageRequest} {b : Bytes} {fields : List (GetEntry × Bytes)}

/-- A request with nothing set that its layout leaves out, no resolution with the scope flag and
no padded radix key entry. -/
def PlainRequest (r : StorageRequest) : Prop :=
  r.exprId = none ∧ r.payloadType = none ∧
    match r.entries with
    | .storageGet entries =>
      r.data = [] ∧ ∀ e ∈ entries.getD [], e.resolution < 128 ∧ ¬Overpadded e
    | .storagePut _ => True
    | .storageIndexRequest entries => r.data = [] ∧ entries = none

/-- A `STORAGE_GET` with the length of the shape of an entry in a longer varint. -/
def PaddedRequest (b : Bytes) : Prop :=
  ∃ fields : List (GetEntry × Bytes), ∃ count, toBytesBig 2 fields.length = .ok count ∧
    fields ≠ [] ∧ b.length ≤ maxInlineMessageBytes ∧
      (∀ p ∈ fields, ValidEntry p.1 ∧ FieldOf p.1 p.2) ∧ b = 0 :: count ++ rawEntries fields ∧
        ∃ p ∈ fields, p.2 ≠ shortestField p.1

/-- The lengths that a `STORAGE_GET` is sent with. -/
def SizesHold (entries : List GetEntry) (b : Bytes) : Prop :=
  b.length = 3 + (entries.map getEntrySize).sum ∧
    ∀ e ∈ entries, getEntrySize e ≤ maxGetEntryBytes (entryLengths e).1 (entryLengths e).2

theorem fromBytes_get (h : b.head? = some 0) : StorageRequest.fromBytes b = getFromBytes b := by
  rw [StorageRequest.fromBytes, h]
  rfl

theorem fromBytes_put (h : b.head? = some 1) : StorageRequest.fromBytes b = putFromBytes b := by
  rw [StorageRequest.fromBytes, h]
  rfl

theorem length_lt_of_size {e : GetEntry} (h : getEntrySize e ≤ maxInlineMessageBytes)
    (hdynamic : e.resolution = resolutionDynamic) : e.shape.length < 2 ^ 21 := by
  rw [getEntrySize, if_pos hdynamic] at h
  have hmax : maxInlineMessageBytes < 2 ^ 21 := by decide
  omega

theorem fieldOf_of_size {e : GetEntry} (h : getEntrySize e ≤ maxInlineMessageBytes) :
    FieldOf e (shortestField e) := by
  by_cases hdynamic : e.resolution = resolutionDynamic
  · exact fieldOf_shortestField (length_lt_of_size h hdynamic)
  · rw [FieldOf, shortestField, if_neg hdynamic, if_neg hdynamic]

theorem getToBytes_sizes {entries : List GetEntry} (h : getToBytes entries = .ok b) :
    b.head? = some 0 ∧ b.length = 3 + (entries.map getEntrySize).sum ∧
      ∀ e ∈ entries, (∃ x, encodeGetEntry e = .ok x) ∧ getEntrySize e ≤ maxInlineMessageBytes := by
  obtain ⟨-, -, hlength, count, parts, hcount, hparts, rfl⟩ := getToBytes_eq_ok.mp h
  obtain ⟨hsum, hencoded⟩ := encodeGetEntries_eq_ok hparts
  have hthree : (0 :: count ++ parts).length = 3 + (entries.map getEntrySize).sum := by
    rw [List.cons_append, List.length_cons, List.length_append,
      (fromBytesBig_toBytesBig hcount).1, hsum]
    omega
  refine ⟨rfl, hthree, fun e he => ⟨hencoded e he, ?_⟩⟩
  have hmem := List.single_le_sum (l := entries.map getEntrySize) (fun _ _ => Nat.zero_le _) _
    (List.mem_map_of_mem he)
  omega

/-- Entries without the scope flag in their resolutions are read back. -/
theorem getFromBytes_getToBytes {entries : List GetEntry} (h : getToBytes entries = .ok b)
    (hlt : ∀ e ∈ entries, e.resolution < 128) :
    getFromBytes b = .ok ⟨.storageGet (some entries), [], none, none⟩ := by
  obtain ⟨-, -, hsizes⟩ := getToBytes_sizes h
  obtain ⟨hne, -, hlength, count, parts, hcount, hparts, rfl⟩ := getToBytes_eq_ok.mp h
  have hvalid : ∀ e ∈ entries, ValidEntry e := by
    intro e he
    obtain ⟨x, hx⟩ := (hsizes e he).1
    exact validEntry_of_encoded hx (hlt e he)
  obtain ⟨hcount₂, hvalue⟩ := fromBytesBig_toBytesBig hcount
  rw [encodeGetEntries_valid hvalid] at hparts
  obtain rfl := Except.ok.inj hparts
  have hfields : ∀ p ∈ entries.map fun e => (e, shortestField e),
      ValidEntry p.1 ∧ FieldOf p.1 p.2 := by
    intro p hp
    obtain ⟨e, he, rfl⟩ := List.mem_map.mp hp
    exact ⟨hvalid e he, fieldOf_of_size (hsizes e he).2⟩
  have hread := readGetEntries_raw hfields
  rw [List.length_map, List.map_map] at hread
  have hsame : entries.map (Prod.fst ∘ fun e => (e, shortestField e)) = entries := List.map_id _
  have hpos : 1 ≤ entries.length := List.length_pos_iff.mpr hne
  rw [getFromBytes_layout hcount₂, expect_of hlength, hvalue, expect_of hpos, py_ok_bind,
    py_ok_bind, hread, hsame]
  rfl

theorem getFromBytes_toBytes {count : Bytes} (hcount : toBytesBig 2 fields.length = .ok count)
    (hne : fields ≠ []) (hlength : (0 :: count ++ rawEntries fields).length ≤ maxInlineMessageBytes)
    (hfields : ∀ p ∈ fields, ValidEntry p.1 ∧ FieldOf p.1 p.2) :
    getToBytes (fields.map Prod.fst) =
      .ok (0 :: count ++ rawEntries (fields.map fun p => (p.1, shortestField p.1))) := by
  obtain ⟨hle, -⟩ := rawEntries_shortest fun p hp => (hfields p hp).2
  have hvalid : ∀ e ∈ fields.map Prod.fst, ValidEntry e := by
    intro e he
    obtain ⟨p, hp, rfl⟩ := List.mem_map.mp he
    exact (hfields p hp).1
  have hparts := encodeGetEntries_valid hvalid
  rw [List.map_map] at hparts
  refine getToBytes_eq_ok.mpr ⟨by simpa using hne, ?_, ?_, count, _, ?_, hparts, rfl⟩
  · obtain ⟨hcount₂, hvalue⟩ := fromBytesBig_toBytesBig hcount
    have hlt := fromBytesLittle_lt count.reverse
    rw [List.length_reverse, hcount₂, ← Python.fromBytesBig, hvalue] at hlt
    rw [List.length_map]
    exact Nat.le_of_lt_succ hlt
  · simp only [List.cons_append, List.length_cons, List.length_append] at hlength ⊢
    omega
  · rwa [List.length_map]

theorem get_round_trip {entries : Option (List GetEntry)} {data : Bytes} {exprId : Option Bytes}
    {payloadType : Option Int} (h : getToBytes (entries.getD []) = .ok b) :
    (StorageRequest.fromBytes b = .ok ⟨.storageGet entries, data, exprId, payloadType⟩ ∧
        ∀ found, entries = some found → SizesHold found b) ↔
      PlainRequest ⟨.storageGet entries, data, exprId, payloadType⟩ := by
  obtain ⟨hzero, hsum, hsizes⟩ := getToBytes_sizes h
  rw [fromBytes_get hzero]
  have hfit : ∀ e ∈ entries.getD [], getEntrySize e ≤
      maxGetEntryBytes (entryLengths e).1 (entryLengths e).2 ↔ ¬Overpadded e := by
    intro e he
    obtain ⟨x, hx⟩ := (hsizes e he).1
    exact getEntrySize_le_iff (encodeGetEntry_eq_ok hx).2.1
  constructor
  · rintro ⟨hread, hsizes'⟩
    obtain ⟨fields, count, -, -, -, hfields, -, hsame⟩ := getFromBytes_eq_ok hzero hread
    obtain ⟨hentries, rfl, rfl, rfl⟩ := StorageRequest.mk.inj hsame
    obtain rfl := RequestEntries.storageGet.inj hentries
    refine ⟨rfl, rfl, rfl, fun e he => ⟨?_, (hfit e he).mp ((hsizes' _ rfl).2 e he)⟩⟩
    obtain ⟨p, hp, rfl⟩ := List.mem_map.mp he
    exact (hfields p hp).1.unflagged
  · rintro ⟨hexprId, hpayloadType, hdata, hplain⟩
    obtain ⟨hne, -⟩ := getToBytes_eq_ok.mp h
    cases entries with
    | none => exact absurd rfl hne
    | some found =>
      dsimp only at hexprId hpayloadType hdata
      subst hexprId hpayloadType hdata
      refine ⟨getFromBytes_getToBytes h fun e he => (hplain e he).1, fun found' hfound => ?_⟩
      obtain rfl := Option.some.inj hfound
      exact ⟨hsum, fun e he => (hfit e he).mpr (hplain e he).2⟩

theorem put_round_trip {entries : Option (List PutEntry)} {data : Bytes} {exprId : Option Bytes}
    {payloadType : Option Int} (h : putToBytes data (entries.getD []) = .ok b) :
    StorageRequest.fromBytes b = .ok ⟨.storagePut entries, data, exprId, payloadType⟩ ↔
      PlainRequest ⟨.storagePut entries, data, exprId, payloadType⟩ := by
  obtain ⟨hone, hread⟩ := putFromBytes_putToBytes h
  obtain ⟨-, -, -, -, hne, -⟩ := putToBytes_eq_ok.mp h
  rw [fromBytes_put hone, hread]
  cases entries with
  | none => exact absurd rfl hne
  | some found =>
    constructor
    · intro hsame
      obtain ⟨-, -, hexprId, hpayloadType⟩ := StorageRequest.mk.inj (Except.ok.inj hsame)
      exact ⟨hexprId.symm, hpayloadType.symm, trivial⟩
    · rintro ⟨hexprId, hpayloadType, -⟩
      dsimp only at hexprId hpayloadType
      rw [hexprId, hpayloadType]
      rfl

theorem index_round_trip {entries : Option (List PutEntry)} {data : Bytes}
    {exprId : Option Bytes} {payloadType : Option Int} :
    StorageRequest.fromBytes [2] =
        .ok ⟨.storageIndexRequest entries, data, exprId, payloadType⟩ ↔
      PlainRequest ⟨.storageIndexRequest entries, data, exprId, payloadType⟩ := by
  have hread : StorageRequest.fromBytes [2] =
      .ok ⟨.storageIndexRequest none, [], none, none⟩ := rfl
  rw [hread]
  constructor
  · intro hsame
    obtain ⟨hentries, hdata, hexprId, hpayloadType⟩ :=
      StorageRequest.mk.inj (Except.ok.inj hsame)
    obtain rfl := RequestEntries.storageIndexRequest.inj hentries
    exact ⟨hexprId.symm, hpayloadType.symm, hdata.symm, rfl⟩
  · rintro ⟨hexprId, hpayloadType, hdata, hentries⟩
    dsimp only at hexprId hpayloadType hdata hentries
    rw [hexprId, hpayloadType, hdata, hentries]

/-- Bytes with a padded length are read as a request that is written without the padding. -/
theorem padded_written_shorter (h : PaddedRequest b) : ∃ r, StorageRequest.fromBytes b = .ok r ∧
    r.toBytes ≠ .ok b := by
  obtain ⟨fields, count, hcount, hne, hlength, hfields, rfl, p, hp, hpadded⟩ := h
  have hread : StorageRequest.fromBytes (0 :: count ++ rawEntries fields) =
      .ok ⟨.storageGet (some (fields.map Prod.fst)), [], none, none⟩ := by
    obtain ⟨hcount₂, hvalue⟩ := fromBytesBig_toBytesBig hcount
    have hpos : 1 ≤ fields.length := List.length_pos_iff.mpr hne
    rw [fromBytes_get rfl, getFromBytes_layout hcount₂, expect_of hlength, hvalue, expect_of hpos,
      py_ok_bind, py_ok_bind, readGetEntries_raw hfields]
    rfl
  refine ⟨_, hread, fun hwrite => hpadded ?_⟩
  have hsame := getFromBytes_toBytes hcount hne hlength hfields
  have hbytes := Except.ok.inj (hsame.symm.trans hwrite)
  exact ((rawEntries_shortest fun p hp => (hfields p hp).2).2.mp
    (List.append_cancel_left hbytes)) p hp

/-- Bytes without a padded length are no request or the bytes of the one that they are read as. -/
theorem unpadded_written_back {r : StorageRequest} (hread : StorageRequest.fromBytes b = .ok r)
    (h : ¬PaddedRequest b) : r.toBytes = .ok b := by
  have hcode := hread
  rw [StorageRequest.fromBytes] at hcode
  rcases hhead : b.head? with _ | code
  · rw [hhead] at hcode
    cases hcode
  rw [hhead] at hcode
  dsimp only at hcode
  split at hcode
  · rename_i hone
    exact putToBytes_putFromBytes (hone ▸ hhead) hcode
  split at hcode
  · rename_i hzero
    obtain ⟨fields, count, hcount, hne, hlength, hfields, rfl, rfl⟩ :=
      getFromBytes_eq_ok (hzero ▸ hhead) hcode
    have hshort : ∀ p ∈ fields, p.2 = shortestField p.1 := by
      intro p hp
      by_contra hpadded
      exact h ⟨fields, count, hcount, hne, hlength, hfields, rfl, p, hp, hpadded⟩
    have hsame := (rawEntries_shortest fun p hp => (hfields p hp).2).2.mpr hshort
    have hwrite := getFromBytes_toBytes hcount hne hlength hfields
    rw [hsame] at hwrite
    exact hwrite
  split at hcode
  · rename_i htwo
    split at hcode
    · cases hcode
    · rename_i hlength
      obtain rfl := Except.ok.inj hcode
      obtain ⟨x, rfl⟩ := List.length_eq_one_iff.mp (not_not.mp hlength)
      have hx : x = 2 := (Option.some.inj hhead).trans htwo
      rw [hx]
      rfl
  · cases hcode

/-- A plain request and no other is read from its bytes with the lengths that it is sent with, and
bytes are read as no request or written back as they are, unless the length of a shape is padded. -/
theorem storage_requests_iff (r : StorageRequest) (b : Bytes) :
    (r.toBytes = .ok b →
      ((StorageRequest.fromBytes b = .ok r ∧
          ∀ entries, r.entries = .storageGet (some entries) → SizesHold entries b) ↔
        PlainRequest r)) ∧
      ((StorageRequest.fromBytes b = .error .valueError ∨
          ∃ found, StorageRequest.fromBytes b = .ok found ∧ found.toBytes = .ok b) ↔
        ¬PaddedRequest b) := by
  constructor
  · intro h
    obtain ⟨entries, data, exprId, payloadType⟩ := r
    cases entries with
    | storageGet entries =>
      rw [← get_round_trip h]
      simp only [RequestEntries.storageGet.injEq]
    | storagePut entries =>
      rw [← put_round_trip h]
      exact and_iff_left fun found hfound => nomatch hfound
    | storageIndexRequest entries =>
      obtain rfl := Except.ok.inj h
      rw [← index_round_trip]
      exact and_iff_left fun found hfound => nomatch hfound
  · constructor
    · rintro hread hpadded
      obtain ⟨found, hok, hwrite⟩ := padded_written_shorter hpadded
      rw [hok] at hread
      rcases hread with hread | ⟨found', hread, hwrite'⟩
      · cases hread
      · obtain rfl := Except.ok.inj hread
        exact hwrite hwrite'
    · intro hpadded
      rcases hread : StorageRequest.fromBytes b with err | found
      · exact .inl (onlyValueError_fromBytes b err hread ▸ rfl)
      · exact .inr ⟨found, rfl, unpadded_written_back hread hpadded⟩

/-- A request for the data of an expression in the scope of a block. -/
def scopedRequest : StorageRequest :=
  ⟨.storageGet (some [⟨List.replicate 32 7, 1, some (List.replicate 32 9), []⟩]), [], none, none⟩

def scopedRequestBytes : Bytes :=
  [0, 0, 1] ++ List.replicate 32 7 ++ [129] ++ List.replicate 32 9

theorem scoped_request_is_read : StorageRequest.fromBytes scopedRequestBytes = .ok scopedRequest ∧
    ∀ entries, scopedRequest.entries = .storageGet (some entries) →
      SizesHold entries scopedRequestBytes := by
  refine ((storage_requests_iff scopedRequest scopedRequestBytes).1 (by decide)).mpr
    ⟨rfl, rfl, rfl, fun e he => ?_⟩
  obtain rfl := List.mem_singleton.mp he
  exact ⟨by decide, fun hpadded => absurd hpadded.2.1 (by decide)⟩

/-- A request whose resolution has the scope flag. -/
def flaggedRequest : StorageRequest :=
  ⟨.storageGet (some [⟨List.replicate 32 7, 129, none, []⟩]), [], none, none⟩

/-- A request with the length of a shape of one byte in two bytes. -/
def paddedBytes : Bytes := [0, 0, 1] ++ List.replicate 32 7 ++ [0, 129, 0, 0]

/-- A flagged request is not read back, and padded bytes are not written back. -/
theorem padded_bytes_are_read :
    (∃ b, flaggedRequest.toBytes = .ok b ∧ StorageRequest.fromBytes b ≠ .ok flaggedRequest) ∧
      ∃ r, StorageRequest.fromBytes paddedBytes = .ok r ∧ r.toBytes ≠ .ok paddedBytes := by
  constructor
  · exact ⟨[0, 0, 1] ++ List.replicate 32 7 ++ [129], by decide, by decide⟩
  · refine ⟨⟨.storageGet (some [⟨List.replicate 32 7, 0, none, [0]⟩]), [], none, none⟩, by decide,
      fun hwrite => ?_⟩
    have hlength := (getToBytes_sizes hwrite).2.1
    have hsize : getEntrySize ⟨List.replicate 32 7, 0, none, [0]⟩ = 35 := by
      rw [getEntrySize, if_neg (by decide), if_pos (by decide), List.length_singleton,
        varintBytes_of_lt (by decide)]
      rfl
    have hsum : ([(⟨List.replicate 32 7, 0, none, [0]⟩ : GetEntry)].map getEntrySize).sum = 35 := by
      rw [List.map_singleton, List.sum_singleton, hsize]
    rw [Option.getD_some, hsum] at hlength
    exact absurd hlength (by decide)

end Codec

end Astreum
