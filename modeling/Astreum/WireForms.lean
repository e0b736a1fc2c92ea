import Astreum.Cells

namespace Astreum

section Encodable

/-- The head of a link is hashed without its value: there is none, or its type encodes nothing. -/
def untyped (v : Val) (t : Child) : Prop :=
  v = .none ∨ ∀ tag ∈ builtinTypeNames, t ≠ .loaded (.symbol tag)

mutual

/-- Hashing the cell raises nothing: every hash that it names is one, every bytes cell holds bytes
and every value under a type is one of the type. -/
def Expr.Encodable : Expr → Prop
  | .bytesOf _ => False
  | .link v h t => ((h.hash? = none ∧ (payload? v t).isSome = true) ∨
      ((h.hash? ≠ none ∨ untyped v t) ∧ h.Encodable)) ∧ t.Encodable
  | _ => True

def Child.Encodable : Child → Prop
  | .none => True
  | .byHash x => x.length = 32
  | .loaded e => e.Encodable

end

variable {blake3 : Bytes → Bytes} (hdigest : ∀ x, (blake3 x).length = 32)

include hdigest

theorem length_hash_of_encodable {e : Expr} (h : e.Encodable) : (e.hash blake3).length = 32 := by
  cases e with
  | nil => rfl
  | bytesOf e => exact h.elim
  | symbol s => exact hdigest _
  | bytes b => exact hdigest _
  | link v hd tl =>
    rw [hash_link]
    exact hdigest _

theorem length_childHash_of_encodable {ch : Child} (h : ch.Encodable) :
    (ch.hash blake3).length = 32 := by
  cases ch with
  | none => rfl
  | byHash x => exact h
  | loaded e => exact length_hash_of_encodable hdigest h

theorem length_getHeadHash_of_encodable {e : Expr} (h : e.Encodable) :
    (e.getHeadHash blake3).length = 32 := by
  cases e with
  | link v hd tl =>
    obtain ⟨hhead, -⟩ := h
    cases hd with
    | byHash x =>
      rcases hhead with ⟨hnone, -⟩ | ⟨-, hlength⟩
      · cases hnone
      · exact hlength
    | none =>
      rw [Expr.getHeadHash]
      dsimp only [Expr.headChild, Expr.value, Expr.tailChild]
      split
      · exact hdigest _
      · rfl
    | loaded e =>
      rw [Expr.getHeadHash]
      dsimp only [Expr.headChild, Expr.value, Expr.tailChild]
      split
      · exact hdigest _
      · rename_i hnone
        rcases hhead with ⟨-, hsome⟩ | ⟨-, he⟩
        · rw [hnone] at hsome
          cases hsome
        · exact length_hash_of_encodable hdigest he
  | _ => rfl

theorem length_getTailHash_of_encodable {e : Expr} (h : e.Encodable) :
    (e.getTailHash blake3).length = 32 := by
  cases e with
  | link v hd tl => exact length_childHash_of_encodable hdigest h.2
  | _ => rfl

theorem decode_encodable {e : Expr} (h : e.Encodable) :
    decodeExprFromBytes (encodeExprToBytes blake3 e) = .ok (wireOf blake3 e) := by
  refine decodeExprFromBytes_encode (fun e' he => ?_) (length_getHeadHash_of_encodable hdigest h)
    (length_getTailHash_of_encodable hdigest h)
  rw [he] at h
  exact h

omit hdigest in
theorem hash_wireOf_encodable {e : Expr} (hnil : e ≠ .nil) (h : e.Encodable) :
    (wireOf blake3 e).hash blake3 = e.hash blake3 := by
  cases e with
  | nil => exact absurd rfl hnil
  | bytesOf e => exact h.elim
  | link v hd tl =>
    rw [hash_link v hd tl]
    simp [wireOf, Expr.hash, Child.hash]
  | symbol s => rfl
  | bytes b => rfl

end Encodable

section Reading

variable {blake3 : Bytes → Bytes} {data : Bytes} {e : Expr}

theorem utf8_of_utf8Decode {s : String} (h : utf8Decode data = .ok s) : utf8 s = data := by
  rw [utf8Decode] at h
  split at h
  · rename_i s' hs
    obtain rfl := Except.ok.inj h
    rw [String.fromUTF8?] at hs
    split at hs
    · obtain rfl := Option.some.inj hs
      simp [utf8, String.fromUTF8]
    · cases hs
  · cases h

/-- What no cell reads is refused with a `ValueError`. -/
theorem decodeExprFromBytes_error {err : PyError} (h : decodeExprFromBytes data = .error err) :
    err = .valueError := by
  rw [decodeExprFromBytes.eq_def] at h
  split at h
  · split at h
    · exact (Except.error.inj h).symm
    · cases h
  · rename_i rest
    rcases hs : utf8Decode rest with err' | s
    · rw [hs] at h
      obtain rfl := Except.error.inj h
      rw [utf8Decode] at hs
      split at hs
      · cases hs
      · exact (Except.error.inj hs).symm
    · rw [hs] at h
      cases h
  · cases h
  · exact (Except.error.inj h).symm

/-- A link with bytes after its two hashes. -/
def trailingLink (data : Bytes) : Prop := data.head? = some 0 ∧ 65 < data.length

/-- A cell that is read is written as it was, without the bytes that follow a link. -/
theorem encode_decoded (h : decodeExprFromBytes data = .ok e) :
    encodeExprToBytes blake3 e = if data.head? = some 0 then data.take 65 else data := by
  rw [decodeExprFromBytes.eq_def] at h
  split at h
  · rename_i rest
    split at h
    · cases h
    · obtain rfl := Except.ok.inj h
      have hparts : rest.take 32 ++ (rest.drop 32).take 32 = rest.take 64 := by
        rw [← List.take_add]
      simp only [List.head?_cons, if_true]
      change 0 :: rest.take 32 ++ (rest.drop 32).take 32 = 0 :: rest.take 64
      rw [List.cons_append, hparts]
  · rename_i rest
    rcases hs : utf8Decode rest with err | s
    · rw [hs] at h
      cases h
    · rw [hs] at h
      obtain rfl := Except.ok.inj h
      rw [encodeExprToBytes, utf8_of_utf8Decode hs]
      rfl
  · obtain rfl := Except.ok.inj h
    rfl
  · cases h

/-- Bytes that are read are written again just if no bytes follow a link. -/
theorem encode_decoded_iff (h : decodeExprFromBytes data = .ok e) :
    encodeExprToBytes blake3 e = data ↔ ¬trailingLink data := by
  rw [encode_decoded h, trailingLink]
  split
  · rename_i hlink
    rw [List.take_eq_self_iff, ← not_lt]
    exact ⟨fun hle hcon => hle hcon.2, fun hcon hlt => hcon ⟨hlink, hlt⟩⟩
  · rename_i hother
    exact ⟨fun _ hcon => hother hcon.1, fun _ => rfl⟩

theorem decodeExprFromBytes_link (rest : Bytes) (hlength : 64 ≤ rest.length) :
    decodeExprFromBytes (0 :: rest) =
      .ok (.link .none (.byHash (rest.take 32)) (.byHash ((rest.drop 32).take 32))) := by
  rw [decodeExprFromBytes, if_neg (not_lt.mpr hlength)]

/-- Bytes are the wire form of a cell, or are refused with a `ValueError`. -/
def WireForm (blake3 : Bytes → Bytes) (data : Bytes) : Prop :=
  decodeExprFromBytes data = .error .valueError ∨
    ∃ e, decodeExprFromBytes data = .ok e ∧ encodeExprToBytes blake3 e = data

theorem wireForm_iff : WireForm blake3 data ↔ ¬trailingLink data := by
  rcases hread : decodeExprFromBytes data with err | e
  · obtain rfl := decodeExprFromBytes_error hread
    refine ⟨fun _ hcon => ?_, fun _ => .inl hread⟩
    obtain ⟨hzero, hlength⟩ := hcon
    obtain ⟨rest, rfl⟩ : ∃ rest, data = 0 :: rest := by
      cases data with
      | nil => cases hzero
      | cons x rest => exact ⟨rest, by rw [Option.some.inj hzero]⟩
    rw [List.length_cons] at hlength
    rw [decodeExprFromBytes_link rest (by omega)] at hread
    cases hread
  · rw [WireForm, hread, ← @encode_decoded_iff blake3 _ _ hread]
    constructor
    · rintro (h | ⟨e', he, henc⟩)
      · cases h
      · obtain rfl := Except.ok.inj he
        exact henc
    · exact fun henc => .inr ⟨e, rfl, henc⟩

/-- A cell is read from the wire under its own hash, and bytes are the one wire form of what they
are read as just if no bytes follow a link. -/
theorem wire_forms_iff (hdigest : ∀ x, (blake3 x).length = 32) :
    (∀ e : Expr, e ≠ .nil → e.Encodable → ∃ e',
      decodeExprFromBytes (encodeExprToBytes blake3 e) = .ok e' ∧
        e'.hash blake3 = e.hash blake3) ∧
    (∀ data : Bytes, WireForm blake3 data ↔ ¬trailingLink data) ∧
    ∀ (data data' : Bytes) (e : Expr), ¬trailingLink data → ¬trailingLink data' →
      decodeExprFromBytes data = .ok e → decodeExprFromBytes data' = .ok e → data = data' := by
  refine ⟨fun e hnil h => ⟨_, decode_encodable hdigest h, hash_wireOf_encodable hnil h⟩,
    fun data => wireForm_iff, fun data data' e hd hd' hread hread' => ?_⟩
  have hwritten : encodeExprToBytes blake3 e = data := (encode_decoded_iff hread).mpr hd
  exact hwritten.symm.trans ((encode_decoded_iff hread').mpr hd')

theorem typed_int_has_wire_form : ∃ e',
    decodeExprFromBytes (encodeExprToBytes sampleDigest (int_ 5)) = .ok e' ∧
      e'.hash sampleDigest = (int_ 5).hash sampleDigest :=
  (wire_forms_iff fun x => by simp [sampleDigest]).1 (int_ 5) nofun ⟨.inl ⟨rfl, rfl⟩, trivial⟩

/-- A link with one more byte is read, and written without it. -/
theorem trailing_byte_is_lost :
    ∃ e, decodeExprFromBytes (0 :: List.replicate 65 7) = .ok e ∧
      encodeExprToBytes sampleDigest e ≠ 0 :: List.replicate 65 7 := by
  refine ⟨_, decodeExprFromBytes_link _ (by decide), ?_⟩
  decide

end Reading

end Astreum
