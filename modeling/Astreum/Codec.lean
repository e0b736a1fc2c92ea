import Astreum.Expr
import Mathlib.Tactic.Positivity
import Mathlib.Tactic.Ring
import Mathlib.Tactic.NormNum
import Mathlib.Tactic.FinCases
import Mathlib.Tactic.Zify
import Mathlib.Algebra.Order.Ring.Int

namespace Astreum

open Python

theorem length_toBytesLittle (len n : Nat) : (toBytesLittle len n).length = len := by
  induction len generalizing n with
  | zero => rfl
  | succ len ih => rw [toBytesLittle, List.length_cons, ih]

theorem fromBytesLittle_toBytesLittle {len n : Nat} (h : n < 256 ^ len) :
    fromBytesLittle (toBytesLittle len n) = n := by
  induction len generalizing n with
  | zero =>
    simp at h
    subst h
    rfl
  | succ len ih =>
    have hquot : n / 256 < 256 ^ len := by
      rw [Nat.div_lt_iff_lt_mul (by decide), ← Nat.pow_succ]
      exact h
    have hbyte : (UInt8.ofNat (n % 256)).toNat = n % 256 := by
      simp [UInt8.toNat_ofNat']
    rw [toBytesLittle, fromBytesLittle, ih hquot, hbyte]
    omega

theorem fromBytesLittle_lt (bytes : Bytes) : fromBytesLittle bytes < 256 ^ bytes.length := by
  induction bytes with
  | nil => exact Nat.one_pos
  | cons b bytes ih =>
    have hb : b.toNat < 256 := b.toNat_lt
    rw [fromBytesLittle, List.length_cons, Nat.pow_succ]
    omega

theorem natAbs_lt_two_pow_bitLength (z : Int) : z.natAbs < 2 ^ bitLength z := by
  rw [bitLength]
  split_ifs with hz
  · simp [hz]
  · exact Nat.lt_log2_self

/-- An integer fits the bytes that it is written in. -/
theorem two_mul_natAbs_lt (z : Int) : 2 * z.natAbs < 256 ^ (max 1 ((bitLength z + 8) / 8)) := by
  have hbits := natAbs_lt_two_pow_bitLength z
  have hlen : bitLength z + 1 ≤ 8 * max 1 ((bitLength z + 8) / 8) := by omega
  calc 2 * z.natAbs < 2 * 2 ^ bitLength z := by omega
    _ = 2 ^ (bitLength z + 1) := by rw [Nat.pow_succ, Nat.mul_comm]
    _ ≤ 2 ^ (8 * max 1 ((bitLength z + 8) / 8)) := Nat.pow_le_pow_right (by decide) hlen
    _ = 256 ^ max 1 ((bitLength z + 8) / 8) := by rw [Nat.pow_mul]

/-- An integer is read as it was written. -/
theorem decodeInt_encodeInt (z : Int) : decodeInt (encodeInt z) = z := by
  have hfit := two_mul_natAbs_lt z
  rw [decodeInt, encodeInt, fromBytesSigned]
  generalize max 1 ((bitLength z + 8) / 8) = n at hfit ⊢
  have hpos : (0 : Int) < 256 ^ n := by positivity
  have hfit' : 2 * (z.natAbs : Int) < 256 ^ n := by exact_mod_cast hfit
  have hmod : (z % 256 ^ n).toNat < 256 ^ n := by
    have hlt := Int.emod_lt_of_pos z hpos
    have hnonneg := Int.emod_nonneg z hpos.ne'
    zify
    rw [Int.toNat_of_nonneg hnonneg]
    exact hlt
  rw [length_toBytesLittle, fromBytesLittle_toBytesLittle hmod,
    Int.toNat_of_nonneg (Int.emod_nonneg z hpos.ne')]
  rcases le_or_gt 0 z with hz | hz
  · have hsame : z % 256 ^ n = z := Int.emod_eq_of_lt hz (by omega)
    rw [hsame, if_pos (by omega)]
  · have hsame : z % 256 ^ n = z + 256 ^ n := by
      rw [← Int.add_emod_right, Int.emod_eq_of_lt (by omega) (by omega)]
    rw [hsame, if_neg (by omega)]
    ring

theorem utf8Decode_utf8 (s : String) : utf8Decode (utf8 s) = .ok s := by
  have hbytes : (⟨(utf8 s).toArray⟩ : ByteArray) = s.toByteArray := by
    simp [utf8]
  rw [utf8Decode, hbytes, String.fromUTF8?, dif_pos s.isValidUTF8]
  rfl

/-- The values that a cell of a type holds. -/
def holdsType (tag : String) : Val → Bool
  | .int _ => tag == "int"
  | .str _ => tag == "str"
  | .f64 _ => tag == "fp64"
  | .raw _ => ["e4m3", "e5m2", "fp16", "bf16", "fp32"].contains tag
  | _ => false

/-- A value is read from the bytes cell that stands for it. -/
theorem tagByteDecode_encode {tag : String} {v : Val} (h : holdsType tag v) :
    tag ∈ builtinCompositeTypeNames ∧
      ∃ data, tagByteEncode tag v = some data ∧ tagByteDecode tag data = .ok v := by
  cases v with
  | int n =>
    have htag : tag = "int" := by simpa [holdsType] using h
    subst htag
    exact ⟨by decide, _, rfl, by rw [tagByteDecode, if_pos rfl, decodeInt_encodeInt]⟩
  | str s =>
    have htag : tag = "str" := by simpa [holdsType] using h
    subst htag
    refine ⟨by decide, utf8 s, rfl, ?_⟩
    rw [tagByteDecode, if_neg (by decide), if_pos (.inl rfl), utf8Decode_utf8]
    rfl
  | f64 bits =>
    have htag : tag = "fp64" := by simpa [holdsType] using h
    subst htag
    have hlt : bits.toNat < 256 ^ 8 := by
      have hbits := bits.toNat_lt
      norm_num at hbits ⊢
      exact hbits
    refine ⟨by decide, _, rfl, ?_⟩
    simp [tagByteDecode, length_toBytesLittle, fromBytesLittle_toBytesLittle hlt]
  | raw b =>
    have htag : tag ∈ ["e4m3", "e5m2", "fp16", "bf16", "fp32"] := by
      simpa [holdsType] using h
    fin_cases htag <;> exact ⟨by decide, b, rfl, rfl⟩
  | none => cases h
  | cell e => cases h

end Astreum
