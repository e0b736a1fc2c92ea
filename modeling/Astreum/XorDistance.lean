import Astreum.FoundPages

namespace Astreum

def xorBytes (a b : Bytes) : Bytes := List.zipWith (· ^^^ ·) a b

/-- What two identifiers of one length are apart. -/
def distanceTo (a b : Bytes) : Nat := Python.fromBytesBig (xorBytes a b)

/-- `xor_distance`. -/
def xorDistance (a b : Bytes) : Py Nat :=
  if a.length ≠ b.length then .error .valueError else .ok (distanceTo a b)

theorem xorDistance_of_length {a b : Bytes} (h : a.length = b.length) :
    xorDistance a b = .ok (distanceTo a b) := if_neg (not_not.mpr h)

theorem fromBytesBig_inj {a b : Bytes} (hlength : a.length = b.length)
    (h : Python.fromBytesBig a = Python.fromBytesBig b) : a = b := by
  have ha := toBytesBig_fromBytesBig a
  rw [h, hlength, toBytesBig_fromBytesBig b] at ha
  exact (Except.ok.inj ha).symm

theorem xorBytes_inj {t a b : Bytes} (ha : t.length = a.length) (hb : t.length = b.length)
    (h : xorBytes t a = xorBytes t b) : a = b := by
  induction t generalizing a b with
  | nil =>
    rw [List.eq_nil_of_length_eq_zero ha.symm, List.eq_nil_of_length_eq_zero hb.symm]
  | cons x t ih =>
    cases a with
    | nil => cases ha
    | cons y a =>
      cases b with
      | nil => cases hb
      | cons z b =>
        obtain ⟨hxor, hrest⟩ := List.cons.inj h
        rw [ih (Nat.succ.inj ha) (Nat.succ.inj hb) hrest, (UInt8.xor_right_inj x).mp hxor]

/-- From one target no two keys are equally far. -/
theorem distanceTo_inj {t a b : Bytes} (ha : t.length = a.length) (hb : t.length = b.length)
    (h : distanceTo t a = distanceTo t b) : a = b := by
  refine xorBytes_inj ha hb (fromBytesBig_inj ?_ h)
  rw [xorBytes, xorBytes, List.length_zipWith, List.length_zipWith, ← ha, ← hb]

theorem distanceTo_self (t : Bytes) : distanceTo t t = 0 := by
  have hzero : ∀ n, Python.fromBytesLittle (List.replicate n 0) = 0 := by
    intro n
    induction n with
    | zero => rfl
    | succ n ih => simp [List.replicate_succ, Python.fromBytesLittle, ih]
  have hxor : xorBytes t t = List.replicate t.length 0 := by
    induction t with
    | nil => rfl
    | cons x t ih =>
      rw [xorBytes, List.zipWith_cons_cons, UInt8.xor_self, List.length_cons, List.replicate_succ]
      exact congrArg _ ih
  rw [distanceTo, hxor, Python.fromBytesBig, List.reverse_replicate, hzero]

/-- Keys with their distances, as a sort by `xor_distance` takes them. -/
def withDistances (target : Bytes) : List Bytes → Py (List (Nat × Bytes))
  | [] => .ok []
  | key :: keys => do
    let distance ← xorDistance target key
    return (distance, key) :: (← withDistances target keys)

theorem withDistances_eq {target : Bytes} {keys : List Bytes}
    (h : ∀ key ∈ keys, target.length = key.length) :
    withDistances target keys = .ok (keys.map fun key => (distanceTo target key, key)) := by
  induction keys with
  | nil => rfl
  | cons key keys ih =>
    rw [withDistances, xorDistance_of_length (h key List.mem_cons_self),
      ih fun k hk => h k (List.mem_cons_of_mem key hk)]
    rfl

/-- Both share exactly their first `i` bits. -/
structure SharesBits (a b : Bytes) (i : Nat) : Prop where
  same : ∀ j < i, (a[j / 8]?.getD 0).toNat.testBit (7 - j % 8) =
    (b[j / 8]?.getD 0).toNat.testBit (7 - j % 8)
  differ : (a[i / 8]?.getD 0).toNat.testBit (7 - i % 8) ≠
    (b[i / 8]?.getD 0).toNat.testBit (7 - i % 8)

/-- The loop of `_matching_leading_bits` from a byte on, for keys of `total` bytes. -/
def matchingBitsFrom (total : Nat) : Nat → Bytes → Bytes → Nat
  | byteIndex, x :: a, y :: b =>
    let diff := x ^^^ y
    if diff ≠ 0 then byteIndex * 8 + (8 - Python.bitLength diff.toNat)
    else matchingBitsFrom total (byteIndex + 1) a b
  | _, _, _ => total * 8

/-- `_matching_leading_bits`. -/
def matchingLeadingBits (a b : Bytes) : Nat := matchingBitsFrom a.length 0 a b

/-- Two bytes differ first at the highest bit of what they differ in. -/
theorem byte_differs {x y : UInt8} (h : x ^^^ y ≠ 0) :
    let i := 8 - Python.bitLength (x ^^^ y).toNat
    i < 8 ∧ (∀ j < i, x.toNat.testBit (7 - j) = y.toNat.testBit (7 - j)) ∧
      x.toNat.testBit (7 - i) ≠ y.toNat.testBit (7 - i) := by
  have hnat : (x ^^^ y).toNat = x.toNat ^^^ y.toNat := UInt8.toNat_xor x y
  have hne : x.toNat ^^^ y.toNat ≠ 0 := by
    rw [← hnat]
    exact fun hzero => h (UInt8.toNat_inj.mp hzero)
  have hlt : (x.toNat ^^^ y.toNat).log2 < 8 := by
    rw [Nat.log2_lt hne, ← hnat]
    exact (x ^^^ y).toNat_lt
  have hlength : Python.bitLength (x ^^^ y).toNat = (x.toNat ^^^ y.toNat).log2 + 1 := by
    rw [Python.bitLength, hnat, if_neg (by exact_mod_cast hne), Int.natAbs_natCast]
  simp only [hlength]
  refine ⟨by omega, fun j hj => ?_, ?_⟩
  · have hhigh : (x.toNat ^^^ y.toNat).testBit (7 - j) = false := by
      refine Nat.testBit_lt_two_pow (lt_of_lt_of_le Nat.lt_log2_self ?_)
      exact Nat.pow_le_pow_right (by decide) (by omega)
    rw [Nat.testBit_xor] at hhigh
    simpa using hhigh
  · have htop := Nat.testBit_log2 hne
    have hplace : 7 - (8 - ((x.toNat ^^^ y.toNat).log2 + 1)) = (x.toNat ^^^ y.toNat).log2 := by
      omega
    rw [Nat.testBit_xor] at htop
    rw [hplace]
    simpa using htop

theorem matchingBitsFrom_spec {a b : Bytes} (hlength : a.length = b.length) (hne : a ≠ b)
    (total k : Nat) : ∃ i, matchingBitsFrom total k a b = k * 8 + i ∧ i < a.length * 8 ∧
      SharesBits a b i := by
  induction a generalizing b k with
  | nil => exact absurd (List.eq_nil_of_length_eq_zero hlength.symm).symm hne
  | cons x a ih =>
    cases b with
    | nil => cases hlength
    | cons y b =>
      rw [matchingBitsFrom]
      by_cases hdiff : x ^^^ y ≠ 0
      · obtain ⟨hlt, hsame, hdiffer⟩ := byte_differs hdiff
        simp only [if_pos hdiff]
        refine ⟨_, rfl, ?_, fun j hj => ?_, ?_⟩
        · rw [List.length_cons]
          omega
        · have hj8 : j / 8 = 0 ∧ j % 8 = j := by omega
          rw [hj8.1, hj8.2]
          exact hsame j hj
        · rw [Nat.div_eq_of_lt hlt, Nat.mod_eq_of_lt hlt]
          exact hdiffer
      · simp only [if_neg hdiff]
        have hxy : x = y := UInt8.xor_eq_zero_iff.mp (not_not.mp hdiff)
        obtain ⟨i, heq, hlt, hshares⟩ := ih (Nat.succ.inj hlength)
          (fun hab => hne (by rw [hxy, hab])) (k + 1)
        refine ⟨i + 8, by rw [heq]; ring, by rw [List.length_cons]; omega, fun j hj => ?_, ?_⟩
        · by_cases hfirst : j < 8
          · rw [Nat.div_eq_of_lt hfirst, hxy]
            rfl
          · obtain ⟨m, rfl⟩ := Nat.exists_eq_add_of_le (not_lt.mp hfirst)
            have hdiv : (8 + m) / 8 = m / 8 + 1 := by omega
            have hmod : (8 + m) % 8 = m % 8 := by omega
            rw [hdiv, hmod, List.getElem?_cons_succ, List.getElem?_cons_succ]
            exact hshares.same m (by omega)
        · have hdiv : (i + 8) / 8 = i / 8 + 1 := by omega
          have hmod : (i + 8) % 8 = i % 8 := by omega
          rw [hdiv, hmod, List.getElem?_cons_succ, List.getElem?_cons_succ]
          exact hshares.differ

theorem matchingLeadingBits_spec {a b : Bytes} (hlength : a.length = b.length) (hne : a ≠ b) :
    matchingLeadingBits a b < a.length * 8 ∧ SharesBits a b (matchingLeadingBits a b) := by
  obtain ⟨i, heq, hlt, hshares⟩ := matchingBitsFrom_spec hlength hne a.length 0
  rw [matchingLeadingBits, heq, Nat.zero_mul, Nat.zero_add]
  exact ⟨hlt, hshares⟩

end Astreum
