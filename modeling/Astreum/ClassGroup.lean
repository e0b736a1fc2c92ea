import Astreum.Cells
import Mathlib.Tactic.Ring
import Mathlib.Tactic.Linarith

namespace Astreum

section Forms

/-- A binary quadratic form with its discriminant. -/
structure QuadraticForm where
  a : Int
  b : Int
  c : Int
  D : Int
  deriving DecidableEq

theorem natAbs_fmod_lt (a : Int) {b : Int} (h : b ≠ 0) : (a.fmod b).natAbs < b.natAbs := by
  rcases lt_or_gt_of_ne h with hneg | hpos
  · have hopp : (-a).fmod (-b) = -a.fmod b := Int.neg_fmod_neg a b
    have hnonneg := Int.fmod_nonneg_of_pos (-a) (Int.neg_pos_of_neg hneg)
    have hlt := Int.fmod_lt_of_pos (-a) (Int.neg_pos_of_neg hneg)
    omega
  · have hnonneg := Int.fmod_nonneg_of_pos a hpos
    have hlt := Int.fmod_lt_of_pos a hpos
    omega

/-- A greatest common divisor with its two factors. -/
def extendedGcd (a b : Int) : Int × Int × Int :=
  if b = 0 then (a, 1, 0)
  else
    let (g, x, y) := extendedGcd b (Python.floorMod a b)
    (g, y, x - Python.floorDiv a b * y)
termination_by b.natAbs
decreasing_by exact natAbs_fmod_lt a ‹_›

/-- `%`, which raises on a zero divisor. -/
def floorMod? (a b : Int) : Py Int :=
  if b = 0 then .error .zeroDivisionError else .ok (Python.floorMod a b)

def modinv (a m : Int) : Py Int :=
  let (g, x, _) := extendedGcd a m
  if g ≠ 1 then .error .valueError else floorMod? x m

def isReduced (q : QuadraticForm) : Bool :=
  decide (|q.b| ≤ q.a ∧ q.a ≤ q.c ∧ ¬(q.a = q.c ∧ q.b < 0))

def isPrimitive (a b c : Int) : Bool := decide (Int.gcd (Int.gcd a b) c = 1)

/-- `QuadraticForm(a, b, c, D)`. -/
def QuadraticForm.new (a b c D : Int) : Py QuadraticForm :=
  if b * b - 4 * a * c ≠ D then .error .valueError
  else if isPrimitive a b c = false then .error .valueError
  else .ok ⟨a, b, c, D⟩

def gaussStep (q : QuadraticForm) : Py QuadraticForm := do
  let sign := if 0 ≤ q.b then 1 else -1
  let m ← Python.floorDiv? (q.b + sign * q.a) (2 * q.a)
  let b := q.b - 2 * m * q.a
  let c := m * m * q.a - m * q.b + q.c
  return if c < q.a ∨ q.a = c ∧ b < 0 then { q with a := c, b := -b, c := q.a }
    else { q with b := b, c := c }

/-- The loop of `reduce`, of so many steps at most. -/
def reduceFrom : Nat → QuadraticForm → Py QuadraticForm
  | 0, q => if isReduced q then .ok q else .error .outOfFuel
  | fuel + 1, q => if isReduced q then .ok q else gaussStep q >>= reduceFrom fuel

variable (fuel : Nat)

/-- `QuadraticForm.__mul__`. -/
def QuadraticForm.mul (x y : QuadraticForm) : Py QuadraticForm := do
  if x.D ≠ y.D then .error .valueError
  let k := Python.floorDiv (x.b + y.b) 2
  let g : Int := Int.gcd (Int.gcd x.a y.a) k
  let a₁ ← Python.floorDiv? x.a g
  let a₂ ← Python.floorDiv? y.a g
  let diff := Python.floorDiv (y.b - x.b) 2
  let inv ← modinv a₁ a₂
  let m ← floorMod? (diff * inv) a₂
  let b := x.b + 2 * m * x.a
  let a := x.a * a₂
  let c ← Python.floorDiv? (b * b - x.D) (4 * a)
  let form ← QuadraticForm.new a b c x.D
  reduceFrom fuel form

/-- `z.to_bytes(width, "big", signed=True)`. -/
def toBytesSigned (width : Nat) (z : Int) : Py Bytes :=
  if 2 * z < -256 ^ width ∨ 256 ^ width ≤ 2 * z then .error .overflowError
  else .ok (Python.toBytesLittle width (z % 256 ^ width).toNat).reverse

def QuadraticForm.toBytes (q : QuadraticForm) : Py Bytes := do
  let width := (Python.bitLength q.D + 15) / 8
  return (← toBytesSigned width q.a) ++ (← toBytesSigned width q.b)

def QuadraticForm.fromBytes (data : Bytes) (D : Int) : Py QuadraticForm := do
  let width := data.length / 2
  let a := Python.fromBytesSigned (data.take width).reverse
  let b := Python.fromBytesSigned (data.drop width).reverse
  let c ← Python.floorDiv? (b * b - D) (4 * a)
  let form ← QuadraticForm.new a b c D
  reduceFrom fuel form

end Forms

section Vdf

/-- A form as an object. The class has no `__eq__`, so `==` is the identity of the objects. -/
structure FormObject where
  form : QuadraticForm
  ref : Nat

/-- The next object that is made. -/
def makeObject (form : QuadraticForm) : Stateful Nat FormObject := fun next =>
  (.ok ⟨form, next⟩, next + 1)

variable (sha256 : Bytes → Bytes) (fuel : Nat)

def hashToInt (data : Bytes) : Nat := Python.fromBytesBig (sha256 data)

def groupMul (x y : FormObject) : Stateful Nat FormObject := do
  let form ← Eff.ofExcept (x.form.mul fuel y.form)
  makeObject form

def identity (D : Int) : Stateful Nat FormObject := do
  let form ← Eff.ofExcept (QuadraticForm.new 1 1 (Python.floorDiv (1 - D) 4) D)
  makeObject form

def classGroupSquare (x : FormObject) : Stateful Nat FormObject := groupMul fuel x x

/-- The result is multiplied for an odd exponent. -/
def multiplyOdd (e : Nat) (result base : FormObject) : Stateful Nat FormObject :=
  if e % 2 = 1 then groupMul fuel result base else pure result

/-- The loop of `group_exp`. -/
def groupExpFrom (e : Nat) (result base : FormObject) : Stateful Nat FormObject :=
  if e = 0 then return result
  else do
    let result ← multiplyOdd fuel e result base
    let base ← groupMul fuel base base
    groupExpFrom (e / 2) result base
termination_by e
decreasing_by omega

def groupExp (x : FormObject) (exponent : Nat) : Stateful Nat FormObject := do
  let result ← identity x.form.D
  groupExpFrom fuel exponent result x

/-- The challenge, from both forms and the count. -/
def challenge (x₀ y : QuadraticForm) (T : Nat) : Py Nat := do
  let x₀ ← x₀.toBytes
  let y ← y.toBytes
  let count := (Python.toBytesLittle ((Python.bitLength T + 7) / 8) T).reverse
  return hashToInt sha256 (x₀ ++ y ++ count)

/-- `divmod(2 ** T, c)`. -/
def divideExponent (T c : Nat) : Py (Nat × Nat) :=
  if c = 0 then .error .zeroDivisionError else .ok (2 ^ T / c, 2 ^ T % c)

def computeWesolowskiProof (x₀ y : FormObject) (T : Nat) : Stateful Nat FormObject := do
  let c ← Eff.ofExcept (challenge sha256 x₀.form y.form T)
  let (q, _) ← Eff.ofExcept (divideExponent T c)
  groupExp fuel x₀ q

def verifyWesolowskiProof (x₀ y proof : FormObject) (T : Nat) : Stateful Nat Bool := do
  let c ← Eff.ofExcept (challenge sha256 x₀.form y.form T)
  let (_, r) ← Eff.ofExcept (divideExponent T c)
  let left ← groupExp fuel proof c
  let right ← groupExp fuel x₀ r
  let lhs ← groupMul fuel left right
  return lhs.ref == y.ref

def deserialize (data : Bytes) (D : Int) : Stateful Nat FormObject := do
  let form ← Eff.ofExcept (QuadraticForm.fromBytes fuel data D)
  makeObject form

def squarings : Nat → FormObject → Stateful Nat FormObject
  | 0, x => return x
  | T + 1, x => do
    let x ← classGroupSquare fuel x
    squarings T x

def vdfGenerate (oldOutput : Bytes) (T : Nat) (D : Int) : Stateful Nat (Bytes × Bytes) := do
  let x₀ ← deserialize fuel oldOutput D
  let x ← squarings fuel T x₀
  let output ← Eff.ofExcept x.form.toBytes
  let proof ← computeWesolowskiProof sha256 fuel x₀ x T
  let proofBytes ← Eff.ofExcept proof.form.toBytes
  return (output, proofBytes)

def vdfVerify (oldOutput newOutput proof : Bytes) (T : Nat) (D : Int) : Stateful Nat Bool := do
  let x₀ ← deserialize fuel oldOutput D
  let y ← deserialize fuel newOutput D
  let proof ← deserialize fuel proof D
  verifyWesolowskiProof sha256 fuel x₀ y proof T

end Vdf

section Composition

variable {D : Int} {q : QuadraticForm} {fuel : Nat}

/-- A reduced primitive form of discriminant `D`. -/
structure ReducedForm (D : Int) (q : QuadraticForm) : Prop where
  same : q.D = D
  discriminant : q.b * q.b - 4 * q.a * q.c = D
  primitive : isPrimitive q.a q.b q.c = true
  lower : -q.a < q.b
  upper : q.b ≤ q.a
  le : q.a ≤ q.c
  sign : q.a = q.c → 0 ≤ q.b

theorem ReducedForm.pos (h : ReducedForm D q) : 0 < q.a := by
  have hlower := h.lower
  have hupper := h.upper
  omega

theorem ReducedForm.isReduced (h : ReducedForm D q) : isReduced q = true := by
  refine decide_eq_true ⟨abs_le.mpr ⟨h.lower.le, h.upper⟩, h.le, ?_⟩
  rintro ⟨hac, hneg⟩
  exact absurd (h.sign hac) (not_le.mpr hneg)

theorem ReducedForm.new (h : ReducedForm D q) : QuadraticForm.new q.a q.b q.c q.D = .ok q := by
  have hdisc : ¬q.b * q.b - 4 * q.a * q.c ≠ q.D := by
    rw [h.same, not_not]
    exact h.discriminant
  rw [QuadraticForm.new, if_neg hdisc, h.primitive, if_neg (by decide)]

theorem reduceFrom_of_isReduced (h : isReduced q = true) : reduceFrom fuel q = .ok q := by
  cases fuel with
  | zero => rw [reduceFrom, if_pos h]
  | succ fuel => rw [reduceFrom, if_pos h]

theorem extendedGcd_zero (a : Int) : extendedGcd a 0 = (a, 1, 0) := by
  rw [extendedGcd, if_pos rfl]

theorem extendedGcd_self {n : Int} (hn : 0 < n) : extendedGcd n n = (n, 0, 1) := by
  rw [extendedGcd, if_neg hn.ne', Python.floorMod, Int.fmod_self, extendedGcd_zero]
  simp

theorem modinv_self {n : Int} (hn : 0 < n) :
    modinv n n = if n = 1 then .ok 0 else .error .valueError := by
  rw [modinv, extendedGcd_self hn]
  by_cases hone : n = 1
  · rw [if_pos hone, hone]
    rfl
  · rw [if_neg hone]
    exact if_pos hone

theorem ReducedForm.coefficient (h : ReducedForm D q) :
    Python.floorDiv? (q.b * q.b - q.D) (4 * q.a) = .ok q.c := by
  have hpos := h.pos
  have hdisc : q.b * q.b - q.D = q.c * (4 * q.a) := by
    have hd := h.discriminant
    rw [h.same]
    linarith
  rw [Python.floorDiv?, if_neg (by omega), hdisc, Python.floorDiv,
    Int.mul_fdiv_cancel _ (by omega)]

/-- Composed with itself a reduced form raises or is returned as it is, since the inverse is taken
of the quotient that it is taken by. -/
theorem ReducedForm.mul_self (h : ReducedForm D q) (hodd : D % 2 = 1) :
    q.mul fuel q = if q.b = q.a then .ok q else .error .valueError := by
  have hpos := h.pos
  have hk : Python.floorDiv (q.b + q.b) 2 = q.b := by
    rw [← Int.two_mul, Int.mul_comm, Python.floorDiv, Int.mul_fdiv_cancel _ (by decide)]
  have hg : ((Int.gcd (Int.gcd q.a q.a) q.b : Nat) : Int) = (Int.gcd q.a q.b : Nat) := by
    rw [Int.gcd_self, Int.natCast_natAbs, abs_of_pos hpos]
  have hdvd : ((Int.gcd q.a q.b : Nat) : Int) ∣ q.a := Int.gcd_dvd_left ..
  have hdvd' : ((Int.gcd q.a q.b : Nat) : Int) ∣ q.b := Int.gcd_dvd_right ..
  have hgpos : 0 < ((Int.gcd q.a q.b : Nat) : Int) := by
    have hgcd := Int.gcd_pos_of_ne_zero_left q.b hpos.ne'
    omega
  rw [QuadraticForm.mul]
  dsimp only
  rw [if_neg (not_not.mpr rfl), hk, hg]
  obtain ⟨g, hgdef⟩ : ∃ g : Int, g = (Int.gcd q.a q.b : Nat) := ⟨_, rfl⟩
  rw [← hgdef] at hdvd hdvd' hgpos ⊢
  obtain ⟨n, hn⟩ := hdvd
  have hnpos : 0 < n := by
    rw [hn] at hpos
    exact (pos_iff_pos_of_mul_pos hpos).mp hgpos
  have hquot : Python.floorDiv? q.a g = .ok n := by
    rw [Python.floorDiv?, if_neg hgpos.ne', hn, Python.floorDiv, Int.mul_comm,
      Int.mul_fdiv_cancel _ hgpos.ne']
  have hone : n = 1 ↔ q.b = q.a := by
    constructor
    · rintro rfl
      rw [mul_one] at hn
      obtain ⟨m, hm⟩ := hdvd'
      have hlower := h.lower
      have hupper := h.upper
      rw [hm, ← hn] at hlower hupper
      have hm₁ : m ≤ 1 := by
        by_contra hcon
        have hle := mul_le_mul_of_nonneg_left (not_le.mp hcon : 1 + 1 ≤ m) hpos.le
        linarith
      have hm₀ : 0 ≤ m := by
        by_contra hcon
        have hle := mul_le_mul_of_nonneg_left (Int.le_sub_one_of_lt (not_le.mp hcon)) hpos.le
        linarith
      obtain rfl | rfl : m = 0 ∨ m = 1 := by omega
      · have hdisc := h.discriminant
        rw [hm, mul_zero, mul_zero, zero_sub, mul_assoc] at hdisc
        omega
      · rw [hm, mul_one, hn]
    · intro hb
      have hsame : g = q.a := by
        rw [hgdef, hb, Int.gcd_self]
        omega
      rw [hsame] at hn
      exact (mul_eq_left₀ hpos.ne').mp hn.symm
  change (Python.floorDiv? q.a g >>= fun a₁ => _) = _
  rw [hquot, py_ok_bind, py_ok_bind, modinv_self hnpos]
  by_cases hb : q.b = q.a
  · rw [if_pos (hone.mpr hb), if_pos hb, hone.mpr hb]
    have hzero : floorMod? (Python.floorDiv (q.b - q.b) 2 * 0) 1 = .ok 0 := by
      rw [mul_zero]
      rfl
    rw [py_ok_bind, hzero, py_ok_bind]
    simp only [mul_zero, zero_mul, add_zero, mul_one]
    rw [h.coefficient, py_ok_bind, h.new, py_ok_bind]
    exact reduceFrom_of_isReduced h.isReduced
  · rw [if_neg fun hcon => hb (hone.mp hcon), if_neg hb]
    rfl

end Composition

section Objects

variable {sha256 : Bytes → Bytes} {D : Int} {q : QuadraticForm} {fuel T : Nat}

theorem keeps_makeObject (form : QuadraticForm) : Eff.Keeps (· ≤ ·) (makeObject form) :=
  fun next => Nat.le_succ next

theorem keeps_groupMul (x y : FormObject) : Eff.Keeps (· ≤ ·) (groupMul fuel x y) :=
  (Eff.Keeps.ofExcept _).bind fun _ => keeps_makeObject _

theorem keeps_groupExpFrom (e : Nat) (result base : FormObject) :
    Eff.Keeps (· ≤ ·) (groupExpFrom fuel e result base) := by
  induction e using Nat.strong_induction_on generalizing result base with
  | _ e ih =>
    rw [groupExpFrom]
    split
    · exact Eff.Keeps.pure result
    · have hresult : Eff.Keeps (· ≤ ·) (multiplyOdd fuel e result base) :=
        .ite (keeps_groupMul result base) (.pure result)
      refine hresult.bind fun result' => ?_
      exact (keeps_groupMul base base).bind fun base' => ih (e / 2) (by omega) result' base'

theorem keeps_groupExp (x : FormObject) (e : Nat) : Eff.Keeps (· ≤ ·) (groupExp fuel x e) :=
  ((Eff.Keeps.ofExcept _).bind fun _ => keeps_makeObject _).bind fun _ => keeps_groupExpFrom _ _ _

/-- A product is a new object. -/
theorem groupMul_ref {x y o : FormObject} {s s' : Nat} (h : groupMul fuel x y s = (.ok o, s')) :
    o.ref = s := by
  obtain ⟨form, -, h⟩ := Eff.ofExcept_bind_eq_ok.mp h
  obtain ⟨hform, -⟩ := Prod.mk.inj h
  rw [← Except.ok.inj hform]

/-- A proof is checked against an object that the product before it is not. -/
theorem verifyWesolowskiProof_ne_true {x₀ y proof : FormObject} {s : Nat} (hy : y.ref < s) :
    (verifyWesolowskiProof sha256 fuel x₀ y proof T s).1 ≠ .ok true := by
  intro h
  have hrun := Eff.eq_of_fst h
  obtain ⟨c, -, hrun⟩ := Eff.ofExcept_bind_eq_ok.mp hrun
  obtain ⟨⟨q, r⟩, -, hrun⟩ := Eff.ofExcept_bind_eq_ok.mp hrun
  obtain ⟨left, s₁, hleft, hrun⟩ := Eff.bind_eq_ok.mp hrun
  obtain ⟨right, s₂, hright, hrun⟩ := Eff.bind_eq_ok.mp hrun
  obtain ⟨lhs, s₃, hlhs, hrun⟩ := Eff.bind_eq_ok.mp hrun
  have hle₁ := (keeps_groupExp proof c).of_ok hleft
  have hle₂ := (keeps_groupExp x₀ r).of_ok hright
  have href := groupMul_ref hlhs
  have hsame : lhs.ref = y.ref := by
    obtain ⟨hbeq, -⟩ := Prod.mk.inj hrun
    exact beq_iff_eq.mp (Except.ok.inj hbeq)
  omega

theorem deserialize_ref {data : Bytes} {o : FormObject} {s s' : Nat}
    (h : deserialize fuel data D s = (.ok o, s')) : o.ref = s ∧ s' = s + 1 := by
  obtain ⟨form, -, h⟩ := Eff.ofExcept_bind_eq_ok.mp h
  obtain ⟨hform, hs⟩ := Prod.mk.inj h
  rw [← Except.ok.inj hform]
  exact ⟨rfl, hs.symm⟩

/-- No proof is verified. -/
theorem vdfVerify_ne_true (oldOutput newOutput proof : Bytes) (s : Nat) :
    (vdfVerify sha256 fuel oldOutput newOutput proof T D s).1 ≠ .ok true := by
  intro h
  have hrun := Eff.eq_of_fst h
  obtain ⟨x₀, s₁, hx₀, hrun⟩ := Eff.bind_eq_ok.mp hrun
  obtain ⟨y, s₂, hy, hrun⟩ := Eff.bind_eq_ok.mp hrun
  obtain ⟨π, s₃, hπ, hrun⟩ := Eff.bind_eq_ok.mp hrun
  obtain ⟨hyref, rfl⟩ := deserialize_ref hy
  obtain ⟨-, rfl⟩ := deserialize_ref hπ
  exact verifyWesolowskiProof_ne_true (by omega : y.ref < s₁ + 1 + 1)
    (congrArg Prod.fst hrun)

/-- The form `(1, 1, (1 - D) / 4)`. -/
def principalForm (D : Int) : QuadraticForm := ⟨1, 1, Python.floorDiv (1 - D) 4, D⟩

theorem reducedForm_principal (hneg : D < 0) (hmod : D % 8 = 1) :
    ReducedForm D (principalForm D) := by
  have hc : principalForm D = ⟨1, 1, (1 - D) / 4, D⟩ := by
    rw [principalForm, Python.floorDiv, Int.fdiv_eq_ediv_of_nonneg _ (by decide)]
  rw [hc]
  have hdiv : 4 * ((1 - D) / 4) = 1 - D := Int.mul_ediv_cancel' (by omega)
  refine ⟨rfl, ?_, ?_, ?_, le_rfl, ?_, fun _ => ?_⟩
  · dsimp only
    rw [mul_one, mul_one, hdiv]
    ring
  · rw [isPrimitive, decide_eq_true_eq]
    simp
  · dsimp only
    omega
  · dsimp only
    omega
  · dsimp only
    omega

theorem groupMul_principal (hneg : D < 0) (hmod : D % 8 = 1) {x y : FormObject}
    (hx : x.form = principalForm D) (hy : y.form = principalForm D) (s : Nat) :
    groupMul fuel x y s = (.ok ⟨principalForm D, s⟩, s + 1) := by
  have hmul : (principalForm D).mul fuel (principalForm D) = .ok (principalForm D) := by
    rw [(reducedForm_principal hneg hmod).mul_self (by omega)]
    exact if_pos rfl
  rw [groupMul, hx, hy, hmul]
  rfl

theorem groupExpFrom_principal (hneg : D < 0) (hmod : D % 8 = 1) (e : Nat)
    {result base : FormObject} (hresult : result.form = principalForm D)
    (hbase : base.form = principalForm D) (s : Nat) :
    ∃ o s', groupExpFrom fuel e result base s = (.ok o, s') ∧ o.form = principalForm D := by
  induction e using Nat.strong_induction_on generalizing result base s with
  | _ e ih =>
    rw [groupExpFrom]
    split
    · exact ⟨result, s, rfl, hresult⟩
    · obtain ⟨result', s₁, hstep, hresult'⟩ : ∃ o s₁,
          multiplyOdd fuel e result base s = (.ok o, s₁) ∧ o.form = principalForm D := by
        rw [multiplyOdd]
        split
        · exact ⟨_, _, groupMul_principal hneg hmod hresult hbase s, rfl⟩
        · exact ⟨result, s, rfl, hresult⟩
      rw [Eff.bind_of_ok hstep, Eff.bind_of_ok (groupMul_principal hneg hmod hbase hbase s₁)]
      exact ih (e / 2) (by omega) hresult' rfl _

/-- A power of the principal form is the principal form. -/
theorem groupExp_principal (hneg : D < 0) (hmod : D % 8 = 1) (e : Nat) {x : FormObject}
    (hx : x.form = principalForm D) (s : Nat) :
    ∃ o s', groupExp fuel x e s = (.ok o, s') ∧ o.form = principalForm D := by
  have hnew : QuadraticForm.new 1 1 (Python.floorDiv (1 - D) 4) D = .ok (principalForm D) :=
    (reducedForm_principal hneg hmod).new
  have hidentity : identity x.form.D s = (.ok ⟨principalForm D, s⟩, s + 1) := by
    rw [hx, identity]
    change (Eff.ofExcept (QuadraticForm.new 1 1 (Python.floorDiv (1 - D) 4) D) >>= makeObject) s = _
    rw [hnew]
    rfl
  rw [groupExp, Eff.bind_of_ok hidentity]
  exact groupExpFrom_principal hneg hmod e rfl hx _

theorem toBytes_principal : (principalForm (-7)).toBytes = .ok [0, 1, 0, 1] := by decide

theorem fromBytes_principal : QuadraticForm.fromBytes fuel [0, 1, 0, 1] (-7) =
    .ok (principalForm (-7)) := by
  have hnew : QuadraticForm.new 1 1 2 (-7) = .ok (principalForm (-7)) := by decide
  have hone : Python.fromBytesSigned [1, 0] = 1 := by decide
  have hc : Python.floorDiv? (1 * 1 - -7) (4 * 1) = .ok 2 := by decide
  rw [QuadraticForm.fromBytes]
  change (Python.floorDiv? (Python.fromBytesSigned [1, 0] * Python.fromBytesSigned [1, 0] - -7)
    (4 * Python.fromBytesSigned [1, 0]) >>= fun c =>
      QuadraticForm.new (Python.fromBytesSigned [1, 0]) (Python.fromBytesSigned [1, 0]) c (-7) >>=
        reduceFrom fuel) = _
  rw [hone, hc, py_ok_bind, hnew, py_ok_bind]
  exact reduceFrom_of_isReduced (by decide)

/-- The forms that the challenge of one squaring is made from, with the count. -/
def squaringMessage : Bytes := [0, 1, 0, 1] ++ [0, 1, 0, 1] ++ [1]

/-- From the principal form an output and a proof are generated. -/
theorem vdfGenerate_principal (hsha : hashToInt sha256 squaringMessage ≠ 0) :
    ∃ s, vdfGenerate sha256 fuel [0, 1, 0, 1] 1 (-7) 0 = (.ok ([0, 1, 0, 1], [0, 1, 0, 1]), s) := by
  have hread : deserialize fuel [0, 1, 0, 1] (-7) 0 = (.ok ⟨principalForm (-7), 0⟩, 1) := by
    rw [deserialize, fromBytes_principal]
    rfl
  have hsquare : squarings fuel 1 ⟨principalForm (-7), 0⟩ 1 =
      (.ok ⟨principalForm (-7), 1⟩, 2) := by
    have hmul : groupMul fuel ⟨principalForm (-7), 0⟩ ⟨principalForm (-7), 0⟩ 1 =
        (.ok ⟨principalForm (-7), 1⟩, 2) :=
      groupMul_principal (by decide) (by decide) rfl rfl 1
    rw [squarings, classGroupSquare, Eff.bind_of_ok hmul]
    rfl
  have hchallenge : challenge sha256 (principalForm (-7)) (principalForm (-7)) 1 =
      .ok (hashToInt sha256 squaringMessage) := by
    rw [challenge, toBytes_principal]
    rfl
  have hpower : ∃ o s', groupExp fuel ⟨principalForm (-7), 0⟩
      (2 ^ 1 / hashToInt sha256 squaringMessage) 2 = (.ok o, s') ∧ o.form = principalForm (-7) :=
    groupExp_principal (by decide) (by decide) _ rfl 2
  obtain ⟨π, s, hproof, hπ⟩ := hpower
  refine ⟨s, ?_⟩
  rw [vdfGenerate, Eff.bind_of_ok hread, Eff.bind_of_ok hsquare]
  dsimp only
  rw [toBytes_principal, Eff.ofExcept_ok_bind, computeWesolowskiProof, hchallenge,
    Eff.ofExcept_ok_bind, divideExponent, if_neg hsha, Eff.ofExcept_ok_bind]
  dsimp only
  rw [Eff.bind_of_ok hproof, hπ, toBytes_principal]
  rfl

end Objects

section Property

/-- Composition is a commutative group operation on the reduced forms of discriminant `D`, and what
is generated from one of them is verified. -/
structure ClassGroupWorks (sha256 : Bytes → Bytes) (D : Int) : Prop where
  composes : ∀ f g, ReducedForm D f → ReducedForm D g →
    ∃ fuel h, f.mul fuel g = .ok h ∧ ReducedForm D h
  commutes : ∀ f g fuel h, ReducedForm D f → ReducedForm D g → f.mul fuel g = .ok h →
    ∃ fuel', g.mul fuel' f = .ok h
  associates : ∀ f g h fuel fg fgh, ReducedForm D f → ReducedForm D g → ReducedForm D h →
    f.mul fuel g = .ok fg → fg.mul fuel h = .ok fgh →
      ∃ fuel' gh, g.mul fuel' h = .ok gh ∧ f.mul fuel' gh = .ok fgh
  identity : ∀ f, ReducedForm D f → ∃ fuel, (principalForm D).mul fuel f = .ok f
  verifies : ∀ f, ReducedForm D f → ∀ data, f.toBytes = .ok data → ∀ T, 1 ≤ T →
    ∀ fuel output proof s s', vdfGenerate sha256 fuel data T D s = (.ok (output, proof), s') →
      ∃ fuel', (vdfVerify sha256 fuel' data output proof T D s').1 = .ok true

variable {sha256 : Bytes → Bytes} {D : Int}

/-- The form `(2, 1, (1 - D) / 8)`. -/
theorem reducedForm_two (hlt : D ≤ -15) (hmod : D % 8 = 1) :
    ReducedForm D ⟨2, 1, (1 - D) / 8, D⟩ := by
  have hdiv : 8 * ((1 - D) / 8) = 1 - D := Int.mul_ediv_cancel' (by omega)
  refine ⟨rfl, ?_, ?_, ?_, ?_, ?_, fun _ => ?_⟩
  · dsimp only
    rw [show (4 : Int) * 2 = 8 from rfl, hdiv]
    ring
  · rw [isPrimitive, decide_eq_true_eq]
    simp
  · dsimp only
    omega
  · dsimp only
    omega
  · dsimp only
    omega
  · dsimp only
    omega

/-- For no discriminant do composition and the proofs work: a reduced form is squared just if its
first two coefficients are equal, and no proof is ever verified. -/
theorem class_group_never_works (hneg : D < 0) (hmod : D % 8 = 1)
    (hsha : hashToInt sha256 squaringMessage ≠ 0) :
    ¬ClassGroupWorks sha256 D ∧
      (∀ q, ReducedForm D q → ((∃ fuel h, q.mul fuel q = .ok h) ↔ q.b = q.a)) ∧
      ∀ fuel oldOutput newOutput proof T s,
        (vdfVerify sha256 fuel oldOutput newOutput proof T D s).1 ≠ .ok true := by
  have hsquare : ∀ q, ReducedForm D q → ((∃ fuel h, q.mul fuel q = .ok h) ↔ q.b = q.a) := by
    intro q hq
    constructor
    · rintro ⟨fuel, h, hmul⟩
      rw [hq.mul_self (by omega)] at hmul
      by_contra hb
      rw [if_neg hb] at hmul
      cases hmul
    · intro hb
      exact ⟨0, q, by rw [hq.mul_self (by omega), if_pos hb]⟩
  refine ⟨fun hworks => ?_, hsquare, fun fuel x y π T s => vdfVerify_ne_true x y π s⟩
  by_cases hseven : D = -7
  · subst hseven
    have hgenerate : ∃ s, vdfGenerate sha256 0 [0, 1, 0, 1] 1 (-7) 0 = _ :=
      vdfGenerate_principal hsha
    obtain ⟨s, hgenerate⟩ := hgenerate
    obtain ⟨fuel, hverify⟩ := hworks.verifies _ (reducedForm_principal hneg hmod) _
      toBytes_principal 1 le_rfl _ _ _ _ _ hgenerate
    exact vdfVerify_ne_true _ _ _ _ hverify
  · have hreduced := reducedForm_two (by omega) hmod
    obtain ⟨fuel, h, hmul, -⟩ := hworks.composes _ _ hreduced hreduced
    have hb : (1 : Int) = 2 := (hsquare _ hreduced).mp ⟨fuel, h, hmul⟩
    exact absurd hb (by decide)

/-- The digest of the message of one squaring. -/
def squaringDigest : Bytes := [169, 54, 104, 213, 60, 164, 129, 15, 131, 143, 42, 10, 250, 196, 138,
  123, 133, 223, 140, 214, 155, 188, 140, 193, 116, 2, 103, 251, 154, 242, 12, 86]

theorem sample_class_group_fails : ¬ClassGroupWorks (fun _ => squaringDigest) (-15) := by
  have hdigest : hashToInt (fun _ => squaringDigest) squaringMessage ≠ 0 := by decide
  exact (class_group_never_works (by decide) (by decide) hdigest).1

/-- The form `(2, 1, 2)` cannot be squared. -/
theorem form_of_two_is_not_squared : ReducedForm (-15) ⟨2, 1, 2, -15⟩ ∧
    ∀ fuel h, (⟨2, 1, 2, -15⟩ : QuadraticForm).mul fuel ⟨2, 1, 2, -15⟩ ≠ .ok h := by
  have hreduced : ReducedForm (-15) ⟨2, 1, 2, -15⟩ := reducedForm_two le_rfl (by decide)
  refine ⟨hreduced, fun fuel h hmul => ?_⟩
  rw [hreduced.mul_self (by decide)] at hmul
  cases hmul

end Property

end Astreum
