import Mathlib.Algebra.Order.Ring.Int
import Mathlib.Data.Int.ConditionallyCompleteOrder
import Mathlib.Logic.Function.Iterate
import Mathlib.Tactic.Ring
import Mathlib.Tactic.Linarith

namespace Climb

variable {base : Int} {own : Int → Int} {x y : Int} {n k : Nat}

variable (base own) in
/-- A round of a fee that pays for a base and for itself. -/
def raise (fee : Int) : Int := max fee (base + own fee)

variable (base own) in
/-- The fee after so many rounds. -/
def after (n : Nat) : Int := (raise base own)^[n] base

variable (base own) in
/-- The fee pays for the base and for itself. -/
def Settled (fee : Int) : Prop := base + own fee ≤ fee

@[simp] theorem after_zero : after base own 0 = base := rfl

theorem after_succ : after base own (n + 1) = raise base own (after base own n) :=
  Function.iterate_succ_apply' _ _ _

theorem le_raise : x ≤ raise base own x := le_max_left _ _

theorem raise_of_settled (h : Settled base own x) : raise base own x = x := max_eq_left h

theorem raise_of_not_settled (h : ¬Settled base own x) : raise base own x = base + own x :=
  max_eq_right (not_le.mp h).le

/-- The rounds never lower the fee. -/
theorem after_mono : Monotone (after base own) :=
  monotone_nat_of_le_succ fun _ => after_succ ▸ le_raise

theorem base_le_after : base ≤ after base own n := after_mono (Nat.zero_le n)

/-- A fee that is settled stays. -/
theorem after_of_settled (h : Settled base own (after base own k)) (hk : k ≤ n) :
    after base own n = after base own k := by
  induction n, hk using Nat.le_induction with
  | base => rfl
  | succ n hk ih => rw [after_succ, ih, raise_of_settled h]

theorem settled_of_settled (h : Settled base own (after base own k)) (hk : k ≤ n) :
    Settled base own (after base own n) := by
  rw [after_of_settled h hk]
  exact h

theorem after_succ_of_not_settled (h : ¬Settled base own (after base own n)) :
    after base own (n + 1) = base + own (after base own n) := by
  rw [after_succ, raise_of_not_settled h]

variable {P : Int → Prop}

variable (base own P) in
/-- From the base on a greater fee costs no less, where the greater one is in `P`. -/
def Rising : Prop := ∀ x y, base ≤ x → x ≤ y → P y → own x ≤ own y

/-- Where a greater fee costs no less, no round takes more than the fee pays for. -/
theorem after_le (hown : Rising base own P) (hbase : 0 ≤ own base)
    (hP : ∀ k ≤ n, P (after base own k)) :
    after base own n ≤ base + own (after base own n) := by
  induction n with
  | zero => rw [after_zero]; omega
  | succ n ih =>
    have hbefore := ih fun k hk => hP k (by omega)
    have hraise : after base own (n + 1) = base + own (after base own n) := by
      rw [after_succ]
      exact max_eq_right hbefore
    have hle : own (after base own n) ≤ own (after base own (n + 1)) :=
      hown _ _ base_le_after (after_mono n.le_succ) (hP _ le_rfl)
    omega

/-- What is added to the base is added to the fee, and to what it costs for itself. -/
theorem after_add_le {extra : Int} (hown : Rising base own P) (hextra : 0 ≤ extra)
    (hP : ∀ k ≤ n, P (after (base + extra) own k)) :
    after base own n + extra ≤ after (base + extra) own n := by
  induction n with
  | zero => exact le_rfl
  | succ n ih =>
    have hbefore := ih fun k hk => hP k (by omega)
    have hle : own (after base own n) ≤ own (after (base + extra) own n) :=
      hown _ _ base_le_after (by omega) (hP n (by omega))
    rw [after_succ, after_succ, raise, raise]
    omega

section Settling

variable {price : Nat → Int} {other : Nat} {length : Int → Nat}

/-- A price that rises with the size, and of which a multiple of the size costs no more than the
multiple of. -/
structure Price (price : Nat → Int) : Prop where
  mono : ∀ {a b}, a ≤ b → price a ≤ price b
  scale : ∀ {m : Nat} a, 1 ≤ m → price (m * a) ≤ m * price a

/-- The length of a number in places of 256 values, one of which is halved by the sign. -/
structure Length (length : Int → Nat) : Prop where
  pos : ∀ n, 1 ≤ length n
  le_iff : ∀ {n : Int} {k : Nat}, 0 ≤ n → 1 ≤ k → (length n ≤ k ↔ 2 * n < 256 ^ k)

theorem Length.lt (hlength : Length length) (hx : 0 ≤ x) : 2 * x < 256 ^ length x :=
  (hlength.le_iff hx (hlength.pos x)).mp le_rfl

/-- A multiple of a number is no longer than the number and its factor. -/
theorem Length.mul_le (hlength : Length length) (hx : 0 ≤ x) {m : Nat} (hm : m ≤ 256 ^ k)
    (hy : 0 ≤ y) (hxy : y ≤ m * x) : length y ≤ length x + k := by
  refine (hlength.le_iff hy (by have := hlength.pos x; omega)).mpr ?_
  have hlt := hlength.lt hx
  have hm' : (m : Int) ≤ 256 ^ k := by exact_mod_cast hm
  have hpow : (0 : Int) < 256 ^ k := by positivity
  calc 2 * y ≤ m * (2 * x) := by linarith
    _ ≤ 256 ^ k * (2 * x) := Int.mul_le_mul_of_nonneg_right hm' (by omega)
    _ < 256 ^ k * 256 ^ length x := Int.mul_lt_mul_of_pos_left hlt hpow
    _ = 256 ^ (length x + k) := by rw [pow_add, mul_comm]

/-- What a fee costs for itself: the price of the size of everything else, and of its own length
where it is counted. -/
structure Charges (own : Int → Int) (price : Nat → Int) (length : Int → Nat) (other : Nat)
    (counted : Int → Prop) : Prop where
  whole : ∀ x, counted x → own x = price (other + length x)
  without : ∀ x, ¬counted x → own x = price other

variable {counted : Int → Prop} {x' y' : Int}

theorem Charges.least (hown : Charges own price length other counted) (hprice : Price price)
    (x : Int) : price other ≤ own x := by
  by_cases hx : counted x
  · rw [hown.whole x hx]
    exact hprice.mono (Nat.le_add_right _ _)
  · exact (hown.without x hx).ge

/-- The price of a fee is that of some size, and of no more than with its length. -/
theorem Charges.exists_size (hown : Charges own price length other counted) (x : Int) :
    ∃ s, other ≤ s ∧ s ≤ other + length x ∧ own x = price s := by
  by_cases hx : counted x
  · exact ⟨_, Nat.le_add_right _ _, le_rfl, hown.whole x hx⟩
  · exact ⟨_, le_rfl, Nat.le_add_right _ _, hown.without x hx⟩

/-- A fee that came from a round is counted where the next round raises it. -/
theorem Charges.counted_of_lt (hown : Charges own price length other counted) (hprice : Price price)
    (hy : y = base + own x) (h : y < base + own y) : counted y := by
  by_contra hnot
  have hleast := hown.least hprice x
  rw [hown.without y hnot] at h
  omega

theorem Charges.longer (hown : Charges own price length other counted) (hprice : Price price)
    (hx : counted x) (hy : counted y) (h : own x < own y) : length x < length y := by
  by_contra hle
  rw [hown.whole x hx, hown.whole y hy] at h
  have hprices := hprice.mono (show other + length y ≤ other + length x by omega)
  omega

/-- Where the size grows by a factor, the fee grows by no more. -/
theorem Charges.grow (hown : Charges own price length other counted) (hprice : Price price)
    (hbase : 0 ≤ base) {s m : Nat} (hm : 1 ≤ m) (hs : own x = price s)
    (hle : other + length y ≤ m * s) : base + own y ≤ m * (base + own x) := by
  obtain ⟨s', -, hs', hy⟩ := hown.exists_size y
  have hscaled : price s' ≤ m * price s := (hprice.mono (hs'.trans hle)).trans (hprice.scale s hm)
  have hm' : (1 : Int) ≤ m := by exact_mod_cast hm
  have hbases : 1 * base ≤ m * base := Int.mul_le_mul_of_nonneg_right hm' hbase
  rw [hs, hy, mul_add]
  omega

/-- Four rounds settle a fee: the second makes it longer by no more than its size, the third by one
place at most, and the fourth by none. -/
theorem exists_settled (hown : Charges own price length other counted) (hprice : Price price)
    (hlength : Length length) (hbase : 0 ≤ base) (hother : 1 ≤ other) :
    ∃ k ≤ 4, Settled base own (after base own k) := by
  by_contra hcon
  have hopen : ∀ k ≤ 4, ¬Settled base own (after base own k) := fun k hk h => hcon ⟨k, hk, h⟩
  have hnext : ∀ k ≤ 4, after base own (k + 1) = base + own (after base own k) :=
    fun k hk => after_succ_of_not_settled (hopen k hk)
  have hrise : ∀ k ≤ 4, after base own k < base + own (after base own k) :=
    fun k hk => not_le.mp (hopen k hk)
  have hpos : ∀ k, 0 ≤ after base own k := fun k => hbase.trans base_le_after
  obtain ⟨fee₁, h₁⟩ : ∃ fee, after base own 1 = fee := ⟨_, rfl⟩
  obtain ⟨fee₂, h₂⟩ : ∃ fee, after base own 2 = fee := ⟨_, rfl⟩
  obtain ⟨fee₃, h₃⟩ : ∃ fee, after base own 3 = fee := ⟨_, rfl⟩
  obtain ⟨fee₄, h₄⟩ : ∃ fee, after base own 4 = fee := ⟨_, rfl⟩
  have hone : fee₁ = base + own base := h₁ ▸ hnext 0 (by omega)
  have htwo : fee₂ = base + own fee₁ := h₂ ▸ h₁ ▸ hnext 1 (by omega)
  have hthree : fee₃ = base + own fee₂ := h₃ ▸ h₂ ▸ hnext 2 (by omega)
  have hfour : fee₄ = base + own fee₃ := h₄ ▸ h₃ ▸ hnext 3 (by omega)
  have hrise₁ : fee₁ < base + own fee₁ := h₁ ▸ hrise 1 (by omega)
  have hrise₂ : fee₂ < base + own fee₂ := h₂ ▸ hrise 2 (by omega)
  have hrise₃ : fee₃ < base + own fee₃ := h₃ ▸ hrise 3 (by omega)
  have hrise₄ : fee₄ < base + own fee₄ := h₄ ▸ hrise 4 (by omega)
  have hcounted₁ : counted fee₁ := hown.counted_of_lt hprice hone hrise₁
  have hcounted₂ : counted fee₂ := hown.counted_of_lt hprice htwo hrise₂
  have hcounted₃ : counted fee₃ := hown.counted_of_lt hprice hthree hrise₃
  have hcounted₄ : counted fee₄ := hown.counted_of_lt hprice hfour hrise₄
  have hlonger₃ : length fee₂ < length fee₃ :=
    hown.longer hprice hcounted₂ hcounted₃ (by omega)
  have hlonger₄ : length fee₃ < length fee₄ :=
    hown.longer hprice hcounted₃ hcounted₄ (by omega)
  have hpos₁ : 0 ≤ fee₁ := h₁ ▸ hpos 1
  have hpos₂ : 0 ≤ fee₂ := h₂ ▸ hpos 2
  have hpos₃ : 0 ≤ fee₃ := h₃ ▸ hpos 3
  have hpos₄ : 0 ≤ fee₄ := h₄ ▸ hpos 4
  have hgrow₂ : fee₂ ≤ (other + length fee₁ : Nat) * fee₁ := by
    obtain ⟨s, hs, -, hprice₀⟩ := hown.exists_size base
    rw [htwo, hone]
    refine hown.grow hprice hbase (by omega) hprice₀ ?_
    exact Nat.le_mul_of_pos_right _ (by omega)
  have hlength₂ : length fee₂ ≤ length fee₁ + (other + length fee₁) :=
    hlength.mul_le hpos₁ (Nat.lt_pow_self (by decide)).le hpos₂ hgrow₂
  have hgrow₃ : fee₃ ≤ (2 : Nat) * fee₂ := by
    rw [hthree, htwo]
    refine hown.grow hprice hbase (by omega) (hown.whole _ hcounted₁) ?_
    rw [← htwo]
    omega
  have hlength₃ : length fee₃ ≤ length fee₂ + 1 :=
    hlength.mul_le hpos₂ (by decide) hpos₃ hgrow₃
  have hgrow₄ : fee₄ ≤ (2 : Nat) * fee₃ := by
    rw [hfour, hthree]
    refine hown.grow hprice hbase (by omega) (hown.whole _ hcounted₂) ?_
    rw [← hthree]
    omega
  have hfactor : fee₄ ≤ (4 : Nat) * fee₂ := by omega
  have hlength₄ : length fee₄ ≤ length fee₂ + 1 :=
    hlength.mul_le hpos₂ (by decide) hpos₄ hfactor
  omega

end Settling

end Climb
