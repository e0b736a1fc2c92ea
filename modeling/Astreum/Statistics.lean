import Astreum.BlockCodec
import Mathlib.Algebra.BigOperators.Intervals

namespace Astreum

open Finset

/-- The statistics of the blocks from height 0 on, of which each adds its own amounts. -/
def statisticsAt (fee stake claims : Nat → Int) : Nat → List Window
  | 0 => updateStatistics 0 [] (fee 0) (stake 0) (claims 0)
  | h + 1 => updateStatistics (h + 1 : Nat) (statisticsAt fee stake claims h) (fee (h + 1))
      (stake (h + 1)) (claims (h + 1))

/-- The blocks of a range up to a height: the full window that ended last, and the one under way. -/
def windowSums (fee stake claims : Nat → Int) (h range : Nat) : Window :=
  let start := h / range * range
  ⟨∑ k ∈ Ico (start - range) start, fee k, ∑ k ∈ Ico (start - range) start, stake k,
    ∑ k ∈ Ico start (h + 1), fee k, ∑ k ∈ Ico start (h + 1), stake k,
    ∑ k ∈ Ico (start - range) start, claims k, ∑ k ∈ Ico start (h + 1), claims k⟩

/-- All blocks up to a height, as the first entry has them. -/
def totalSums (fee stake claims : Nat → Int) (h : Nat) : Window :=
  ⟨∑ k ∈ range (h + 1), fee k, ∑ k ∈ range (h + 1), stake k,
    ∑ k ∈ range (h + 1), claims k, 0, 0, 0⟩

section Sums

variable {fee stake claims : Nat → Int} {h i : Nat}

theorem lt_bitLength_iff : i < Python.bitLength h ↔ 2 ^ i ≤ h := by
  rw [Python.bitLength]
  split
  · rename_i hzero
    have hh : h = 0 := by exact_mod_cast hzero
    subst hh
    simp
  · rename_i hne
    have hh : h ≠ 0 := by
      rintro rfl
      exact hne rfl
    rw [Int.natAbs_natCast, Nat.lt_succ_iff, Nat.le_log2 hh]

/-- A window that does not end at a block grows by it. -/
theorem windowSums_grow (hrange : (h + 1) % 2 ^ i ≠ 0) :
    windowSums fee stake claims (h + 1) (2 ^ i) =
      { windowSums fee stake claims h (2 ^ i) with
        currFee := (windowSums fee stake claims h (2 ^ i)).currFee + fee (h + 1)
        currStake := (windowSums fee stake claims h (2 ^ i)).currStake + stake (h + 1)
        currClaims := (windowSums fee stake claims h (2 ^ i)).currClaims + claims (h + 1) } := by
  have hdiv : (h + 1) / 2 ^ i = h / 2 ^ i :=
    Nat.succ_div_of_mod_ne_zero hrange
  have hstart : h / 2 ^ i * 2 ^ i ≤ h + 1 := (Nat.div_mul_le_self _ _).trans (Nat.le_succ h)
  simp only [windowSums, hdiv, sum_Ico_succ_top hstart]

/-- A window that ends at a block becomes the one before, and the next one starts with it. -/
theorem windowSums_rotate (hrange : (h + 1) % 2 ^ i = 0) :
    windowSums fee stake claims (h + 1) (2 ^ i) =
      ⟨∑ k ∈ Ico (h + 1 - 2 ^ i) (h + 1), fee k,
        ∑ k ∈ Ico (h + 1 - 2 ^ i) (h + 1), stake k,
        fee (h + 1), stake (h + 1), ∑ k ∈ Ico (h + 1 - 2 ^ i) (h + 1), claims k,
        claims (h + 1)⟩ := by
  have hstart : (h + 1) / 2 ^ i * 2 ^ i = h + 1 :=
      Nat.div_mul_cancel (Nat.dvd_of_mod_eq_zero hrange)
  simp only [windowSums, hstart, Nat.Ico_succ_singleton, sum_singleton]

theorem start_before (hrange : (h + 1) % 2 ^ i = 0) : h / 2 ^ i * 2 ^ i = h + 1 - 2 ^ i := by
  have hpos : 0 < 2 ^ i := Nat.two_pow_pos i
  obtain ⟨q, hq⟩ := Nat.dvd_of_mod_eq_zero hrange
  obtain ⟨q, rfl⟩ : ∃ q', q = q' + 1 := by
    refine ⟨q - 1, ?_⟩
    rcases q with - | q
    · omega
    · rfl
  have hmul : 2 ^ i * (q + 1) = 2 ^ i * q + 2 ^ i := Nat.mul_succ _ _
  have hdiv : h / 2 ^ i = q := by
    rw [Nat.div_eq_iff hpos, Nat.mul_comm q]
    omega
  rw [hdiv, Nat.mul_comm]
  omega

/-- The window of a range that a block reaches first is the whole chain before it. -/
theorem windowAfter_born {prev : List Window} {total : Window} (hrange : h + 1 = 2 ^ i)
    (hhead : prev.head? = some total) (htotal : total = totalSums fee stake claims h)
    (hnew : prev[i + 1]? = none) :
    windowAfter (h + 1 : Nat) prev (fee (h + 1)) (stake (h + 1)) (claims (h + 1)) i =
      windowSums fee stake claims (h + 1) (2 ^ i) := by
  obtain ⟨rest, rfl⟩ := List.head?_eq_some_iff.mp hhead
  have hheight : ((h + 1 : Nat) : Int) = 2 ^ i := by exact_mod_cast hrange
  have hmod : ((h + 1 : Nat) : Int) % 2 ^ i = 0 := by rw [hheight, Int.emod_self]
  have hbefore : windowBefore (h + 1 : Nat) (total :: rest) i =
      (⟨total.prevFee, total.prevStake, 0, 0, total.currFee, 0⟩, false) := by
    simp only [windowBefore, hnew]
    rw [if_pos hheight]
  have hpos : (0 : Int) < (h + 1 : Nat) := by exact_mod_cast Nat.succ_pos h
  have hstart : h + 1 - 2 ^ i = 0 := by omega
  simp only [windowAfter, hbefore]
  rw [if_pos ⟨hmod, hpos⟩, windowSums_rotate (by rw [hrange, Nat.mod_self]), hstart, htotal]
  simp [totalSums]

theorem windowAfter_held {prev : List Window}
    (hheld : prev[i + 1]? = some (windowSums fee stake claims h (2 ^ i))) :
    windowAfter (h + 1 : Nat) prev (fee (h + 1)) (stake (h + 1)) (claims (h + 1)) i =
      windowSums fee stake claims (h + 1) (2 ^ i) := by
  have hbefore : windowBefore (h + 1 : Nat) prev i =
      (windowSums fee stake claims h (2 ^ i), true) := by
    simp only [windowBefore, hheld]
  have hpos : (0 : Int) < (h + 1 : Nat) := by exact_mod_cast Nat.succ_pos h
  have hmod : ((h + 1 : Nat) : Int) % 2 ^ i = 0 ↔ (h + 1) % 2 ^ i = 0 := by
    exact_mod_cast Iff.rfl
  simp only [windowAfter, hbefore]
  by_cases hrange : (h + 1) % 2 ^ i = 0
  · rw [if_pos ⟨hmod.mpr hrange, hpos⟩, windowSums_rotate hrange]
    simp only [windowSums, start_before hrange, if_true]
  · rw [if_neg fun hboth => hrange (hmod.mp hboth.1), windowSums_grow hrange]

/-- After every block, the first entry sums up the whole chain, and there is an entry for every
power of two up to the height, with the sums of the window under way and of the one before. -/
theorem statistics_are_exact (fee stake claims : Nat → Int) (h : Nat) :
    (statisticsAt fee stake claims h).length = 1 + Python.bitLength h ∧
      (statisticsAt fee stake claims h).head? = some (totalSums fee stake claims h) ∧
      ∀ i, 2 ^ i ≤ h → (statisticsAt fee stake claims h)[i + 1]? =
        some (windowSums fee stake claims h (2 ^ i)) := by
  induction h with
  | zero =>
    refine ⟨rfl, ?_, fun i hi => absurd hi (by simp)⟩
    simp [statisticsAt, updateStatistics, totalSums]
  | succ h ih =>
    obtain ⟨hlength, hhead, hwindows⟩ := ih
    have hpos : (0 : Int) < (h + 1 : Nat) := by exact_mod_cast Nat.succ_pos h
    rw [statisticsAt, updateStatistics.eq_def]
    simp only [if_pos hpos]
    refine ⟨?_, ?_, fun i hi => ?_⟩
    · rw [List.length_cons, List.length_map, List.length_range]
      exact Nat.add_comm _ _
    · obtain ⟨rest, hrest⟩ := List.head?_eq_some_iff.mp hhead
      rw [hrest]
      simp [totalSums, sum_range_succ _ (h + 1)]
    · have hlt : i < Python.bitLength ((h + 1 : Nat) : Int) := lt_bitLength_iff.mpr hi
      rw [List.getElem?_cons_succ, List.getElem?_map, List.getElem?_range hlt, Option.map_some]
      refine congrArg some ?_
      by_cases hold : 2 ^ i ≤ h
      · exact windowAfter_held (hwindows i hold)
      · have hnew : (statisticsAt fee stake claims h)[i + 1]? = none := by
          rw [List.getElem?_eq_none_iff, hlength]
          have hnot : ¬i < Python.bitLength h := fun hlt => hold (lt_bitLength_iff.mp hlt)
          omega
        exact windowAfter_born (by omega) hhead rfl hnew

end Sums

end Astreum
