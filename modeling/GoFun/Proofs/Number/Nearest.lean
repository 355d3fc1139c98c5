import Mathlib.Algebra.Order.Field.Power
import Mathlib.Algebra.Order.Ring.Rat
import Mathlib.Data.Rat.Cast.Lemmas
import Mathlib.Tactic.FieldSimp
import Mathlib.Tactic.Linarith
import Mathlib.Tactic.NormNum
import Mathlib.Tactic.Positivity
import Mathlib.Tactic.Ring
import GoFun.Number.Shortest
import GoFun.Number.Reading

/-!
# Rounding to a double

The numbers that are read as a double are those between the points half way to its neighbours. The
points themselves belong to the double when its significand is even.
-/
namespace GoFun.Number

variable {num den : ℕ} {k : ℤ}

theorem zpow_eq_div {b : ℚ} (hb : b ≠ 0) (k : ℤ) : b ^ k = b ^ k.toNat / b ^ (-k).toNat := by
  rw [← zpow_natCast, ← zpow_natCast, ← zpow_sub₀ hb]
  congr 1
  omega

theorem div_lt_zpow_iff (hden : 0 < den) {b : ℕ} (hb : 0 < b) (k : ℤ) :
    (num : ℚ) / den < (b : ℚ) ^ k ↔ num * b ^ (-k).toNat < den * b ^ k.toNat := by
  have hb' : (0 : ℚ) < b := by exact_mod_cast hb
  have hden' : (0 : ℚ) < den := by exact_mod_cast hden
  rw [zpow_eq_div hb'.ne', div_lt_div_iff₀ hden' (by positivity), mul_comm ((b : ℚ) ^ k.toNat)]
  exact_mod_cast Iff.rfl

theorem zpow_two_lt_iff {j : ℤ} : (2 : ℚ) ^ j < 2 ^ k ↔ j < k :=
  zpow_lt_zpow_iff_right₀ (by norm_num)

theorem floorLog2_spec (hnum : 0 < num) (hden : 0 < den) :
    (2 : ℚ) ^ floorLog2 num den ≤ num / den ∧ (num : ℚ) / den < 2 ^ (floorLog2 num den + 1) := by
  have hn : (2 : ℚ) ^ num.log2 ≤ num ∧ (num : ℚ) < 2 ^ (num.log2 + 1) :=
    ⟨by exact_mod_cast Nat.log2_self_le hnum.ne', by exact_mod_cast Nat.lt_log2_self⟩
  have hd : (2 : ℚ) ^ den.log2 ≤ den ∧ (den : ℚ) < 2 ^ (den.log2 + 1) :=
    ⟨by exact_mod_cast Nat.log2_self_le hden.ne', by exact_mod_cast Nat.lt_log2_self⟩
  have hden' : (0 : ℚ) < den := by exact_mod_cast hden
  have hlow : (2 : ℚ) ^ ((num.log2 : ℤ) - den.log2 - 1) ≤ num / den := by
    rw [sub_sub, zpow_sub₀ two_ne_zero, le_div_iff₀ hden', div_mul_eq_mul_div,
      div_le_iff₀ (by positivity)]
    exact mul_le_mul hn.1 (by exact_mod_cast hd.2.le) hden'.le (by positivity)
  have hhigh : (num : ℚ) / den < 2 ^ ((num.log2 : ℤ) - den.log2 + 1) := by
    rw [sub_add_eq_add_sub, zpow_sub₀ two_ne_zero, div_lt_div_iff₀ hden' (by positivity)]
    exact mul_lt_mul (by exact_mod_cast hn.2) (by exact_mod_cast hd.1) (by positivity)
      (by positivity)
  have htest := @div_lt_zpow_iff num den hden 2 (by decide) (num.log2 - den.log2)
  unfold floorLog2
  simp only
  split
  case isTrue h => exact ⟨hlow, by simpa using htest.2 h⟩
  case isFalse h => exact ⟨not_lt.1 (mt htest.1 h), hhigh⟩

/-- The numbers that are rounded to `r`. -/
structure RoundsTo (r : ℕ) (x : ℚ) : Prop where
  low_le : (r : ℚ) - 1 / 2 ≤ x
  le_high : x ≤ r + 1 / 2
  odd : r % 2 = 1 → (r : ℚ) - 1 / 2 < x ∧ x < r + 1 / 2

theorem RoundsTo.roundHalfEven_eq {r : ℕ} (hden : 0 < den) (h : RoundsTo r (num / den)) :
    roundHalfEven num den = r := by
  have hden' : (0 : ℚ) < den := by exact_mod_cast hden
  have hlow : 2 * (r * den) ≤ 2 * num + den := by
    have h := h.low_le
    rw [le_div_iff₀ hden'] at h
    exact_mod_cast (by linarith : (2 : ℚ) * (r * den) ≤ 2 * num + den)
  have hhigh : 2 * num ≤ 2 * (r * den) + den := by
    have h := h.le_high
    rw [div_le_iff₀ hden'] at h
    exact_mod_cast (by linarith : (2 : ℚ) * num ≤ 2 * (r * den) + den)
  have hodd : r % 2 = 1 → 2 * (r * den) < 2 * num + den ∧ 2 * num < 2 * (r * den) + den := by
    intro hr
    obtain ⟨hl, hh⟩ := h.odd hr
    rw [lt_div_iff₀ hden'] at hl
    rw [div_lt_iff₀ hden'] at hh
    exact ⟨by exact_mod_cast (by linarith : (2 : ℚ) * (r * den) < 2 * num + den),
      by exact_mod_cast (by linarith : (2 : ℚ) * num < 2 * (r * den) + den)⟩
  have hrest : num % den < den := Nat.mod_lt num hden
  have hnum : num / den * den + num % den = num := Nat.div_add_mod' num den
  -- the quotient rounded down is `r` or the number before it
  have hle : num / den ≤ r := by
    by_contra hlt
    have := Nat.mul_le_mul_right den (by omega : r + 1 ≤ num / den)
    rw [Nat.add_mul] at this
    omega
  have hge : r ≤ num / den + 1 := by
    by_contra hlt
    have := Nat.mul_le_mul_right den (by omega : num / den + 2 ≤ r)
    rw [Nat.add_mul] at this
    omega
  unfold roundHalfEven
  simp only [Bool.or_eq_true, decide_eq_true_eq, Bool.and_eq_true, beq_iff_eq]
  obtain hr | hr : r = num / den ∨ r = num / den + 1 := by omega
  · rw [hr] at hhigh hodd ⊢
    rw [if_neg]
    omega
  · rw [hr] at hlow hodd ⊢
    rw [Nat.add_mul] at hlow hodd
    rw [if_pos]
    omega

namespace Double

variable {d : Double} {x : ℚ}

theorem exponent_ge (d : Double) : -1074 ≤ d.exponent := by
  unfold exponent
  omega

theorem significand_lt (d : Double) : d.significand < 2 ^ 53 := by
  unfold significand
  simp only
  split <;> omega

theorem significand_pos (h : 0 < d.magnitude) : 0 < d.significand := by
  unfold significand
  simp only
  split <;> omega

/-- Above the smallest exponent the first bit of a significand is set. -/
theorem le_significand (h : -1074 < d.exponent) : 2 ^ 52 ≤ d.significand := by
  unfold exponent at h
  unfold significand
  simp only
  split <;> omega

theorem exponent_le (h : d.magnitude < infinity.magnitude) : d.exponent ≤ 971 := by
  have hinf : infinity.magnitude = 2047 * 2 ^ 52 := by decide
  unfold exponent
  omega

theorem magnitude_eq (d : Double) :
    d.magnitude = (d.exponent + 1074).toNat * 2 ^ 52 + d.significand := by
  unfold exponent significand
  simp only
  split <;> omega

/-- The numbers that are read as a double, up to its sign. -/
structure Nears (d : Double) (x : ℚ) : Prop where
  low_le : d.quarters.1 * 2 ^ (d.exponent - 2) ≤ x
  le_high : x ≤ d.quarters.2.2 * 2 ^ (d.exponent - 2)
  odd : d.significand % 2 = 1 → d.quarters.1 * 2 ^ (d.exponent - 2) < x ∧
    x < d.quarters.2.2 * 2 ^ (d.exponent - 2)

theorem high_eq (d : Double) : (d.quarters.2.2 : ℚ) = 4 * d.significand + 2 := by
  simp [quarters]

theorem le_low (d : Double) : (4 : ℚ) * d.significand - 2 ≤ d.quarters.1 := by
  have h : 4 * d.significand ≤ d.quarters.1 + 2 := by
    simp only [quarters]
    split <;> omega
  have h : (4 : ℚ) * d.significand ≤ d.quarters.1 + 2 := by exact_mod_cast h
  linarith

theorem quarter_eq (e : ℤ) : (2 : ℚ) ^ (e - 2) = 2 ^ e / 4 := by
  rw [zpow_sub₀ two_ne_zero]
  norm_num

/-- Counted in units of the last place, these are the numbers that are rounded to the
significand. -/
theorem Nears.roundsTo (h : d.Nears x) : RoundsTo d.significand (x / 2 ^ d.exponent) := by
  have hunit : (0 : ℚ) < 2 ^ d.exponent := by positivity
  have hlow := d.le_low
  have hhigh := d.high_eq
  have hl := h.low_le
  have hh := h.le_high
  rw [quarter_eq, hhigh] at hh
  rw [quarter_eq] at hl
  refine ⟨?_, ?_, fun hm => ?_⟩
  · rw [le_div_iff₀ hunit]
    nlinarith
  · rw [div_le_iff₀ hunit]
    linarith
  · obtain ⟨hl, hh⟩ := h.odd hm
    rw [quarter_eq, hhigh] at hh
    rw [quarter_eq] at hl
    rw [lt_div_iff₀ hunit, div_lt_iff₀ hunit]
    exact ⟨by nlinarith, by linarith⟩

theorem Nears.lt_zpow (h : d.Nears x) : x < 2 ^ (53 + d.exponent) := by
  have hunit : (0 : ℚ) < 2 ^ d.exponent := by positivity
  have hm : (d.significand : ℚ) + 1 ≤ 2 ^ 53 := by exact_mod_cast d.significand_lt
  have hh := h.le_high
  rw [quarter_eq, high_eq] at hh
  rw [zpow_add₀ two_ne_zero]
  have hprod : (d.significand + 1) * (2 : ℚ) ^ d.exponent ≤ 2 ^ 53 * 2 ^ d.exponent :=
    mul_le_mul_of_nonneg_right hm hunit.le
  norm_cast at hprod ⊢
  push_cast at hprod ⊢
  linarith

/-- Among the doubles above the smallest exponent, only a power of two has numbers below itself by
more than a power. -/
theorem Nears.power_of_lt (h : d.Nears x) (he : -1074 < d.exponent)
    (hx : x < 2 ^ (52 + d.exponent)) :
    d.significand = 2 ^ 52 ∧ (2 ^ 54 - 1) * (2 ^ d.exponent / 4) ≤ x := by
  have hunit : (0 : ℚ) < 2 ^ d.exponent := by positivity
  have hl := h.low_le
  rw [quarter_eq] at hl
  rw [zpow_add₀ two_ne_zero] at hx
  have hm : d.significand = 2 ^ 52 := by
    by_contra hne
    have hlow := d.le_low
    have hm : (2 : ℚ) ^ 52 + 1 ≤ d.significand := by
      exact_mod_cast (by have := le_significand he; omega : 2 ^ 52 + 1 ≤ d.significand)
    have hprod : (2 ^ 52 : ℚ) * 2 ^ d.exponent ≤ d.quarters.1 * (2 ^ d.exponent / 4) := by
      have hle : (2 ^ 52 : ℚ) * 4 ≤ d.quarters.1 := by linarith
      linarith [mul_le_mul_of_nonneg_right hle hunit.le]
    norm_num at hx hprod
    linarith
  have hlow : (d.quarters.1 : ℚ) = 2 ^ 54 - 1 := by
    simp only [quarters, hm, he]
    norm_num
  rw [hlow] at hl
  exact ⟨hm, hl⟩

/-- The unit that is chosen for a number and the number of units that it is rounded to give the bits
of the double. -/
theorem Nears.units (h : d.Nears x) (hk : (2 : ℚ) ^ k ≤ x ∧ x < 2 ^ (k + 1)) :
    ∃ n, RoundsTo n (x / 2 ^ max (k - 52) (-1074)) ∧
      (max (k - 52) (-1074) + 1074).toNat * 2 ^ 52 + n = d.magnitude := by
  have hlt : k < 53 + d.exponent := zpow_two_lt_iff.1 (hk.1.trans_lt h.lt_zpow)
  have hge := d.exponent_ge
  by_cases hx : d.exponent = -1074 ∨ 2 ^ (52 + d.exponent) ≤ x
  · have hq : max (k - 52) (-1074) = d.exponent := by
      rcases hx with hx | hx
      · omega
      · have := zpow_two_lt_iff.1 (hx.trans_lt hk.2)
        omega
    rw [hq]
    exact ⟨d.significand, h.roundsTo, d.magnitude_eq.symm⟩
  -- a power of two, and a number below it that has a smaller unit
  · obtain ⟨he, hx⟩ := not_or.1 hx
    rw [not_le] at hx
    obtain ⟨hm, hl⟩ := h.power_of_lt (by omega) hx
    have hunit : (0 : ℚ) < 2 ^ d.exponent := by positivity
    have hlow : (2 : ℚ) ^ (51 + d.exponent) ≤ x := by
      refine le_trans ?_ hl
      rw [zpow_add₀ two_ne_zero]
      norm_num
      linarith
    have hq : max (k - 52) (-1074) = d.exponent - 1 := by
      have h1 := zpow_two_lt_iff.1 (hlow.trans_lt hk.2)
      have h2 := zpow_two_lt_iff.1 (hk.1.trans_lt hx)
      omega
    have hhalf : x / 2 ^ (d.exponent - 1) = 2 * x / 2 ^ d.exponent := by
      rw [zpow_sub₀ two_ne_zero]
      field_simp
    rw [hq, hhalf]
    rw [zpow_add₀ two_ne_zero] at hx
    norm_num at hx hl
    refine ⟨2 ^ 53, ⟨?_, ?_, by norm_num⟩, ?_⟩
    · rw [le_div_iff₀ hunit]
      norm_num
      linarith
    · rw [div_le_iff₀ hunit]
      norm_num
      linarith
    · have := d.magnitude_eq
      omega

def abs (d : Double) : Double := ⟨d.magnitude.toUInt64⟩

/-- A quotient that is near a double is rounded to it. -/
theorem Nears.ofFraction_eq (hnum : 0 < num) (hden : 0 < den) (h : d.Nears (num / den))
    (hd : d.magnitude < infinity.magnitude) : ofFraction num den = d.abs := by
  obtain ⟨n, hn, hbits⟩ := h.units (floorLog2_spec hnum hden)
  have hscaled : ((num * 2 ^ (-max (floorLog2 num den - 52) (-1074)).toNat : ℕ) : ℚ) /
      (den * 2 ^ (max (floorLog2 num den - 52) (-1074)).toNat : ℕ) =
        num / den / 2 ^ max (floorLog2 num den - 52) (-1074) := by
    rw [zpow_eq_div two_ne_zero (max (floorLog2 num den - 52) (-1074))]
    push_cast
    field_simp
  rw [← hscaled] at hn
  have hround := hn.roundHalfEven_eq (by positivity)
  have hzero : (num == 0) = false := by simpa using hnum.ne'
  simp only [ofFraction, hzero, hround, hbits, hd, if_true, Bool.false_eq_true, if_false, abs]

end Double

end GoFun.Number
