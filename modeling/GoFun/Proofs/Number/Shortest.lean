import GoFun.Proofs.Number.Nearest

/-!
# The digits of a double read back

The digits of a double are found on a grid of multiples of a power of ten. Seventeen digits always
suffice: the steps of such a grid are smaller than the gap between the points where reading changes
over to the neighbours.
-/
namespace GoFun.Number

theorem lt_pow_length_toDigits (n : ℕ) : n < 10 ^ (Nat.toDigits 10 n).length :=
  (Nat.length_toDigits_le_iff (by decide) Nat.length_toDigits_pos).1 (Nat.le_refl _)

theorem pow_length_toDigits_le {n : ℕ} (hn : 0 < n) :
    10 ^ ((Nat.toDigits 10 n).length - 1) ≤ n := by
  by_cases hlen : (Nat.toDigits 10 n).length = 1
  · rw [hlen]
    exact hn
  · have hpos : 0 < (Nat.toDigits 10 n).length := Nat.length_toDigits_pos
    have h := mt (Nat.length_toDigits_le_iff (b := 10) (n := n) (by decide)
      (by omega : 0 < (Nat.toDigits 10 n).length - 1)).2
    omega

theorem zpow_floorLog10_le {num den : ℕ} (hnum : 0 < num) (hden : 0 < den) :
    (10 : ℚ) ^ floorLog10 num den ≤ num / den := by
  have hden' : (0 : ℚ) < den := by exact_mod_cast hden
  unfold floorLog10
  split
  case isTrue h =>
    have hpos : 0 < (Nat.toDigits 10 (num / den)).length := Nat.length_toDigits_pos
    have hle := Nat.mul_le_of_le_div _ _ _ (pow_length_toDigits_le (Nat.div_pos h hden))
    rw [le_div_iff₀ hden', show ((Nat.toDigits 10 (num / den)).length : ℤ) - 1 =
      ((Nat.toDigits 10 (num / den)).length - 1 : ℕ) by omega, zpow_natCast]
    exact_mod_cast hle
  case isFalse h =>
    have hlt := (Nat.div_lt_iff_lt_mul hnum).1 (lt_pow_length_toDigits ((den - 1) / num))
    have hle : den ≤ num * 10 ^ (Nat.toDigits 10 ((den - 1) / num)).length := by
      rw [Nat.mul_comm]
      omega
    rw [zpow_neg, zpow_natCast, inv_le_comm₀ (by positivity) (by positivity), inv_div,
      div_le_iff₀ (by exact_mod_cast hnum), mul_comm]
    exact_mod_cast hle

theorem zpow_ten_lt_iff {j k : ℤ} : (10 : ℚ) ^ j < 10 ^ k ↔ j < k :=
  zpow_lt_zpow_iff_right₀ (by norm_num)

namespace Double

variable {d : Double} {t : ℤ} {p : ℕ}

/-- A quarter of the last place of a double, and a step of the grid of `10 ^ t`, in a common
unit. -/
def gridQuarter (d : Double) (t : ℤ) : ℕ := 2 ^ (d.exponent - 2).toNat * 10 ^ (-t).toNat

def gridStep (d : Double) (t : ℤ) : ℕ := 10 ^ t.toNat * 2 ^ (-(d.exponent - 2)).toNat

def gridUnit (d : Double) (t : ℤ) : ℚ := 10 ^ (-t).toNat * 2 ^ (-(d.exponent - 2)).toNat

/-- Whether a point of the grid is read as the double. -/
def readsBack (d : Double) (t : ℤ) (p : ℕ) : Bool :=
  if d.significand % 2 == 0 then
    d.quarters.1 * d.gridQuarter t ≤ p * d.gridStep t && p * d.gridStep t ≤ d.quarters.2.2 *
      d.gridQuarter t
  else d.quarters.1 * d.gridQuarter t < p * d.gridStep t && p * d.gridStep t < d.quarters.2.2 *
    d.gridQuarter t

/-- The point of the grid that is nearest to the double, the upper one of two. -/
def gridPoint (d : Double) (t : ℤ) : ℕ :=
  let value := d.quarters.2.1 * d.gridQuarter t
  let down := value / d.gridStep t
  if (down + 1) * d.gridStep t - value ≤ value - down * d.gridStep t then down + 1 else down

def gridOther (d : Double) (t : ℤ) : ℕ :=
  let down := d.quarters.2.1 * d.gridQuarter t / d.gridStep t
  if d.gridPoint t == down then down + 1 else down

theorem gridUnit_pos (d : Double) (t : ℤ) : 0 < d.gridUnit t := by
  unfold gridUnit
  positivity

theorem gridQuarter_eq (d : Double) (t : ℤ) :
    (d.gridQuarter t : ℚ) = 2 ^ (d.exponent - 2) * d.gridUnit t := by
  rw [zpow_eq_div two_ne_zero, gridQuarter, gridUnit]
  push_cast
  field_simp

theorem gridStep_eq (d : Double) (t : ℤ) : (d.gridStep t : ℚ) = 10 ^ t * d.gridUnit t := by
  rw [zpow_eq_div (by norm_num), gridStep, gridUnit]
  push_cast
  field_simp

theorem readsBack_iff : d.readsBack t p = true ↔ d.Nears (p * 10 ^ t) := by
  have hunit := d.gridUnit_pos t
  have hle : ∀ a : ℕ, a * d.gridQuarter t ≤ p * d.gridStep t ↔
      (a : ℚ) * 2 ^ (d.exponent - 2) ≤ p * 10 ^ t := by
    intro a
    rw [← Nat.cast_le (α := ℚ)]
    push_cast
    rw [gridQuarter_eq, gridStep_eq, ← mul_assoc, ← mul_assoc, mul_le_mul_iff_left₀ hunit]
  have hge : ∀ a : ℕ, p * d.gridStep t ≤ a * d.gridQuarter t ↔
      p * 10 ^ t ≤ (a : ℚ) * 2 ^ (d.exponent - 2) := by
    intro a
    rw [← Nat.cast_le (α := ℚ)]
    push_cast
    rw [gridQuarter_eq, gridStep_eq, ← mul_assoc, ← mul_assoc, mul_le_mul_iff_left₀ hunit]
  have hlt := fun a => (not_congr (hge a))
  have hgt := fun a => (not_congr (hle a))
  simp only [not_le] at hlt hgt
  unfold readsBack
  split
  case isTrue hm =>
    rw [beq_iff_eq] at hm
    simp only [Bool.and_eq_true, decide_eq_true_eq, hle, hge]
    exact ⟨fun h => ⟨h.1, h.2, by omega⟩, fun h => ⟨h.low_le, h.le_high⟩⟩
  case isFalse hm =>
    rw [beq_iff_eq] at hm
    simp only [Bool.and_eq_true, decide_eq_true_eq, hlt, hgt]
    exact ⟨fun h => ⟨h.1.le, h.2.le, fun _ => h⟩, fun h => h.odd (by omega)⟩

theorem onGrid?_eq (d : Double) (t : ℤ) : d.onGrid? t =
    if d.readsBack t (d.gridPoint t) then some (d.gridPoint t)
    else if d.readsBack t (d.gridOther t) then some (d.gridOther t) else none := rfl

theorem nears_of_onGrid? (h : d.onGrid? t = some p) : d.Nears (p * 10 ^ t) := by
  rw [onGrid?_eq] at h
  split at h
  case isTrue hp => exact Option.some.inj h ▸ readsBack_iff.1 hp
  case isFalse =>
    split at h
    case isTrue hp => exact Option.some.inj h ▸ readsBack_iff.1 hp
    case isFalse => cases h

theorem onGrid?_isSome (h : d.Nears (d.gridPoint t * 10 ^ t)) : (d.onGrid? t).isSome = true := by
  rw [onGrid?_eq]
  simp [readsBack_iff.2 h]

theorem gridPoint_near (d : Double) (t : ℤ) :
    |(d.gridPoint t : ℚ) * 10 ^ t - 4 * d.significand * 2 ^ (d.exponent - 2)| ≤ 10 ^ t / 2 := by
  have hunit := d.gridUnit_pos t
  have hstep : 0 < d.gridStep t := by
    unfold gridStep
    positivity
  have hdown := Nat.div_add_mod' (4 * d.significand * d.gridQuarter t) (d.gridStep t)
  have hrest := Nat.mod_lt (4 * d.significand * d.gridQuarter t) hstep
  have hnear : 2 * (d.gridPoint t * d.gridStep t) ≤ 2 * (4 * d.significand * d.gridQuarter t) +
      d.gridStep t ∧
      2 * (4 * d.significand * d.gridQuarter t) ≤ 2 * (d.gridPoint t * d.gridStep t) +
        d.gridStep t := by
    rw [gridPoint, show d.quarters.2.1 = 4 * d.significand from rfl]
    simp only [Nat.add_mul, Nat.one_mul]
    split
    case isTrue =>
      rw [Nat.add_mul]
      omega
    case isFalse => omega
  obtain ⟨hl, hh⟩ : (2 : ℚ) * (d.gridPoint t * d.gridStep t) ≤ 2 *
      (4 * d.significand * d.gridQuarter t) + d.gridStep t ∧
      (2 : ℚ) * (4 * d.significand * d.gridQuarter t) ≤ 2 * (d.gridPoint t * d.gridStep t) +
        d.gridStep t := by
    exact_mod_cast hnear
  rw [gridQuarter_eq, gridStep_eq] at hl hh
  rw [abs_le]
  constructor
  · refine le_of_mul_le_mul_right ?_ hunit
    linarith
  · refine le_of_mul_le_mul_right ?_ hunit
    linarith

theorem low_eq (h : 0 < d.significand) : (d.quarters.1 : ℚ) = 4 * d.significand - 2 ∨
    (d.significand = 2 ^ 52 ∧ (d.quarters.1 : ℚ) = 4 * d.significand - 1) := by
  simp only [quarters]
  split
  case isTrue hm =>
    simp only [Bool.and_eq_true, beq_iff_eq] at hm
    rw [Nat.cast_sub (by omega)]
    exact .inr ⟨hm.1, by push_cast; rfl⟩
  case isFalse =>
    rw [Nat.cast_sub (by omega)]
    exact .inl (by push_cast; rfl)

/-- On a grid of sixteen further digits, the nearest point is read as the double. -/
theorem gridPoint_nears (h : 0 < d.significand)
    (ht : (10 : ℚ) ^ (t + 16) ≤ d.significand * 2 ^ d.exponent) :
    d.Nears (d.gridPoint t * 10 ^ t) := by
  have hquarter : (0 : ℚ) < 2 ^ (d.exponent - 2) := by positivity
  have hm : (d.significand : ℚ) < 2 ^ 53 := by exact_mod_cast d.significand_lt
  have hnear := abs_le.1 (d.gridPoint_near t)
  have hstep : (10 : ℚ) ^ t * 10 ^ 16 ≤ 4 * d.significand * 2 ^ (d.exponent - 2) := by
    rw [zpow_add₀ (by norm_num)] at ht
    rw [quarter_eq]
    norm_num at ht ⊢
    linarith
  have hhigh : (d.gridPoint t : ℚ) * 10 ^ t < d.quarters.2.2 * 2 ^ (d.exponent - 2) := by
    rw [high_eq]
    nlinarith
  have hlow : (d.quarters.1 : ℚ) * 2 ^ (d.exponent - 2) < d.gridPoint t * 10 ^ t := by
    rcases low_eq h with hlow | ⟨hpow, hlow⟩
    · rw [hlow]
      nlinarith
    · rw [hlow]
      rw [hpow] at hstep hnear ⊢
      push_cast at hstep hnear ⊢
      nlinarith
  exact ⟨hlow.le, hhigh.le, fun _ => ⟨hlow, hhigh⟩⟩

theorem trimZeros_value (p : ℕ) (t : ℤ) :
    ((trimZeros p t).1 : ℚ) * 10 ^ (trimZeros p t).2 = p * 10 ^ t := by
  fun_induction trimZeros p t with
  | case1 p t h ih =>
    have hten : (p : ℚ) = (p / 10 : ℕ) * 10 := by
      simp only [Bool.and_eq_true, beq_iff_eq] at h
      exact_mod_cast (by omega : p = p / 10 * 10)
    rw [ih, hten, zpow_add_one₀ (by norm_num)]
    ring
  | case2 => rfl

theorem shortest_nears (h : 0 < d.magnitude) : d.Nears (d.shortest.1 * 10 ^ d.shortest.2) := by
  have hm := significand_pos h
  have hvalue : ((d.significand * 2 ^ d.exponent.toNat : ℕ) : ℚ) / (2 ^ (-d.exponent).toNat : ℕ) =
      d.significand * 2 ^ d.exponent := by
    rw [zpow_eq_div two_ne_zero]
    push_cast
    ring
  unfold shortest
  simp only
  generalize hk : floorLog10 (d.significand * 2 ^ d.exponent.toNat) (2 ^ (-d.exponent).toNat) = k
  have hlog : (10 : ℚ) ^ k ≤ d.significand * 2 ^ d.exponent := by
    rw [← hk, ← hvalue]
    exact zpow_floorLog10_le (by positivity) (by positivity)
  have hlast : (d.onGrid? (k - 16)).isSome = true :=
    onGrid?_isSome (gridPoint_nears hm (by simpa using hlog))
  cases hfind : (List.range 17).findSome? fun n : ℕ => (d.onGrid? (k - n)).map fun p =>
    trimZeros p (k - n) with
  | none =>
    have hnone : d.onGrid? (k - 16) = none :=
      Option.map_eq_none_iff.1 (List.findSome?_eq_none_iff.1 hfind 16 (by simp))
    simp [hnone] at hlast
  | some digits =>
    obtain ⟨n, -, hn⟩ := List.exists_of_findSome?_eq_some hfind
    obtain ⟨p, hp, rfl⟩ := Option.map_eq_some_iff.1 hn
    rw [Option.getD_some, trimZeros_value]
    exact nears_of_onGrid? hp

theorem Nears.lower {x : ℚ} (h : d.Nears x) (hd : 0 < d.magnitude) : (2 : ℚ) ^ (-1075 : ℤ) ≤ x := by
  have hm : (1 : ℚ) ≤ d.significand := by exact_mod_cast significand_pos hd
  have hlow : (2 : ℚ) ≤ d.quarters.1 := by linarith [d.le_low]
  have he : (2 : ℚ) ^ (-1076 : ℤ) ≤ 2 ^ (d.exponent - 2) :=
    zpow_le_zpow_right₀ (by norm_num) (by have := d.exponent_ge; omega)
  calc (2 : ℚ) ^ (-1075 : ℤ) = 2 * 2 ^ (-1076 : ℤ) := by
        rw [← zpow_one_add₀ two_ne_zero]
        rfl
    _ ≤ d.quarters.1 * 2 ^ (d.exponent - 2) := mul_le_mul hlow he (by positivity) (by linarith)
    _ ≤ x := h.low_le

theorem Nears.upper {x : ℚ} (h : d.Nears x) (hd : d.magnitude < infinity.magnitude) :
    x < 2 ^ (1024 : ℤ) :=
  h.lt_zpow.trans_le (zpow_le_zpow_right₀ (by norm_num) (by have := exponent_le hd; omega))

theorem two_zpow_le_ten_zpow : (2 : ℚ) ^ (1024 : ℤ) ≤ 10 ^ (309 : ℤ) :=
  calc (2 : ℚ) ^ (1024 : ℤ) = (2 ^ (93 : ℤ)) ^ (11 : ℤ) * 2 := by
        rw [← zpow_mul, ← zpow_add_one₀ two_ne_zero]
        congr 1
    _ ≤ (10 ^ (28 : ℤ)) ^ (11 : ℤ) * 10 := by
        have hbase : (2 : ℚ) ^ (93 : ℤ) ≤ 10 ^ (28 : ℤ) := by norm_num
        have hpow := zpow_le_zpow_left₀ (by decide : (0 : ℤ) ≤ 11) (by positivity) hbase
        exact mul_le_mul hpow (by norm_num) (by norm_num) (by positivity)
    _ = 10 ^ (309 : ℤ) := by
        rw [← zpow_mul, ← zpow_add_one₀ (by norm_num)]
        congr 1

theorem ten_zpow_le_two_zpow : (10 : ℚ) ^ (-330 : ℤ) ≤ 2 ^ (-1075 : ℤ) :=
  calc (10 : ℚ) ^ (-330 : ℤ) = (10 ^ (-30 : ℤ)) ^ (11 : ℤ) := by
        rw [← zpow_mul]
        congr 1
    _ ≤ (2 ^ (-98 : ℤ)) ^ (11 : ℤ) := by
        have hbase : (10 : ℚ) ^ (-30 : ℤ) ≤ 2 ^ (-98 : ℤ) := by norm_num
        exact zpow_le_zpow_left₀ (by decide : (0 : ℤ) ≤ 11) (by positivity) hbase
    _ = 2 ^ (-1078 : ℤ) := by
        rw [← zpow_mul]
        congr 1
    _ ≤ 2 ^ (-1075 : ℤ) := zpow_le_zpow_right₀ (by norm_num) (by decide)

theorem Nears.ofDecimal_eq (h : d.Nears (p * 10 ^ t)) (hd : 0 < d.magnitude) (hinf : d.magnitude < infinity.magnitude) :
    ofDecimal p t = d.abs := by
  have hlower := h.lower hd
  have hupper := h.upper hinf
  have hp : 0 < p := by
    by_contra h0
    obtain rfl : p = 0 := by omega
    rw [Nat.cast_zero, zero_mul] at hlower
    exact absurd hlower (not_le.2 (by positivity))
  have hlen : 0 < (Nat.toDigits 10 p).length := Nat.length_toDigits_pos
  have hsmall : ¬ ((Nat.toDigits 10 p).length + t < -330) := by
    have hlt : (p : ℚ) < 10 ^ ((Nat.toDigits 10 p).length : ℤ) := by exact_mod_cast lt_pow_length_toDigits p
    have hx : (p : ℚ) * 10 ^ t < 10 ^ ((Nat.toDigits 10 p).length + t) := by
      rw [zpow_add₀ (by norm_num)]
      exact mul_lt_mul_of_pos_right hlt (by positivity)
    have := zpow_ten_lt_iff.1 ((ten_zpow_le_two_zpow.trans hlower).trans_lt hx)
    omega
  have hlarge : ¬ (310 < (Nat.toDigits 10 p).length + t) := by
    have hle : (10 : ℚ) ^ (((Nat.toDigits 10 p).length - 1 : ℕ) : ℤ) ≤
        p := by exact_mod_cast pow_length_toDigits_le hp
    have hx : (10 : ℚ) ^ (((Nat.toDigits 10 p).length - 1 : ℕ) + t) ≤ p * 10 ^ t := by
      rw [zpow_add₀ (by norm_num)]
      exact mul_le_mul_of_nonneg_right hle (by positivity)
    have := zpow_ten_lt_iff.1 ((hx.trans_lt hupper).trans_le two_zpow_le_ten_zpow)
    omega
  have hvalue : ((p * 10 ^ t.toNat : ℕ) : ℚ) / (10 ^ (-t).toNat : ℕ) = p * 10 ^ t := by
    rw [zpow_eq_div (by norm_num)]
    push_cast
    ring
  rw [← hvalue] at h
  simp only [ofDecimal, beq_iff_eq, hp.ne', hsmall, hlarge, Bool.or_eq_true, decide_eq_true_eq,
    or_self, if_false]
  exact h.ofFraction_eq (by positivity) (by positivity) hinf

end Double

end GoFun.Number
