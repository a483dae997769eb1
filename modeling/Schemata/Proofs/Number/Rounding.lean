import Mathlib.Algebra.Order.Field.Power
import Mathlib.Algebra.Order.Field.Rat
import Mathlib.Data.Int.Log
import Mathlib.Data.Rat.Floor
import Mathlib.Tactic.FieldSimp
import Mathlib.Tactic.Positivity
import Schemata.Number.Basic
/-!
# Rounding a quotient

The double nearest to a quotient depends on the value of the quotient only, and rounding changes nothing about a double.

- `Magnitude.value`: the number that a magnitude stands for.
- `Magnitude.nearest?_congr`: equal quotients have the same nearest double.
- `Magnitude.nearest?_value`: a double is the one nearest to its value.
-/
namespace Schemata

/-! ## Scaling -/

theorem scaleDown_snd_ne_zero {n d : Nat} (hd : d ≠ 0) (e : Int) : (scaleDown n d e).2 ≠ 0 := by
  unfold scaleDown
  split
  · exact Nat.mul_ne_zero hd (Nat.pow_eq ▸ pow_ne_zero _ two_ne_zero)
  · exact hd

theorem value_scaleDown (n d : Nat) (e : Int) :
    ((scaleDown n d e).1 : ℚ) / (scaleDown n d e).2 = n / d / 2 ^ e := by
  unfold scaleDown
  split
  · obtain ⟨k, rfl⟩ := Int.eq_ofNat_of_zero_le ‹_›
    simp [Nat.pow_eq, div_div]
  · obtain ⟨k, hk⟩ := Int.eq_ofNat_of_zero_le (a := -e) (by omega)
    obtain rfl : e = -(k : Int) := by omega
    simp [Nat.pow_eq, div_mul_eq_mul_div]

/-- **The binary logarithm of a quotient.** -/
theorem log2Ratio_eq {n d : Nat} (hn : n ≠ 0) (hd : d ≠ 0) : log2Ratio n d = Int.log 2 ((n : ℚ) / d) := by
  have hpos : (0 : ℚ) < n / d := by positivity
  have hd' : (0 : ℚ) < d := by positivity
  -- The difference of the logarithms is at most one too great.
  have hlow : ((2 : ℕ) : ℚ) ^ ((n.log2 : Int) - d.log2 - 1) ≤ n / d := by
    rw [sub_sub, zpow_sub₀ (by norm_num), div_le_div_iff₀ (by positivity) hd']
    exact_mod_cast Nat.mul_le_mul (Nat.log2_self_le hn) (Nat.lt_log2_self (n := d)).le
  have hhigh : (n : ℚ) / d < ((2 : ℕ) : ℚ) ^ ((n.log2 : Int) - d.log2 + 1) := by
    rw [show (n.log2 : Int) - d.log2 + 1 = n.log2 + 1 - d.log2 by omega, zpow_sub₀ (by norm_num),
      div_lt_div_iff₀ hd' (by positivity)]
    exact_mod_cast Nat.mul_lt_mul_of_lt_of_le Nat.lt_log2_self (Nat.log2_self_le hd) (by positivity)
  rw [Int.zpow_le_iff_le_log one_lt_two hpos] at hlow
  rw [Int.lt_zpow_iff_log_lt one_lt_two hpos] at hhigh
  have hq := scaleDown_snd_ne_zero (n := n) hd (n.log2 - d.log2)
  have hlt : (scaleDown n d (n.log2 - d.log2)).1 < (scaleDown n d (n.log2 - d.log2)).2 ↔
      Int.log 2 ((n : ℚ) / d) < n.log2 - d.log2 := by
    rw [← Int.lt_zpow_iff_log_lt one_lt_two hpos, ← Nat.cast_lt (α := ℚ), ← div_lt_one (by positivity),
      value_scaleDown, div_lt_one (by positivity), Nat.cast_ofNat]
  simp only [log2Ratio, hlt]
  split <;> omega

theorem roundDiv_mul_right (n d : Nat) {k : Nat} (hk : 0 < k) : roundDiv (n * k) (d * k) = roundDiv n d := by
  have hlt : 2 * (n % d * k) < d * k ↔ 2 * (n % d) < d := by rw [← Nat.mul_assoc, Nat.mul_lt_mul_right hk]
  have heq : 2 * (n % d * k) = d * k ↔ 2 * (n % d) = d := by rw [← Nat.mul_assoc, Nat.mul_left_inj hk.ne']
  unfold roundDiv
  rw [Nat.mul_mod_mul_right, Nat.mul_div_mul_right _ _ hk]
  simp only [hlt, heq]

theorem roundDiv_congr {n d n' d' : Nat} (hd : d ≠ 0) (hd' : d' ≠ 0) (h : (n : ℚ) / d = n' / d') :
    roundDiv n d = roundDiv n' d' := by
  rw [div_eq_div_iff (by positivity) (by positivity)] at h
  have hcross : n * d' = n' * d := by exact_mod_cast h
  rw [← roundDiv_mul_right n d (Nat.pos_of_ne_zero hd'), ← roundDiv_mul_right n' d' (Nat.pos_of_ne_zero hd), hcross,
    Nat.mul_comm d d']

namespace Magnitude

/-- The number that a magnitude stands for. -/
def value (m : Magnitude) : ℚ := m.mantissa * 2 ^ m.exponent

theorem value_ratio (m : Magnitude) : (m.ratio.1 : ℚ) / m.ratio.2 = m.value := by
  rw [ratio, value_scaleDown, value, zpow_neg]
  simp

/-- **Equal quotients have the same nearest double.** -/
theorem nearest?_congr {n d n' d' : Nat} (hd : d ≠ 0) (hd' : d' ≠ 0) (h : (n : ℚ) / d = n' / d') :
    nearest? n d = nearest? n' d' := by
  have hzero : n = 0 ↔ n' = 0 := by
    have hd : (d : ℚ) ≠ 0 := by positivity
    have hd' : (d' : ℚ) ≠ 0 := by positivity
    have := congrArg (· = 0) h
    simpa [hd, hd'] using this
  unfold nearest?
  simp only [hzero]
  split
  · rfl
  · have hn' : n' ≠ 0 := ‹_›
    have hlog : log2Ratio n d = log2Ratio n' d' := by
      rw [log2Ratio_eq (mt hzero.1 hn') hd, log2Ratio_eq hn' hd', h]
    rw [hlog, roundDiv_congr (scaleDown_snd_ne_zero hd _) (scaleDown_snd_ne_zero hd' _)
      ((value_scaleDown n d _).trans ((congrArg (· / _) h).trans (value_scaleDown n' d' _).symm))]

/-- The exponent of a double is the one that rounding its value takes. -/
theorem exponent_eq {m : Magnitude} (hm : m.mantissa ≠ 0) :
    max (Int.log 2 m.value - 52) (-1074) = m.exponent := by
  obtain ⟨mantissa, exponent, hhigh, hleast, hmost, hlow⟩ := m
  change mantissa ≠ 0 at hm
  have hpos : (0 : ℚ) < mantissa * 2 ^ exponent := by positivity
  have hlt : Int.log 2 ((mantissa : ℚ) * 2 ^ exponent) < 53 + exponent := by
    rw [← Int.lt_zpow_iff_log_lt one_lt_two hpos, Nat.cast_ofNat, zpow_add₀ two_ne_zero]
    refine mul_lt_mul_of_pos_right ?_ (by positivity)
    exact_mod_cast Nat.pow_eq ▸ hhigh
  rcases hlow with hlow | rfl
  · have hle : 52 + exponent ≤ Int.log 2 ((mantissa : ℚ) * 2 ^ exponent) := by
      rw [← Int.zpow_le_iff_le_log one_lt_two hpos, Nat.cast_ofNat, zpow_add₀ two_ne_zero]
      refine mul_le_mul_of_nonneg_right ?_ (by positivity)
      exact_mod_cast Nat.pow_eq ▸ hlow
    simp only [value]
    omega
  · simp only [value]
    omega

theorem eq_zero_of_mantissa {m : Magnitude} (hm : m.mantissa = 0) : m = zero := by
  obtain ⟨mantissa, exponent, hhigh, hleast, hmost, hlow⟩ := m
  obtain rfl : mantissa = 0 := hm
  obtain rfl : exponent = -1074 := hlow.resolve_left (by decide)
  rfl

/-- **A double is the one nearest to its value.** -/
theorem nearest?_value {m : Magnitude} {n d : Nat} (hd : d ≠ 0) (h : (n : ℚ) / d = m.value) : nearest? n d = some m := by
  by_cases hm : m.mantissa = 0
  · have hn : n = 0 := by
      rw [value, hm, Nat.cast_zero, zero_mul, div_eq_zero_iff] at h
      exact_mod_cast h.resolve_right (by positivity)
    rw [hn, eq_zero_of_mantissa hm]
    rfl
  · have hn : n ≠ 0 := by
      rintro rfl
      have hpos : 0 < m.value := by unfold value; positivity
      rw [Nat.cast_zero, zero_div] at h
      exact hpos.ne h
    have hround : roundDiv (scaleDown n d m.exponent).1 (scaleDown n d m.exponent).2 = m.mantissa := by
      have hvalue : ((scaleDown n d m.exponent).1 : ℚ) / (scaleDown n d m.exponent).2 = m.mantissa / (1 : ℕ) := by
        rw [value_scaleDown, h, value]
        field_simp
        simp
      rw [roundDiv_congr (scaleDown_snd_ne_zero hd _) one_ne_zero hvalue, roundDiv, Nat.mod_one, Nat.div_one]
      exact if_pos (.inl Nat.one_pos)
    have hlt : m.mantissa ≠ Nat.pow 2 53 := m.canonical.1.ne
    unfold nearest?
    simp only [if_neg hn, log2Ratio_eq hn hd, h, exponent_eq hm, hround, if_neg hlt, ofParts?, dif_pos m.canonical]

end Magnitude
end Schemata
