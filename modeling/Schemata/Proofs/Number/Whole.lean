import Mathlib.Data.Nat.Log
import Schemata.Number.Basic
/-!
# Whole numbers as doubles

A natural number of up to 53 bits is a double exactly: rounding moves its bits to the front and nothing else
(`Number.toNat?_ofNat`).  Equal doubles stand for the same natural number, if for any (`Number.toNat?_of_sameAs`).
-/
namespace Schemata

theorem log2Ratio_one {n : Nat} (hn : n ≠ 0) : log2Ratio n 1 = n.log2 := by
  have hk : ((n.log2 : Int) - (Nat.log2 1 : Nat)) = n.log2 := by
    rw [show Nat.log2 1 = 0 from by decide]
    exact Int.sub_zero _
  have hlow : ¬ n < 1 * Nat.pow 2 n.log2 := by
    rw [Nat.one_mul, Nat.pow_eq]
    exact Nat.not_lt.2 (Nat.log2_self_le hn)
  rw [log2Ratio, hk, scaleDown, if_pos (Int.natCast_nonneg _), Int.toNat_natCast]
  exact if_neg hlow

theorem roundDiv_one (n : Nat) : roundDiv n 1 = n := by
  rw [roundDiv, Nat.mod_one, Nat.div_one]
  exact if_pos (.inl Nat.one_pos)

/-- **A natural number of up to 53 bits loses nothing** where it is rounded. -/
theorem Magnitude.nearest?_one {n : Nat} (h0 : n ≠ 0) (hn : n < Nat.pow 2 53) : ∃ m : Magnitude,
    nearest? n 1 = some m ∧ ∃ k : Nat, m.mantissa = n * Nat.pow 2 k ∧ m.exponent = -(k : Int) := by
  have hlog : n.log2 ≤ 52 := Nat.lt_succ_iff.1 ((Nat.log2_lt h0).2 hn)
  obtain ⟨k, hk⟩ : ∃ k, n.log2 + k = 52 := ⟨52 - n.log2, by omega⟩
  have hexponent : max (log2Ratio n 1 - 52) (-1074) = -(k : Int) := by
    rw [log2Ratio_one h0]
    omega
  have hscale : scaleDown n 1 (-(k : Int)) = (n * Nat.pow 2 k, 1) := by
    rw [scaleDown]
    split
    · have hzero : k = 0 := by omega
      subst hzero
      exact congrArg (·, 1) (Nat.mul_one n).symm
    · rw [Int.neg_neg, Int.toNat_natCast]
  have hlow : Nat.pow 2 52 ≤ n * Nat.pow 2 k := by
    calc Nat.pow 2 52 = 2 ^ n.log2 * 2 ^ k := by rw [← Nat.pow_add, hk, Nat.pow_eq]
      _ ≤ n * Nat.pow 2 k := Nat.mul_le_mul_right _ (Nat.log2_self_le h0)
  have hhigh : n * Nat.pow 2 k < Nat.pow 2 53 := by
    calc n * Nat.pow 2 k < 2 ^ (n.log2 + 1) * 2 ^ k := Nat.mul_lt_mul_of_pos_right Nat.lt_log2_self (Nat.two_pow_pos k)
      _ = Nat.pow 2 53 := by rw [← Nat.pow_add, Nat.add_right_comm, hk, Nat.pow_eq]
  have hcanonical : Canonical (n * Nat.pow 2 k) (-(k : Int)) := ⟨hhigh, by omega, by omega, .inl hlow⟩
  refine ⟨⟨_, _, hcanonical⟩, ?_, k, rfl, rfl⟩
  simp only [nearest?, if_neg h0, hexponent, hscale, roundDiv_one, if_neg (Nat.ne_of_lt hhigh), ofParts?,
    dif_pos hcanonical]

namespace Number

/-- **A natural number of up to 53 bits is a double exactly.** -/
theorem toNat?_ofNat {n : Nat} (hn : n < Nat.pow 2 53) : (ofNat n).toNat? = some n := by
  by_cases h0 : n = 0
  · subst h0
    decide +kernel
  · obtain ⟨m, hm, k, hmantissa, hexponent⟩ := Magnitude.nearest?_one h0 hn
    have hwhole : (Number.finite false m).isWhole = true := by
      rw [isWhole, hmantissa, hexponent, Int.neg_neg, Int.toNat_natCast, Nat.mul_mod_left]
      simp
    have hratio : m.ratio = (n * Nat.pow 2 k, Nat.pow 2 k) := by
      rw [Magnitude.ratio, hmantissa, hexponent, Int.neg_neg, scaleDown, if_pos (Int.natCast_nonneg k),
        Int.toNat_natCast, Nat.one_mul]
    have hdiv : n * Nat.pow 2 k / Nat.pow 2 k = n := Nat.mul_div_cancel n (Nat.two_pow_pos k)
    rw [ofNat, ofRatio, hm]
    simp only [toNat?, hwhole, hratio, hdiv]
    rfl

theorem toNat?_of_sameAs {x y : Number} (h : x.sameAs y = true) : x.toNat? = y.toNat? := by
  cases x with
  | finite negative m =>
    cases y with
    | finite negative' m' =>
      obtain ⟨mantissa, exponent, hm⟩ := m
      obtain ⟨mantissa', exponent', hm'⟩ := m'
      simp only [sameAs, Bool.and_eq_true, Bool.or_eq_true, beq_iff_eq] at h
      obtain ⟨⟨rfl, rfl⟩, rfl | rfl⟩ := h
      · rfl
      · simp [toNat?, isWhole]
    | _ => cases h
  | infinite => cases y <;> first | rfl | cases h
  | nan => cases h

end Number
end Schemata
