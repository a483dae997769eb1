import Mathlib.Data.List.TakeWhile
import Schemata.Proofs.Json.Numeral
import Schemata.Proofs.Number.Rounding
/-!
# The text of a number

A number is read back from its text as a property name, so that different numbers have different texts.

- `Decimal.value`: the number that a decimal stands for; what a decimal is read as depends on nothing else.
- `Decimal.nearest?_shortest`: the fewest digits that are found for a double are read as that double.

Main statement: `Number.ofText?_toKey`.
-/
namespace Schemata

namespace Decimal

/-! ## Values -/

/-- The number that a decimal stands for. -/
def value (d : Decimal) : ℚ := d.digits * 10 ^ d.exponent

theorem ratio_snd_ne_zero (d : Decimal) : d.ratio.2 ≠ 0 := by
  unfold ratio
  split
  · exact one_ne_zero
  · exact Nat.pow_eq ▸ pow_ne_zero _ (by decide)

theorem value_ratio (d : Decimal) : (d.ratio.1 : ℚ) / d.ratio.2 = d.value := by
  obtain ⟨digits, exponent⟩ := d
  unfold ratio value
  dsimp only
  split
  · obtain ⟨k, rfl⟩ := Int.eq_ofNat_of_zero_le ‹_›
    simp [Nat.pow_eq]
  · obtain ⟨k, hk⟩ := Int.eq_ofNat_of_zero_le (a := -exponent) (by omega)
    obtain rfl : exponent = -(k : Int) := by omega
    simp [Nat.pow_eq, div_eq_mul_inv]

theorem value_eq_zero_iff {d : Decimal} : d.value = 0 ↔ d.digits = 0 := by
  simp [value, zpow_ne_zero]

/-- How far a decimal reaches is a matter of its value. -/
theorem reach_eq {d : Decimal} (hd : d.digits ≠ 0) : d.reach = Int.log 10 d.value + 1 := by
  obtain ⟨digits, exponent⟩ := d
  change digits ≠ 0 at hd
  have hpos : (0 : ℚ) < digits * 10 ^ exponent := by positivity
  obtain ⟨k, hk⟩ : ∃ k, (digitChars digits).length = k + 1 := Nat.exists_eq_succ_of_ne_zero
    (List.length_pos_iff.2 (digitChars_ne_nil digits)).ne'
  have hhigh : digits < 10 ^ (k + 1) := (Nat.length_toDigits_le_iff (by decide) k.succ_pos).1 hk.le
  have hlow : 10 ^ k ≤ digits := by
    cases k with
    | zero => exact Nat.pos_of_ne_zero hd
    | succ k =>
      refine Nat.not_lt.1 fun hlt => ?_
      have hle := (Nat.length_toDigits_le_iff (by decide) k.succ_pos).2 hlt
      rw [digitChars] at hk
      omega
  have hlog : (k : Int) + exponent ≤ Int.log 10 ((digits : ℚ) * 10 ^ exponent) := by
    rw [← Int.zpow_le_iff_le_log (by decide) hpos, Nat.cast_ofNat, zpow_add₀ (by norm_num)]
    exact mul_le_mul_of_nonneg_right (by exact_mod_cast hlow) (by positivity)
  have hlog' : Int.log 10 ((digits : ℚ) * 10 ^ exponent) < (k + 1 : Nat) + exponent := by
    rw [← Int.lt_zpow_iff_log_lt (by decide) hpos, Nat.cast_ofNat, zpow_add₀ (by norm_num)]
    exact mul_lt_mul_of_pos_right (by exact_mod_cast hhigh) (by positivity)
  simp only [reach, value, hk]
  omega

/-- **What a decimal is read as** is a matter of its value. -/
theorem nearest?_congr {d d' : Decimal} (h : d.value = d'.value) : d.nearest? = d'.nearest? := by
  have hzero : d.digits = 0 ↔ d'.digits = 0 := by rw [← value_eq_zero_iff, h, value_eq_zero_iff]
  have hratio : Magnitude.nearest? d.ratio.1 d.ratio.2 = Magnitude.nearest? d'.ratio.1 d'.ratio.2 :=
    Magnitude.nearest?_congr d.ratio_snd_ne_zero d'.ratio_snd_ne_zero (by rw [value_ratio, value_ratio, h])
  unfold nearest?
  by_cases hd : d'.digits = 0
  · rw [if_pos (.inl (hzero.2 hd)), if_pos (.inl hd)]
  · have hreach : d.reach = d'.reach := by rw [reach_eq (mt hzero.1 hd), reach_eq hd, h]
    simp only [hzero, hreach, hratio]

/-! ## The digits of a double -/

theorem value_strip (fuel : Nat) (d : Decimal) : (strip fuel d).value = d.value := by
  induction fuel generalizing d with
  | zero => rfl
  | succ fuel ih =>
    rw [strip]
    split
    · rename_i htrailing
      have hdigits : (d.digits / 10 : Nat) * (10 : ℚ) = d.digits := by
        exact_mod_cast Nat.div_mul_cancel (Nat.dvd_of_mod_eq_zero htrailing.2)
      rw [ih, value, value, zpow_add₀ (by norm_num), zpow_one, ← hdigits]
      ring
    · rfl

theorem value_exact (m : Magnitude) : (exact m).value = m.value := by
  unfold exact
  split
  · obtain ⟨k, hk⟩ := Int.eq_ofNat_of_zero_le ‹0 ≤ m.exponent›
    have hratio : m.ratio.2 = 1 := by
      rw [Magnitude.ratio, scaleDown]
      split
      · obtain rfl : k = 0 := by omega
        rw [hk]
        rfl
      · rfl
    rw [value, ← m.value_ratio, hratio]
    simp
  · obtain ⟨k, hk⟩ := Int.eq_ofNat_of_zero_le (a := -m.exponent) (by omega)
    have hexponent : m.exponent = -(k : Int) := by omega
    simp only [value, Magnitude.value, hexponent, Int.neg_neg, Int.toNat_natCast, Nat.pow_eq, Nat.cast_mul, Nat.cast_pow,
      zpow_neg, zpow_natCast, Nat.cast_ofNat]
    rw [show (10 : ℚ) = 5 * 2 by norm_num, mul_pow]
    field_simp

theorem two_pow_le_ten_pow (k : Nat) : (2 : ℚ) ^ (3 * k : Int) ≤ 10 ^ (k : Int) := by
  rw [zpow_mul, zpow_natCast, zpow_natCast]
  exact pow_le_pow_left₀ (by norm_num) (by norm_num) k

/-- No double needs the bounds of reading. -/
theorem nearest?_of_value {d : Decimal} {m : Magnitude} (h : d.value = m.value) : d.nearest? = some m := by
  unfold nearest?
  by_cases hd : d.digits = 0
  · rw [if_pos (.inl hd)]
    have hm : m.mantissa = 0 := by
      rw [value_eq_zero_iff.2 hd, Magnitude.value, zero_eq_mul] at h
      exact_mod_cast h.resolve_right (zpow_ne_zero _ two_ne_zero)
    rw [Magnitude.eq_zero_of_mantissa hm]
  · have hm : m.mantissa ≠ 0 := fun hm => by
      rw [Magnitude.value, hm, Nat.cast_zero, zero_mul, value_eq_zero_iff] at h
      exact hd h
    have hmantissa : (1 : ℚ) ≤ m.mantissa := by exact_mod_cast Nat.one_le_iff_ne_zero.2 hm
    have hmantissa' : (m.mantissa : ℚ) < 2 ^ 53 := by exact_mod_cast Nat.pow_eq ▸ m.canonical.1
    have hpos : 0 < m.value := by unfold Magnitude.value; positivity
    have hlow : (10 : ℕ) ^ (-358 : Int) ≤ m.value := by
      calc ((10 : ℕ) : ℚ) ^ (-358 : Int) = (10 ^ ((358 : ℕ) : Int))⁻¹ := by rw [← zpow_neg]; rfl
        _ ≤ (2 ^ (3 * (358 : ℕ) : Int))⁻¹ := inv_anti₀ (zpow_pos two_pos _) (two_pow_le_ten_pow 358)
        _ ≤ 2 ^ m.exponent := by
            rw [← zpow_neg]
            exact zpow_le_zpow_right₀ (by norm_num) m.canonical.2.1
        _ ≤ m.value := le_mul_of_one_le_left (by positivity) hmantissa
    have hhigh : m.value < (10 : ℕ) ^ (342 : Int) := by
      calc m.value < 2 ^ (53 : Int) * 2 ^ m.exponent :=
            mul_lt_mul_of_pos_right (by exact_mod_cast hmantissa') (by positivity)
        _ = 2 ^ (53 + m.exponent) := (zpow_add₀ two_ne_zero _ _).symm
        _ ≤ 2 ^ (3 * (342 : ℕ) : Int) := by
            have := m.canonical.2.2.1
            exact zpow_le_zpow_right₀ (by norm_num) (by omega)
        _ ≤ (10 : ℕ) ^ (342 : Int) := two_pow_le_ten_pow 342
    rw [Int.zpow_le_iff_le_log (by decide) hpos] at hlow
    rw [Int.lt_zpow_iff_log_lt (by decide) hpos] at hhigh
    have hreach := reach_eq hd
    rw [h] at hreach
    rw [if_neg (by omega), if_neg (by omega)]
    exact Magnitude.nearest?_value d.ratio_snd_ne_zero (d.value_ratio.trans h)

theorem nearest?_of_search {tie : Tie} {m : Magnitude} {fuel : Nat} {e : Int} {d : Decimal}
    (h : search tie m fuel e = some d) : d.nearest? = some m := by
  induction fuel generalizing e with
  | zero => cases h
  | succ fuel ih =>
    rw [search] at h
    split at h
    · cases h
      rename_i hfound
      simpa using List.find?_some hfound
    · exact ih h

/-- **The fewest digits of a double are read as that double.** -/
theorem nearest?_shortest (tie : Tie) (m : Magnitude) : (shortest tie m).nearest? = some m := by
  unfold shortest
  split
  · rename_i hm
    rw [Magnitude.eq_zero_of_mantissa hm]
    rfl
  · rw [nearest?_congr (value_strip 400 _)]
    cases hfound : search tie m 17 (scaleOf m - 1) with
    | some d => exact nearest?_of_search hfound
    | none => exact nearest?_of_value (value_exact m)

end Decimal

/-! ## Reading the text -/

theorem digitsValue_append (xs ys : List Char) :
    digitsValue 0 (xs ++ ys) = digitsValue 0 xs * 10 ^ ys.length + digitsValue 0 ys := by
  simp only [digitsValue_eq, Nat.ofDigitChars_append]
  rw [Nat.ofDigitChars_eq_ofDigitChars_zero, Nat.mul_comm]

theorem digitsValue_zeros (n : Nat) : digitsValue 0 (List.replicate n '0') = 0 := by
  rw [digitsValue_eq, Nat.ofDigitChars_replicate_zero, Nat.mul_zero]

namespace Decimal

section
variable {whole fraction : List Char} (hw : ∀ c ∈ whole, c.isDigit = true) (hf : ∀ c ∈ fraction, c.isDigit = true)
include hw

theorem ofChars?_whole (hsome : whole ≠ []) : ofChars? whole = some ⟨digitsValue 0 whole, 0⟩ := by
  simp [ofChars?, splitDigits_of_all hw, hsome, readExponent?]

include hf

theorem ofChars?_point (hsome : whole ≠ []) :
    ofChars? (whole ++ '.' :: fraction) = some ⟨digitsValue 0 (whole ++ fraction), -(fraction.length : Int)⟩ := by
  have hsplit : splitDigits (whole ++ '.' :: fraction) = (whole, '.' :: fraction) :=
    splitDigits_append hw (by simp [Char.isDigit])
  simp [ofChars?, hsplit, splitDigits_of_all hf, hsome, readExponent?]

end

end Decimal

namespace Layout

/-- The characters of a decimal: the digits with zeros after them, with the point between them, or with zeros and the point
before them. -/
theorem toList_renderDecimal {d : Decimal} (hd : d.digits ≠ 0) : (plain.renderDecimal d).toList =
    if 0 ≤ d.exponent then digitChars d.digits ++ List.replicate d.exponent.toNat '0'
    else if 0 < d.reach then (digitChars d.digits).take d.reach.toNat ++ '.' :: (digitChars d.digits).drop d.reach.toNat
    else ['0'] ++ '.' :: (List.replicate (-d.reach).toNat '0' ++ digitChars d.digits) := by
  simp only [renderDecimal, plain, if_neg hd, if_true]
  split
  · simp [toList_zeros]
  · split <;> simp [toList_zeros]

/-- **A decimal is read from its text with its value.** -/
theorem ofChars?_renderDecimal (d : Decimal) :
    ∃ d', Decimal.ofChars? (plain.renderDecimal d).toList = some d' ∧ d'.value = d.value := by
  have hdigit : ∀ c ∈ digitChars d.digits, c.isDigit = true := fun c hc => isDigit_of_mem_digitChars hc
  have hsome := digitChars_ne_nil d.digits
  have hzero : ∀ c ∈ ['0'], c.isDigit = true := List.forall_mem_singleton.2 rfl
  by_cases hd : d.digits = 0
  · rw [renderDecimal, if_pos hd]
    exact ⟨⟨0, 0⟩, rfl, by simp [Decimal.value, hd]⟩
  rw [toList_renderDecimal hd]
  obtain ⟨digits, exponent⟩ := d
  have hreach : Decimal.reach ⟨digits, exponent⟩ = (digitChars digits).length + exponent := rfl
  dsimp only at hdigit hsome hd hreach ⊢
  split
  · -- Zeros follow the digits.
    obtain ⟨k, rfl⟩ := Int.eq_ofNat_of_zero_le ‹0 ≤ exponent›
    have hdigits : ∀ c ∈ digitChars digits ++ List.replicate k '0', c.isDigit = true :=
      List.forall_mem_append.2 ⟨hdigit, fun c hc => isDigit_of_mem_zeros hc⟩
    refine ⟨_, Decimal.ofChars?_whole hdigits (by simp [hsome]), ?_⟩
    rw [digitsValue_append, digitsValue_digitChars, digitsValue_zeros, List.length_replicate]
    simp [Decimal.value]
  · split
    · -- The point stands between the digits.
      generalize hk : (Decimal.reach ⟨digits, exponent⟩).toNat = k
      refine ⟨_, Decimal.ofChars?_point (fun c hc => hdigit c (List.mem_of_mem_take hc))
        (fun c hc => hdigit c (List.mem_of_mem_drop hc)) (by simp [hsome]; omega), ?_⟩
      have hexponent : -(((digitChars digits).drop k).length : Int) = exponent := by
        rw [List.length_drop]
        omega
      rw [List.take_append_drop, digitsValue_digitChars, hexponent]
    · -- Zeros stand between the point and the digits.
      generalize hk : (-Decimal.reach ⟨digits, exponent⟩).toNat = k
      have hdigits : ∀ c ∈ List.replicate k '0' ++ digitChars digits, c.isDigit = true :=
        List.forall_mem_append.2 ⟨fun c hc => isDigit_of_mem_zeros hc, hdigit⟩
      refine ⟨_, Decimal.ofChars?_point hzero hdigits (List.cons_ne_nil _ _), ?_⟩
      have hvalue : digitsValue 0 (['0'] ++ (List.replicate k '0' ++ digitChars digits)) = digits := by
        have hfront : digitsValue 0 ['0'] = 0 := rfl
        simp only [digitsValue_append, digitsValue_zeros, digitsValue_digitChars, hfront, Nat.zero_mul, Nat.zero_add]
      have hexponent : -((List.replicate k '0' ++ digitChars digits).length : Int) = exponent := by
        rw [List.length_append, List.length_replicate]
        omega
      rw [hvalue, hexponent]

/-- A decimal is spelled in digits and points. -/
theorem isDigit_or_point (d : Decimal) {c : Char} (hc : c ∈ (plain.renderDecimal d).toList) :
    c.isDigit = true ∨ c = '.' := by
  have hdigit : ∀ {c}, c ∈ digitChars d.digits → c.isDigit = true := fun hc => isDigit_of_mem_digitChars hc
  by_cases hd : d.digits = 0
  · rw [renderDecimal, if_pos hd] at hc
    obtain rfl : c = '0' := List.mem_singleton.1 hc
    exact .inl rfl
  rw [toList_renderDecimal hd] at hc
  split at hc
  · exact .inl ((List.mem_append.1 hc).elim hdigit isDigit_of_mem_zeros)
  · split at hc
    · rcases List.mem_append.1 hc with hc | hc
      · exact .inl (hdigit (List.mem_of_mem_take hc))
      · exact (List.mem_cons.1 hc).elim .inr fun hc => .inl (hdigit (List.mem_of_mem_drop hc))
    · rcases List.mem_cons.1 hc with rfl | hc
      · exact .inl rfl
      · exact (List.mem_cons.1 hc).elim .inr fun hc => .inl ((List.mem_append.1 hc).elim isDigit_of_mem_zeros hdigit)

/-- The text of a decimal begins with a digit. -/
theorem head?_renderDecimal (d : Decimal) : ∃ c cs, (plain.renderDecimal d).toList = c :: cs ∧ c.isDigit = true := by
  by_cases hd : d.digits = 0
  · exact ⟨'0', [], by rw [renderDecimal, if_pos hd]; rfl, rfl⟩
  obtain ⟨c, cs, hcs⟩ := List.exists_cons_of_ne_nil (digitChars_ne_nil d.digits)
  have hc : c.isDigit = true := isDigit_of_mem_digitChars (hcs ▸ List.mem_cons_self)
  rw [toList_renderDecimal hd, hcs]
  split
  · exact ⟨c, _, rfl, hc⟩
  · split
    · rw [List.take_cons (by omega)]
      exact ⟨c, _, rfl, hc⟩
    · exact ⟨'0', _, rfl, rfl⟩

end Layout

namespace Number

theorem toLower_eq_of_isDigit {c : Char} (hc : c.isDigit = true) : c.toLower = c := by
  unfold Char.toLower
  simp only [Char.isDigit, Bool.and_eq_true, decide_eq_true_eq] at hc
  refine dif_neg fun hupper => ?_
  have hle := UInt32.le_trans hupper.1 hc.2
  revert hle
  decide

/-- What begins with a digit is read as a decimal. -/
theorem ofText?_of_digit {text : String} {negative : Bool} {c : Char} {cs : List Char}
    (htext : splitSign text.toList = (negative, c :: cs)) (hc : c.isDigit = true) :
    ofText? text = (Decimal.ofChars? (c :: cs)).map fun d =>
      match d.nearest? with
      | some m => .finite negative m
      | none => .infinite negative := by
  have hword : ∀ word : String, word.toList.head?.all Char.isDigit = false →
      String.ofList ((c :: cs).map Char.toLower) ≠ word := by
    intro word hword h
    rw [← h, String.toList_ofList, List.map_cons, List.head?_cons, Option.all_some, toLower_eq_of_isDigit hc, hc] at hword
    cases hword
  unfold ofText?
  rw [htext]
  dsimp only
  exact (if_neg (not_or.2 ⟨hword "inf" rfl, hword "infinity" rfl⟩)).trans (if_neg (hword "nan" rfl))

/-- **A number is read back from its text as a property name.** -/
theorem ofText?_toKey (x : Number) : ofText? x.toKey = some x := by
  cases x with
  | nan => decide +kernel
  | infinite negative => cases negative <;> decide +kernel
  | finite negative m =>
    obtain ⟨d, hread, hvalue⟩ := Layout.ofChars?_renderDecimal (Decimal.shortest Layout.plain.tie m)
    obtain ⟨c, cs, htext, hc⟩ := Layout.head?_renderDecimal (Decimal.shortest Layout.plain.tie m)
    have hnearest : d.nearest? = some m := (Decimal.nearest?_congr hvalue).trans (Decimal.nearest?_shortest _ m)
    have hsplit : splitSign (toKey (.finite negative m)).toList = (negative, c :: cs) := by
      rw [toKey, Layout.render, String.toList_append, htext]
      cases negative with
      | true => rfl
      | false =>
        show splitSign (c :: cs) = _
        unfold splitSign
        split
        · rename_i heq
          obtain ⟨rfl, rfl⟩ := List.cons.inj heq
          cases hc
        · rename_i heq
          obtain ⟨rfl, rfl⟩ := List.cons.inj heq
          cases hc
        · rfl
    rw [ofText?_of_digit hsplit hc, ← htext, hread, Option.map_some, hnearest]

end Number
end Schemata
