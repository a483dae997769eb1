import Mathlib.Data.List.Basic
import Schemata.Json.Token
import Schemata.Proofs.Text.Reader
/-!
# Numerals and their spelling

A numeral is read back from its spelling, as long as it has one.  The texts of integers and of finite numbers are such
spellings, the ones without a fraction and an exponent and the others with.

- `Numeral.WellFormed n`: the numeral can be spelled.
- `Numeral.chars`: its spelling.
- `Number.ReadsBack x`: what is read from the text of the number is the number.

Main statements: `Numeral.ofChars?_chars`, `WideInteger.toJson?_numeral` and `Number.exists_numeral`.
-/
namespace Schemata

/-! ## Digits -/

theorem splitDigits_append {digits rest : List Char} (hd : ∀ c ∈ digits, c.isDigit = true)
    (hr : ∀ c ∈ rest.head?, c.isDigit = false) : splitDigits (digits ++ rest) = (digits, rest) := by
  rw [splitDigits, takeWhile_append_eq hd hr, dropWhile_append_eq hd hr]

theorem splitDigits_of_all {digits : List Char} (hd : ∀ c ∈ digits, c.isDigit = true) : splitDigits digits = (digits, []) := by
  have h := splitDigits_append hd (by simp : ∀ c ∈ ([] : List Char).head?, c.isDigit = false)
  rwa [List.append_nil] at h

theorem digitsValue_eq (acc : Nat) (cs : List Char) : digitsValue acc cs = Nat.ofDigitChars 10 cs acc := by
  induction cs generalizing acc with
  | nil =>
    rw [Nat.ofDigitChars_nil]
    rfl
  | cons c cs ih =>
    rw [Nat.ofDigitChars_cons, ← ih, Nat.mul_comm]
    rfl

/-- The digits of a natural number have its value. -/
theorem digitsValue_digitChars (n : Nat) : digitsValue 0 (digitChars n) = n := by
  rw [digitsValue_eq, digitChars, Nat.ofDigitChars_toDigits (by decide) (by decide)]

theorem isDigit_of_mem_digitChars {n : Nat} {c : Char} (h : c ∈ digitChars n) : c.isDigit = true :=
  Nat.isDigit_of_mem_toDigits (by decide) (by decide) h

theorem digitChars_ne_nil (n : Nat) : digitChars n ≠ [] := Nat.toDigits_ne_nil

/-- No zero stands before the digits of a positive number. -/
theorem head?_digitChars_ne {n : Nat} (hn : n ≠ 0) : (digitChars n).head? ≠ some '0' := by
  induction n using Nat.strongRecOn with
  | ind n ih =>
    rw [digitChars]
    by_cases hlt : n < 10
    · have hdigit : ∀ k < 10, k ≠ 0 → Nat.digitChar k ≠ '0' := by decide
      rw [Nat.toDigits_of_lt_base hlt]
      simpa using hdigit n hlt hn
    · rw [Nat.toDigits_of_base_le (by decide) (by omega), List.head?_append_of_ne_nil _ Nat.toDigits_ne_nil]
      exact ih (n / 10) (by omega) (by omega)

namespace Numeral

theorem isWholePart_of_head? {cs : List Char} (hcs : cs ≠ []) (hhead : cs.head? ≠ some '0') :
    isWholePart cs = true := by
  rw [isWholePart.eq_def]
  split
  · exact absurd rfl hcs
  · exact absurd rfl hhead
  · rfl

theorem isWholePart_digitChars (n : Nat) : isWholePart (digitChars n) = true := by
  by_cases hn : n = 0
  · subst hn
    rfl
  · exact isWholePart_of_head? (digitChars_ne_nil n) (head?_digitChars_ne hn)

/-! ## Spelling -/

/-- **A numeral that can be spelled.** -/
structure WellFormed (n : Numeral) : Prop where
  isWhole : isWholePart n.whole = true
  whole : ∀ c ∈ n.whole, c.isDigit = true
  fraction : ∀ c ∈ n.fraction, c.isDigit = true
  exponent : ∀ e ∈ n.exponent, e.2 ≠ [] ∧ ∀ c ∈ e.2, c.isDigit = true

def signChars (negative : Bool) : List Char := if negative then ['-'] else []

def fractionChars (digits : List Char) : List Char := if digits = [] then [] else '.' :: digits

def exponentChars : Option (Bool × List Char) → List Char
  | none => []
  | some (negative, digits) => 'e' :: (if negative then '-' else '+') :: digits

/-- **How a numeral is spelled**, with a sign before every exponent. -/
def chars (n : Numeral) : List Char :=
  signChars n.negative ++ (n.whole ++ (fractionChars n.fraction ++ exponentChars n.exponent))

theorem head?_exponentChars (e : Option (Bool × List Char)) : ∀ c ∈ (exponentChars e).head?, c = 'e' := by
  cases e with
  | none => simp [exponentChars]
  | some e => simp [exponentChars]

theorem exponent?_exponentChars {e : Option (Bool × List Char)}
    (h : ∀ x ∈ e, x.2 ≠ [] ∧ ∀ c ∈ x.2, c.isDigit = true) : exponent? (exponentChars e) = some e := by
  cases e with
  | none => rfl
  | some e =>
    obtain ⟨negative, digits⟩ := e
    obtain ⟨hsome, hdigits⟩ := h (negative, digits) rfl
    have hall : digits.all Char.isDigit = true := List.all_eq_true.2 hdigits
    cases negative <;> simp [exponentChars, exponent?, splitSign, hsome, hall]

theorem fraction?_append {fraction rest : List Char} (hf : ∀ c ∈ fraction, c.isDigit = true)
    (hr : ∀ c ∈ rest.head?, c = 'e') : fraction? (fractionChars fraction ++ rest) = some (fraction, rest) := by
  have hstop : ∀ c ∈ rest.head?, c.isDigit = false := fun c hc => by rw [hr c hc]; decide
  by_cases hnil : fraction = []
  · subst hnil
    cases rest with
    | nil => rfl
    | cons c rest =>
      obtain rfl := hr c rfl
      rfl
  · have hsome : fraction.isEmpty = false := by simpa using hnil
    rw [fractionChars, if_neg hnil, List.cons_append, fraction?, splitDigits_append hf hstop]
    simp [hsome]

/-- **A numeral is read back from its spelling.** -/
theorem ofChars?_chars {n : Numeral} (h : n.WellFormed) : ofChars? n.chars = some n := by
  obtain ⟨negative, whole, fraction, exponent⟩ := n
  obtain ⟨hwhole, hdigits, hfraction, hexponent⟩ := h
  dsimp only at hwhole hdigits hfraction hexponent
  have hstop : ∀ c ∈ (fractionChars fraction ++ exponentChars exponent).head?, c.isDigit = false := by
    rw [fractionChars]
    split
    · exact fun c hc => by rw [head?_exponentChars exponent c hc]; decide
    · simp
  have hsplit := splitDigits_append hdigits hstop
  have hrest := fraction?_append hfraction (head?_exponentChars exponent)
  cases negative with
  | true => simp [ofChars?, chars, signChars, hsplit, hwhole, hrest, exponent?_exponentChars hexponent]
  | false =>
    cases whole with
    | nil => cases hwhole
    | cons c cs =>
      have hc : c ≠ '-' := fun hc => by
        have hdigit := hdigits c List.mem_cons_self
        rw [hc] at hdigit
        cases hdigit
      rw [List.cons_append] at hsplit
      simp [ofChars?, chars, signChars, hc, hsplit, hwhole, hrest, exponent?_exponentChars hexponent]

theorem isRunChar_of_isDigit {c : Char} (h : c.isDigit = true) : isRunChar c = true := by
  simp [isRunChar, Char.isAlphanum, h]

/-- A spelling is one run. -/
theorem isRunChar_of_mem_chars {n : Numeral} (h : n.WellFormed) : ∀ c ∈ n.chars, isRunChar c = true := by
  obtain ⟨negative, whole, fraction, exponent⟩ := n
  obtain ⟨-, hdigits, hfraction, hexponent⟩ := h
  intro c hc
  rw [chars, List.mem_append, List.mem_append, List.mem_append] at hc
  rcases hc with hc | hc | hc | hc
  · cases negative <;> simp [signChars] at hc
    rw [hc]
    decide
  · exact isRunChar_of_isDigit (hdigits c hc)
  · rw [fractionChars] at hc
    split at hc
    · cases hc
    · rcases List.mem_cons.1 hc with rfl | hc
      · decide
      · exact isRunChar_of_isDigit (hfraction c hc)
  · cases exponent with
    | none => cases hc
    | some e =>
      obtain ⟨negative, digits⟩ := e
      rcases List.mem_cons.1 hc with rfl | hc
      · decide
      · rcases List.mem_cons.1 hc with rfl | hc
        · cases negative <;> decide
        · exact isRunChar_of_isDigit ((hexponent _ rfl).2 c hc)

theorem chars_ne_nil {n : Numeral} (h : n.WellFormed) : n.chars ≠ [] := by
  have hwhole : n.whole ≠ [] := fun hnil => by
    have := h.isWhole
    rw [hnil] at this
    cases this
  simp [chars, hwhole]

/-- A word is no spelling: some digit stands in one. -/
theorem exists_isDigit_mem_chars {n : Numeral} (h : n.WellFormed) : ∃ c ∈ n.chars, c.isDigit = true := by
  cases hw : n.whole with
  | nil =>
    have := h.isWhole
    rw [hw] at this
    cases this
  | cons c cs =>
    have hc : c ∈ n.whole := hw ▸ List.mem_cons_self
    exact ⟨c, by simp [chars, hc], h.whole c hc⟩

end Numeral

/-! ## Integers -/

namespace WideInteger

/-- The numeral of an integer. -/
def numeral (i : WideInteger) : Numeral := ⟨decide (i.value < 0), digitChars i.value.natAbs, [], none⟩

theorem wellFormed_numeral (i : WideInteger) : i.numeral.WellFormed where
  isWhole := Numeral.isWholePart_digitChars _
  whole _ hc := isDigit_of_mem_digitChars hc
  fraction _ hc := by cases hc
  exponent _ he := by cases he

theorem chars_numeral (i : WideInteger) : i.numeral.chars = (toString i.value).toList := by
  obtain ⟨value, fits⟩ := i
  cases value with
  | ofNat n =>
    show Numeral.chars _ = n.repr.toList
    simp [numeral, Numeral.chars, Numeral.signChars, Numeral.fractionChars, Numeral.exponentChars, digitChars,
      Nat.toList_repr]
  | negSucc n =>
    show Numeral.chars _ = ("-" ++ (n + 1).repr).toList
    simp [numeral, Numeral.chars, Numeral.signChars, Numeral.fractionChars, Numeral.exponentChars, digitChars,
      Nat.toList_repr, Int.negSucc_lt_zero]

theorem toJson?_numeral (i : WideInteger) : i.numeral.toJson? = some (.integer i) := by
  have hinteger : i.numeral.toInteger? = some i := by
    obtain ⟨value, fits⟩ := i
    have hvalue : (if value < 0 then -(value.natAbs : Int) else value.natAbs) = value := by
      split <;> omega
    have hzero : ¬ (value < 0 ∧ (value.natAbs : Int) = 0) := by omega
    have hwide : ofInt? value = some ⟨value, fits⟩ := dif_pos fits
    simp only [Numeral.toInteger?, numeral, digitsValue_digitChars, List.isEmpty_nil, Bool.not_true, Option.isSome_none,
      Bool.false_or, Bool.and_eq_true, decide_eq_true_eq, beq_iff_eq, hzero, if_false, hvalue, hwide]
  rw [Numeral.toJson?, hinteger]

end WideInteger

/-! ## Numbers -/

/-- **The spelling of a numeral without a sign that is no integer**: one with a fraction or an exponent. -/
def Numeral.IsFractional (cs : List Char) : Prop := ∃ n : Numeral, n.WellFormed ∧ n.negative = false ∧ n.chars = cs ∧
  (n.fraction ≠ [] ∨ n.exponent ≠ none)

section
variable {whole fraction : List Char} (hwhole : Numeral.isWholePart whole = true)
  (hw : ∀ c ∈ whole, c.isDigit = true) (hf : ∀ c ∈ fraction, c.isDigit = true)
include hwhole hw hf

theorem Numeral.isFractional_point (hsome : fraction ≠ []) : IsFractional (whole ++ '.' :: fraction) := by
  refine ⟨⟨false, whole, fraction, none⟩, ⟨hwhole, hw, hf, by simp⟩, rfl, ?_, .inl hsome⟩
  simp [chars, signChars, fractionChars, exponentChars, hsome]

theorem Numeral.isFractional_exponent (negative : Bool) (k : Nat) :
    IsFractional (whole ++ (fractionChars fraction ++ exponentChars (some (negative, digitChars k)))) := by
  refine ⟨⟨false, whole, fraction, some (negative, digitChars k)⟩, ⟨hwhole, hw, hf, ?_⟩, rfl, rfl, .inr (by simp)⟩
  rintro _ ⟨⟩
  exact ⟨digitChars_ne_nil k, fun c hc => isDigit_of_mem_digitChars hc⟩

end

namespace Layout

theorem toList_zeros (n : Nat) : (zeros n).toList = List.replicate n '0' := String.toList_ofList

theorem isDigit_of_mem_zeros {n : Nat} {c : Char} (h : c ∈ List.replicate n '0') : c.isDigit = true := by
  rw [(List.mem_replicate.1 h).2]
  rfl

/-- **A stored decimal is the spelling of a numeral** that has a fraction or an exponent. -/
theorem isFractional_renderDecimal (d : Decimal) : Numeral.IsFractional (stored.renderDecimal d).toList := by
  have hdigit : ∀ c ∈ digitChars d.digits, c.isDigit = true := fun c hc => isDigit_of_mem_digitChars hc
  have hzero : ∀ c ∈ ['0'], c.isDigit = true := List.forall_mem_singleton.2 rfl
  have hpart : Numeral.isWholePart ['0'] = true := rfl
  have hfront : ∀ k, ∀ c ∈ (digitChars d.digits).take k, c.isDigit = true := fun _ c hc => hdigit c (List.mem_of_mem_take hc)
  have hback : ∀ k, ∀ c ∈ (digitChars d.digits).drop k, c.isDigit = true := fun _ c hc => hdigit c (List.mem_of_mem_drop hc)
  by_cases hd : d.digits = 0
  · rw [renderDecimal, if_pos hd]
    exact Numeral.isFractional_point hpart hzero hzero (by simp)
  have hhead := head?_digitChars_ne hd
  have hsome := digitChars_ne_nil d.digits
  have htake : ∀ k, 0 < k → Numeral.isWholePart ((digitChars d.digits).take k) = true := fun k hk => by
    obtain ⟨c, cs, hcs⟩ := List.exists_cons_of_ne_nil hsome
    obtain ⟨k, rfl⟩ : ∃ j, k = j + 1 := ⟨k - 1, by omega⟩
    refine Numeral.isWholePart_of_head? (by simp [hcs]) ?_
    rw [hcs] at hhead ⊢
    exact hhead
  rw [renderDecimal, if_neg hd]
  dsimp only
  split
  · split
    · -- Zeros and a fraction of nothing follow the digits.
      have hwhole : Numeral.isWholePart (digitChars d.digits ++ List.replicate d.exponent.toNat '0') = true :=
        Numeral.isWholePart_of_head? (by simp [hsome]) (by rwa [List.head?_append_of_ne_nil _ hsome])
      have hdigits : ∀ c ∈ digitChars d.digits ++ List.replicate d.exponent.toNat '0', c.isDigit = true :=
        List.forall_mem_append.2 ⟨hdigit, fun c hc => isDigit_of_mem_zeros hc⟩
      simpa [toList_zeros, stored] using Numeral.isFractional_point hwhole hdigits hzero (by simp)
    · split
      · -- The point stands between the digits.
        rename_i hexponent hreach
        have hlt : d.reach.toNat < (digitChars d.digits).length := by
          rw [Decimal.reach] at hreach ⊢
          omega
        have hdrop : (digitChars d.digits).drop d.reach.toNat ≠ [] := by simpa using hlt
        simpa using Numeral.isFractional_point (htake d.reach.toNat (by omega)) (hfront _) (hback _) hdrop
      · -- Zeros stand between the point and the digits.
        have hdigits : ∀ c ∈ List.replicate (-d.reach).toNat '0' ++ digitChars d.digits, c.isDigit = true :=
          List.forall_mem_append.2 ⟨fun c hc => isDigit_of_mem_zeros hc, hdigit⟩
        simpa [toList_zeros] using Numeral.isFractional_point hpart hzero hdigits (by simp [hsome])
  · -- One digit stands before the point.
    have hpower : (toString (d.reach - 1).natAbs).toList = digitChars (d.reach - 1).natAbs := Nat.toList_repr
    have hdot : (if ((digitChars d.digits).drop 1).isEmpty then "" else
        "." ++ String.ofList ((digitChars d.digits).drop 1)).toList =
        Numeral.fractionChars ((digitChars d.digits).drop 1) := by
      rw [Numeral.fractionChars]
      cases hrest : (digitChars d.digits).drop 1 with
      | nil => rfl
      | cons c cs => simp
    have hexponent := Numeral.isFractional_exponent (htake 1 (by decide)) (hfront 1) (hback 1)
      (decide (d.reach - 1 < 0)) (d.reach - 1).natAbs
    rw [String.toList_append, String.toList_append, String.toList_append, String.toList_ofList, hdot, hpower]
    by_cases hnegative : d.reach - 1 < 0 <;>
      simpa [Numeral.exponentChars, hnegative] using hexponent

end Layout

namespace Number

/-- **The text of a finite number is the spelling of a numeral** that is no integer. -/
theorem exists_numeral {x : Number} (h : x.isFinite = true) : ∃ n : Numeral, n.WellFormed ∧
    n.chars = x.toStored.toList ∧ n.toInteger? = none := by
  cases x with
  | nan | infinite => cases h
  | finite negative m =>
    obtain ⟨n, hform, hsign, hchars, hkind⟩ := Layout.isFractional_renderDecimal (Decimal.shortest Layout.stored.tie m)
    refine ⟨{ n with negative }, ⟨hform.isWhole, hform.whole, hform.fraction, hform.exponent⟩, ?_, ?_⟩
    · have hplain : n.whole ++ (Numeral.fractionChars n.fraction ++ Numeral.exponentChars n.exponent) = n.chars := by
        rw [Numeral.chars, hsign]
        rfl
      rw [toStored, Layout.render, String.toList_append, ← hchars, ← hplain]
      cases negative <;> rfl
    · rw [Numeral.toInteger?, if_pos]
      rcases hkind with hkind | hkind
      · simp [hkind]
      · simp [Option.isSome_iff_ne_none.2 hkind]

/-- **A number that is read back from its text.**  Reading the quick way can miss the last bit, so not every one is. -/
def ReadsBack (x : Number) : Prop := (Numeral.ofChars? x.toStored.toList).bind Numeral.toNumber? = some x

instance (x : Number) : Decidable x.ReadsBack := inferInstanceAs (Decidable (_ = _))

/-- There is no text for infinities and NaN. -/
theorem ReadsBack.isFinite {x : Number} (h : x.ReadsBack) : x.isFinite = true := by
  cases x with
  | finite => rfl
  | nan | infinite =>
    have hnull : Numeral.ofChars? "null".toList = none := by decide +kernel
    change (Numeral.ofChars? "null".toList).bind _ = _ at h
    rw [hnull] at h
    cases h

/-- The product of 5 and the double nearest to `1e24` is nearer to the double below `5e24`. -/
example : ¬ (ofNat (5 * 10 ^ 24)).ReadsBack := by decide +kernel

/-- The numeral that a number is spelled as, if it is finite. -/
def numeral (x : Number) : Numeral := (Numeral.ofChars? x.toStored.toList).getD ⟨false, [], [], none⟩

theorem numeral_eq {x : Number} (h : x.isFinite = true) :
    x.numeral.WellFormed ∧ x.numeral.chars = x.toStored.toList ∧ x.numeral.toInteger? = none := by
  obtain ⟨n, hform, hchars, hkind⟩ := exists_numeral h
  have hnumeral : x.numeral = n := by rw [numeral, ← hchars, Numeral.ofChars?_chars hform]; rfl
  rw [hnumeral]
  exact ⟨hform, hchars, hkind⟩

theorem ReadsBack.toJson?_numeral {x : Number} (h : x.ReadsBack) : x.numeral.toJson? = some (.number x) := by
  obtain ⟨hform, hchars, hkind⟩ := numeral_eq h.isFinite
  have hvalue : x.numeral.toNumber? = some x := by rwa [ReadsBack, ← hchars, Numeral.ofChars?_chars hform] at h
  rw [Numeral.toJson?, hkind, hvalue]
  rfl

end Number
end Schemata
