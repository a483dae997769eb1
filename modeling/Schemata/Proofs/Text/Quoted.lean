import Schemata.Configuration.CodePoint
import Schemata.Proofs.Json.Rendering
import Schemata.Text.Quoted
/-!
# Reading quoted text

A text is read back from its quotes, and it is known where it ends.

- `unquote?`: reads the rest of a text in double quotes, up to the closing quote.

Main statement: `unquote?_quoted`.
-/
namespace Schemata

/-- The character that a letter after a backslash stands for. -/
def unescaped? (c : Char) : Option Char :=
  [('"', '"'), ('\\', '\\'), ('t', '\t'), ('n', '\n'), ('r', '\r'), ('0', '\x00')].lookup c

/-- **The rest of a text in double quotes**, and what follows it; with digits, inside of the braces that they stand in, the
last of them first. -/
def unquote? : Option (List Char) → List Char → Option (List Char × List Char)
  | _, [] => none
  | some digits, c :: cs =>
    if c = '\x7d' then (codePoint? digits.reverse).bind fun e => prepend e (unquote? none cs)
    else unquote? (some (c :: digits)) cs
  | none, '\\' :: 'u' :: '\x7b' :: cs => unquote? (some []) cs
  | none, '\\' :: c :: cs => (unescaped? c).bind fun e => prepend e (unquote? none cs)
  | none, c :: cs => if c = '"' then some ([], cs) else prepend c (unquote? none cs)

theorem foldlM_toDigits (n : Nat) :
    (Nat.toDigits 16 n).foldlM (fun value c => (hexValue? c).map (value * 16 + ·)) 0 = some n := by
  induction n using Nat.strongRecOn with
  | ind n ih =>
    by_cases hn : n < 16
    · rw [Nat.toDigits_of_lt_base hn]
      simp [Mode.hexValue?_digitChar hn]
    · rw [Nat.toDigits_of_base_le (by decide) (by omega), List.foldlM_append, ih (n / 16) (by omega)]
      have hdigit := Mode.hexValue?_digitChar (Nat.mod_lt n (by decide : 16 > 0))
      simp [hdigit, Nat.div_add_mod']

theorem codePoint?_toDigits (c : Char) : codePoint? (Nat.toDigits 16 c.toNat) = some c := by
  rw [codePoint?, foldlM_toDigits]
  have hvalid : c.toNat.isValidChar := c.valid
  simp [hvalid]

theorem ne_brace_of_mem_toDigits {n : Nat} {c : Char} (h : c ∈ Nat.toDigits 16 n) : c ≠ '\x7d' := by
  induction n using Nat.strongRecOn with
  | ind n ih =>
    have hdigit : ∀ k < 16, Nat.digitChar k ≠ '\x7d' := by decide
    by_cases hn : n < 16
    · rw [Nat.toDigits_of_lt_base hn, List.mem_singleton] at h
      exact h ▸ hdigit n hn
    · rw [Nat.toDigits_of_base_le (by decide) (by omega), List.mem_append, List.mem_singleton] at h
      rcases h with h | rfl
      · exact ih (n / 16) (by omega) h
      · exact hdigit _ (Nat.mod_lt n (by decide))

theorem unquote?_digits {digits : List Char} (h : ∀ c ∈ digits, c ≠ '\x7d') (seen rest : List Char) :
    unquote? (some seen) (digits ++ '\x7d' :: rest) =
      (codePoint? (seen.reverse ++ digits)).bind fun e => prepend e (unquote? none rest) := by
  induction digits generalizing seen with
  | nil => simp [unquote?]
  | cons c digits ih =>
    have hc : c ≠ '\x7d' := h c List.mem_cons_self
    rw [List.cons_append, unquote?, if_neg hc, ih (fun c hc => h c (List.mem_cons_of_mem _ hc))]
    simp

/-- **What stands for a character in quotes is read as that character.** -/
theorem unquote?_quoteChar (c : Char) (rest : List Char) :
    unquote? none (quoteChar c ++ rest) = prepend c (unquote? none rest) := by
  unfold quoteChar
  by_cases hquote : c = '"'
  · subst c; rfl
  by_cases hbackslash : c = '\\'
  · subst c; rfl
  by_cases htab : c = '\t'
  · subst c; rfl
  by_cases hline : c = '\n'
  · subst c; rfl
  by_cases hreturn : c = '\r'
  · subst c; rfl
  by_cases hzero : c.toNat = 0
  · obtain rfl : c = '\x00' := Char.toNat_inj.1 hzero
    rfl
  simp only [hquote, hbackslash, htab, hline, hreturn, hzero, if_false]
  split
  · simp [unquote?, hquote, hbackslash]
  · have hspelled : ['\\', 'u', '\x7b'] ++ Nat.toDigits 16 c.toNat ++ ['\x7d'] ++ rest =
        '\\' :: 'u' :: '\x7b' :: (Nat.toDigits 16 c.toNat ++ '\x7d' :: rest) := by simp
    rw [hspelled, unquote?, unquote?_digits (fun _ hd => ne_brace_of_mem_toDigits hd), List.reverse_nil, List.nil_append,
      codePoint?_toDigits, Option.bind_some]

/-- **A text is read back from its quotes.** -/
theorem unquote?_quoted (text rest : List Char) :
    unquote? none (text.flatMap quoteChar ++ '"' :: rest) = some (text, rest) := by
  induction text with
  | nil => rfl
  | cons c text ih =>
    rw [List.flatMap_cons, List.append_assoc, unquote?_quoteChar, ih]
    rfl

end Schemata
