import Mathlib.Data.List.Forall2
import Mathlib.Data.List.TakeWhile
/-!
# Readers

A reader takes a value from the front of a text and leaves what follows.

- `Reader.Gets read text x after`: the value is read from the text, whatever of `after` follows.
- `Reader.separated`, `Reader.enclosed`: values with separators between them, and up to a closing mark.

Main statements: `Reader.gets_separated` and `Reader.gets_enclosed`.
-/
namespace Schemata

open List (Forall₂)

/-- **A way to take a value from the front of a text**, with what follows it. -/
abbrev Reader (α : Type) := List Char → Option (α × List Char)

theorem dropPrefix?_append (mark rest : List Char) : (mark ++ rest).dropPrefix? mark = some rest :=
  List.dropPrefix?_eq_some_iff.2 ⟨mark, rfl, beq_self_eq_true mark⟩

theorem eq_append_of_dropPrefix? {cs mark rest : List Char} (h : cs.dropPrefix? mark = some rest) : cs = mark ++ rest := by
  obtain ⟨_, rfl, hmark⟩ := List.dropPrefix?_eq_some_iff.1 h
  rw [eq_of_beq hmark]

theorem dropPrefix?_eq_none {cs mark : List Char} {c : Char} (h : ∀ d ∈ cs.head?, d ≠ c) :
    cs.dropPrefix? (c :: mark) = none := by
  cases hdrop : cs.dropPrefix? (c :: mark) with
  | none => rfl
  | some rest =>
    rw [eq_append_of_dropPrefix? hdrop] at h
    exact absurd rfl (h c rfl)

section
variable {p : Char → Bool} {front rest : List Char} (hfront : ∀ c ∈ front, p c = true)
  (hrest : ∀ c ∈ rest.head?, p c = false)
include hfront hrest

theorem takeWhile_append_eq : (front ++ rest).takeWhile p = front := by
  have hstop : rest.takeWhile p = [] := by
    cases rest with
    | nil => rfl
    | cons c rest => simp [hrest c rfl]
  rw [List.takeWhile_append_of_pos hfront, hstop, List.append_nil]

theorem dropWhile_append_eq : (front ++ rest).dropWhile p = rest := by
  have hstop : rest.dropWhile p = rest := by
    cases rest with
    | nil => rfl
    | cons c rest => simp [hrest c rfl]
  rw [List.dropWhile_append_of_pos hfront, hstop]

end

namespace Reader

variable {α : Type} {read item : Reader α} {text texts : List Char} {x : α} {after : List Char → Prop}

/-- **What is read from a text**, as long as what follows it is what may follow. -/
def Gets (read : Reader α) (text : List Char) (x : α) (after : List Char → Prop) : Prop :=
  ∀ s, after s → read (text ++ s) = some (x, s)

theorem Gets.mono {before : List Char → Prop} (h : read.Gets text x after) (hle : ∀ s, before s → after s) :
    read.Gets text x before :=
  fun s hs => h s (hle s hs)

/-! ## Separated values -/

/-- **One or more values** with separators between them, `count` of them at most. -/
def separated (separator : List Char) (item : Reader α) : Nat → Reader (List α)
  | 0, _ => none
  | count + 1, cs =>
    match item cs with
    | none => none
    | some (x, rest) =>
      match rest.dropPrefix? separator with
      | none => some ([x], rest)
      | some more => (separated separator item count more).map fun (xs, rest) => (x :: xs, rest)

variable {separator : List Char} {count : Nat}

theorem separated_eq_none {cs : List Char} (h : item cs = none) : separated separator item count cs = none := by
  cases count with
  | zero => rfl
  | succ count => simp only [separated, h]

theorem gets_separated {texts : List (List Char)} {xs : List α} (h : Forall₂ (item.Gets · · after) texts xs)
    (hsome : xs ≠ []) (hcount : xs.length ≤ count) (hafter : ∀ s, after (separator ++ s)) :
    (separated separator item count).Gets (separator.intercalate texts) xs
      fun s => after s ∧ s.dropPrefix? separator = none := by
  rintro s ⟨hs, hend⟩
  induction h generalizing count with
  | nil => exact absurd rfl hsome
  | @cons text x texts xs hx hxs ih =>
    obtain ⟨count, rfl⟩ := Nat.exists_eq_succ_of_ne_zero (Nat.pos_iff_ne_zero.1 (Nat.lt_of_lt_of_le Nat.one_pos
      (Nat.le_trans (Nat.succ_le_succ (Nat.zero_le _)) hcount)))
    cases hxs with
    | nil => simp only [List.intercalate_singleton, separated, hx s hs, hend]
    | @cons text' x' texts xs hx' hxs =>
      rw [List.intercalate_cons_cons, List.append_assoc, List.append_assoc]
      have hnext := ih (List.cons_ne_nil _ _) (Nat.le_of_succ_le_succ hcount)
      simp only [separated, hx _ (hafter _), dropPrefix?_append, hnext, Option.map_some]

/-! ## Enclosed values -/

/-- **What is read up to a closing mark**; nothing may stand before the mark. -/
def enclosed (close : Char) (items : Reader (List α)) : Reader (List α) := fun cs =>
  match items cs with
  | some (xs, rest) => (rest.dropPrefix? [close]).map fun rest => (xs, rest)
  | none => (cs.dropPrefix? [close]).map fun rest => ([], rest)

theorem gets_enclosed {close : Char} {items : Reader (List α)} {xs : List α} (h : items.Gets text xs after)
    (hclose : ∀ s, after (close :: s)) : (enclosed close items).Gets (text ++ [close]) xs fun _ => True := by
  intro s _
  have hread : items (text ++ ([close] ++ s)) = some (xs, [close] ++ s) := h _ (hclose s)
  rw [List.append_assoc, enclosed, hread]
  simp only [dropPrefix?_append, Option.map_some]

theorem gets_enclosed_nil {close : Char} {items : Reader (List α)} (h : ∀ s, items (close :: s) = none) :
    (enclosed close items).Gets [close] [] fun _ => True := by
  intro s _
  have hread : items ([close] ++ s) = none := h s
  simp only [enclosed, hread, dropPrefix?_append, Option.map_some]

/-- **Enclosed values with separators between them**, perhaps none. -/
theorem gets_enclosed_separated {close : Char} {texts : List (List Char)} {xs : List α}
    (h : Forall₂ (item.Gets · · after) texts xs) (hcount : xs.length ≤ count) (hafter : ∀ s, after (separator ++ s))
    (hclose : ∀ s, after (close :: s) ∧ (close :: s).dropPrefix? separator = none)
    (hdead : ∀ s, item (close :: s) = none) :
    (enclosed close (separated separator item count)).Gets (separator.intercalate texts ++ [close]) xs fun _ => True := by
  cases h with
  | nil => exact gets_enclosed_nil fun s => separated_eq_none (hdead s)
  | cons hx hxs =>
    exact gets_enclosed (gets_separated (.cons hx hxs) (List.cons_ne_nil _ _) hcount hafter) hclose

end Reader
end Schemata
