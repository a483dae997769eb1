import Schemata.Proofs.Notation.Grammar
/-!
# Words and names are read

Where a word of type notation ends and what it means.

- `Notation.Stops`: where a form of a level ends.
- `Notation.gets_meaning`: primitive types, numbers and truth values are read from their words.
- `Notation.gets_name`: a name is read up to what stops a form.
-/
namespace Schemata

namespace Notation

variable {item : Reader Node} {count level : Nat} {called : String → Bool} {bundled : String → Fields Node}
  {rest s : List Char} {word : String}

/-! ## Where a form ends -/

/-- How loosely the operator binds that a text begins with, if it does. -/
def looseness : List Char → Nat
  | '[' :: ']' :: _ => 1
  | ' ' :: '&' :: _ => 2
  | ' ' :: '|' :: _ => 3
  | _ => 5

/-- The characters that can follow a form. -/
def isStop (c : Char) : Bool := [',', ']', ' ', ')', '>', '\x7d', '['].contains c

/-- **Where a form of a level ends**: no word goes on, and no operator takes a part of the form. -/
def Stops (level : Nat) (s : List Char) : Prop := (∀ c ∈ s.head?, isStop c = true) ∧ level < looseness s

theorem Stops.mono {level level' : Nat} {s : List Char} (h : Stops level' s) (hle : level ≤ level') : Stops level s :=
  ⟨h.1, Nat.lt_of_le_of_lt hle h.2⟩

theorem stops_zero {s : List Char} (h : ∀ c ∈ s.head?, isStop c = true) : Stops 0 s := by
  refine ⟨h, ?_⟩
  unfold looseness
  split <;> decide

theorem stops_nil : Stops 4 [] := ⟨by simp, by decide⟩

theorem stops_cons {c : Char} (hc : c ∈ [',', ']', ')', '>', '\x7d']) (s : List Char) : Stops 4 (c :: s) := by
  simp only [List.mem_cons, List.not_mem_nil, or_false] at hc
  rcases hc with rfl | rfl | rfl | rfl | rfl <;> exact ⟨by simp [isStop], by simp [looseness]⟩

theorem stops_blank {c : Char} (hc : c ≠ '&' ∧ c ≠ '|') (s : List Char) : Stops 4 (' ' :: c :: s) := by
  refine ⟨by simp [isStop], ?_⟩
  unfold looseness
  split <;> simp_all

theorem not_isWordChar_of_stops {level : Nat} {s : List Char} (h : Stops level s) :
    ∀ c ∈ s.head?, isWordChar c = false ∧ c ≠ '<' := by
  intro c hc
  have hstop := h.1 c hc
  simp only [isStop, List.contains_iff_mem, List.mem_cons, List.not_mem_nil, or_false] at hstop
  rcases hstop with rfl | rfl | rfl | rfl | rfl | rfl | rfl <;> decide

/-! ## Words -/

theorem isWord_iff {cs : List Char} : isWord cs = true ↔ cs ≠ [] ∧ cs.head? ≠ some '.' ∧ ∀ c ∈ cs, isWordChar c = true := by
  simp [isWord, and_assoc]

theorem atom_of_word {cs : List Char} (h : isWord cs = true) :
    atom item count called bundled (cs ++ rest) = worded item count called bundled (cs ++ rest) := by
  obtain ⟨hsome, -, hchars⟩ := isWord_iff.1 h
  obtain ⟨c, cs, rfl⟩ := List.exists_cons_of_ne_nil hsome
  have hc : isWordChar c = true := hchars c List.mem_cons_self
  simp only [isWordChar, Bool.not_eq_true', List.contains_eq_mem, decide_eq_false_iff_not, List.mem_cons,
    List.not_mem_nil, or_false, not_or] at hc
  simp only [List.cons_append, atom, hc, if_false]

theorem atom_open (h : isWord word.toList = true) (rest : List Char) :
    atom item count called bundled (word.toList ++ '<' :: rest) = headed item count called word rest := by
  obtain ⟨-, -, hchars⟩ := isWord_iff.1 h
  have hopen : ∀ c ∈ ('<' :: rest).head?, isWordChar c = false := by
    rintro _ ⟨⟩
    decide
  have hmore : ('<' :: rest).dropPrefix? ['<'] = some rest := dropPrefix?_append ['<'] rest
  rw [atom_of_word h, worded]
  simp only [takeWhile_append_eq hchars hopen, dropWhile_append_eq hchars hopen, h, hmore, Bool.not_true,
    String.ofList_toList]
  rfl

theorem atom_stop {level : Nat} (h : isWord word.toList = true) (hs : Stops level s) :
    atom item count called bundled (word.toList ++ s) =
      if word = "cyclic" then do
        let (root, rest) ← name (← s.dropPrefix? [' '])
        return (.cyclic (bundled root) root, rest)
      else if word = "new" then do signature item count .constructor (← s.dropPrefix? " (".toList)
      else some (.of ((meaning? word).getD (.ref word)), s) := by
  obtain ⟨-, -, hchars⟩ := isWord_iff.1 h
  have hstop := not_isWordChar_of_stops hs
  have hend : ∀ c ∈ s.head?, isWordChar c = false := fun c hc => (hstop c hc).1
  have hopen : s.dropPrefix? ['<'] = none := dropPrefix?_eq_none fun c hc => (hstop c hc).2
  rw [atom_of_word h, worded]
  simp only [takeWhile_append_eq hchars hend, dropWhile_append_eq hchars hend, h, hopen, Bool.not_true, String.ofList_toList]
  rfl

theorem meaning?_word (p : Primitive) : meaning? p.word = some (.primitive p) := by
  have hnumber : Number.ofText? p.word = none := by cases p <;> decide +kernel
  have htrue : p.word ≠ "true" ∧ p.word ≠ "false" := by cases p <;> decide
  have hfound : primitives.find? (·.word = p.word) = some p := by cases p <;> decide
  simp only [meaning?, hnumber, htrue, hfound, if_false, Option.map_some]

theorem meaning?_toKey (x : Number) : meaning? x.toKey = some (.literal (.number x)) := by
  simp only [meaning?, Number.ofText?_toKey, if_true]

theorem meaning?_truth (b : Bool) : meaning? (Literal.boolean b).toKey = some (.literal (.boolean b)) := by
  have hnumber : Number.ofText? (Literal.boolean b).toKey = none := by cases b <;> decide +kernel
  unfold meaning?
  rw [hnumber]
  cases b <;> rfl

theorem isWord_word (p : Primitive) : isWord p.word.toList = true := by cases p <;> decide

theorem isWordChar_of_isDigit {c : Char} (h : c.isDigit = true) : isWordChar c = true := by
  cases hc : isWordChar c with
  | true => rfl
  | false =>
    simp only [isWordChar, Bool.not_eq_false', List.contains_iff_mem, List.mem_cons, List.not_mem_nil, or_false] at hc
    rcases hc with rfl | rfl | rfl | rfl | rfl | rfl | rfl | rfl | rfl | rfl | rfl | rfl | rfl | rfl <;> cases h

theorem isWord_toKey (x : Number) : isWord x.toKey.toList = true := by
  cases x with
  | nan => decide
  | infinite negative => cases negative <;> decide
  | finite negative m =>
    obtain ⟨c, cs, htext, hc⟩ := Layout.head?_renderDecimal (Decimal.shortest Layout.plain.tie m)
    have hchars : ∀ d ∈ c :: cs, isWordChar d = true := fun d hd =>
      (Layout.isDigit_or_point _ (htext ▸ hd)).elim isWordChar_of_isDigit fun hd => by rw [hd]; decide
    have hpoint : c ≠ '.' := by
      rintro rfl
      cases hc
    rw [Number.toKey, Layout.render, String.toList_append, htext, isWord_iff]
    cases negative with
    | true => exact ⟨by simp, by simp, List.forall_mem_cons.2 ⟨by decide, hchars⟩⟩
    | false => exact ⟨by simp, by simpa using hpoint, hchars⟩

theorem ne_of_meaning? {k : Kind Node} (h : meaning? word = some k) : word ≠ "cyclic" ∧ word ≠ "new" := by
  have hcyclic : (meaning? "cyclic").isSome = false := by decide +kernel
  have hnew : (meaning? "new").isSome = false := by decide +kernel
  constructor <;> rintro rfl <;> simp_all

/-- **A word that means something** is read as that. -/
theorem gets_meaning {k : Kind Node} (h : isWord word.toList = true) (hk : meaning? word = some k) :
    (atom item count called bundled).Gets word.toList (.of k) (Stops 0) := by
  intro s hs
  obtain ⟨hcyclic, hnew⟩ := ne_of_meaning? hk
  simp only [atom_stop h hs, hcyclic, hnew, if_false, hk, Option.getD_some]

theorem closing_append {depth : Nat} {arrow : Bool} {cs inner left : List Char}
    (h : closing depth arrow cs = some (inner, left)) :
    closing depth arrow (cs ++ s) = some (inner, left ++ s) := by
  induction cs generalizing depth arrow inner left with
  | nil => cases h
  | cons c cs ih =>
    have hprepend : ∀ {depth arrow}, prepend c (closing depth arrow cs) = some (inner, left) →
        prepend c (closing depth arrow (cs ++ s)) = some (inner, left ++ s) := by
      intro depth arrow h
      obtain ⟨⟨inner', left'⟩, hrest, heq⟩ := Option.map_eq_some_iff.1 h
      obtain ⟨rfl, rfl⟩ := Prod.mk.inj heq
      rw [ih hrest]
      rfl
    rw [closing] at h
    rw [List.cons_append, closing]
    split
    · rw [if_pos ‹_›] at h
      split
      · rw [if_pos ‹_›] at h
        cases h
        rfl
      · rw [if_neg ‹_›] at h
        exact hprepend h
    · rw [if_neg ‹_›] at h
      exact hprepend h

theorem takeWhile_append_of_dropWhile {p : Char → Bool} {cs rest : List Char} (h : cs.dropWhile p ≠ []) :
    (cs ++ rest).takeWhile p = cs.takeWhile p ∧ (cs ++ rest).dropWhile p = cs.dropWhile p ++ rest := by
  induction cs with
  | nil => exact absurd rfl h
  | cons c cs ih =>
    by_cases hc : p c = true
    · simp only [List.dropWhile_cons, hc, if_true] at h
      simp [hc, ih h]
    · simp [hc]

/-- **A name is read** up to what stops a form. -/
theorem gets_name {level : Nat} {text : String} (h : isName text = true) : name.Gets text.toList text (Stops level) := by
  intro s hs
  have hstop := not_isWordChar_of_stops hs
  rw [isName, beq_iff_eq, name] at h
  rw [name]
  split at h
  · rename_i more hopen
    obtain ⟨⟨inner, left⟩, hclosing, heq⟩ := Option.map_eq_some_iff.1 h
    obtain ⟨htext, rfl⟩ := Prod.mk.inj heq
    have hmore := eq_append_of_dropPrefix? hopen
    have hsome : text.toList.dropWhile isWordChar ≠ [] := by rw [hmore]; exact List.cons_ne_nil _ _
    rw [(takeWhile_append_of_dropWhile hsome).1, (takeWhile_append_of_dropWhile hsome).2, hmore, List.append_assoc,
      dropPrefix?_append]
    simp only [closing_append hclosing, Option.map_some, htext, List.nil_append]
  · obtain ⟨htext, hrest⟩ := Prod.mk.inj (Option.some.inj h)
    have hall : ∀ c ∈ text.toList, isWordChar c = true := by simpa using hrest
    have hend : ∀ c ∈ s.head?, isWordChar c = false := fun c hc => (hstop c hc).1
    have hopen : s.dropPrefix? ['<'] = none := dropPrefix?_eq_none fun c hc => (hstop c hc).2
    rw [takeWhile_append_eq hall hend, dropWhile_append_eq hall hend, String.ofList_toList, hopen]

end Notation
end Schemata
