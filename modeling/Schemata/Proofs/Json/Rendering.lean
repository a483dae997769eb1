import Schemata.Json.Format
import Schemata.Proofs.Json.Document
import Schemata.Proofs.Json.Numeral
import Schemata.Proofs.Json.Tree
/-!
# Rendered values are scanned as they were meant

What `Json.render` writes in either format is a document with the structure of the value: strings with their characters,
integers and numbers as numerals.  A run of letters and digits ends where something else begins, and something else
follows every value (`Ends`).

- `Json.spelled`: the document that a value is written as.

Main statement: `Document.ofText?_render`.
-/
namespace Schemata

/-- **The document that a value is written as.** -/
def Json.spelled : Json → Document :=
  fold (fun
    | .boolean b => .boolean b
    | .integer i => .number i.numeral
    | .number x => .number x.numeral
    | .string s => .string (some s)
    | _ => .null)
    .array fun fields => .object (fields.map fun e => (some e.1, e.2))

theorem Json.spelled_boolean (b : Bool) : spelled (.boolean b) = .boolean b := rfl

theorem Json.spelled_string (s : String) : spelled (.string s) = .string (some s) := rfl

theorem Json.spelled_array (items : List Json) : spelled (.array items) = .array (items.map spelled) := fold_array _ _ _ _

theorem Json.spelled_object (fields : List (String × Json)) :
    spelled (.object fields) = .object (fields.map fun e => (some e.1, e.2.spelled)) := by
  rw [spelled, fold_object, ← spelled, List.map_map]
  rfl

namespace Mode

variable {mode next : Mode} {c : Char} {cs rest : List Char} {tokens : List Token} {token : Token}

theorem scan?_cons (h : mode.step? c = some (tokens, next)) :
    mode.scan? (c :: cs) = (next.scan? cs).map (tokens ++ ·) := by
  rw [scan?, h]
  cases hs : next.scan? cs <;> simp [hs]

/-- A character that changes the mode and ends no token. -/
theorem scan?_silent (next : Mode) (h : mode.step? c = some ([], next)) : mode.scan? (c :: cs) = next.scan? cs := by
  rw [scan?_cons h]
  simp

/-! ## Runs -/

/-- **The end of a run**: the text ends or goes on with a character that stands in no run. -/
def Ends (rest : List Char) : Prop := ∀ c ∈ rest.head?, isRunChar c = false

theorem start?_of_isRunChar (h : isRunChar c = true) : start? c = some ([], .run [c]) := by
  have hne : ∀ d, isRunChar d = false → c ≠ d := fun d hd hc => by
    rw [hc, hd] at h
    cases h
  simp [start?, h, hne ' ' (by decide), hne '\n' (by decide), hne '\t' (by decide), hne '\r' (by decide),
    hne '"' (by decide), hne '[' (by decide), hne ']' (by decide), hne '\x7b' (by decide), hne '\x7d' (by decide),
    hne ',' (by decide), hne ':' (by decide)]

theorem scan?_run (h : ∀ c ∈ cs, isRunChar c = true) (seen : List Char) :
    (run seen).scan? (cs ++ rest) = (run (cs.reverse ++ seen)).scan? rest := by
  induction cs generalizing seen with
  | nil => rfl
  | cons c cs ih =>
    rw [List.forall_mem_cons] at h
    have hstep : (run seen).step? c = some ([], .run (c :: seen)) := if_pos h.1
    rw [List.cons_append, scan?_silent _ hstep, ih h.2, List.reverse_cons, List.append_assoc]
    rfl

theorem scan?_run_end {seen : List Char} (ht : Token.ofRun? seen.reverse = some token) (hr : Ends rest) :
    (run seen).scan? rest = (between.scan? rest).map (token :: ·) := by
  cases rest with
  | nil =>
    rw [scan?, finish?, ht]
    rfl
  | cons c cs =>
    rw [scan?, scan?, step?, step?, if_neg (by rw [hr c rfl]; decide), ht]
    cases start? c with
    | none => rfl
    | some found =>
      obtain ⟨tokens, next⟩ := found
      cases hs : next.scan? cs <;> simp [hs]

/-- **A run that spells a token**, followed by the end of the run. -/
theorem scan?_word (cs : List Char) (hcs : cs ≠ []) (h : ∀ c ∈ cs, isRunChar c = true) (ht : Token.ofRun? cs = some token)
    (hr : Ends rest) : between.scan? (cs ++ rest) = (between.scan? rest).map (token :: ·) := by
  obtain ⟨c, cs, rfl⟩ := List.exists_cons_of_ne_nil hcs
  rw [List.forall_mem_cons] at h
  have hstart : between.step? c = some ([], run [c]) := start?_of_isRunChar h.1
  rw [List.cons_append, scan?_silent _ hstart, scan?_run h.2]
  exact scan?_run_end (by simpa using ht) hr

theorem scan?_numeral {n : Numeral} (h : n.WellFormed) (hr : Ends rest) :
    between.scan? (n.chars ++ rest) = (between.scan? rest).map (.number n :: ·) := by
  refine scan?_word _ (Numeral.chars_ne_nil h) (Numeral.isRunChar_of_mem_chars h) ?_ hr
  obtain ⟨c, hc, hdigit⟩ := Numeral.exists_isDigit_mem_chars h
  have hword : ∀ word : List Char, word.any Char.isDigit = false → n.chars ≠ word := fun word hw he => by
    rw [List.any_eq_true.2 ⟨c, he ▸ hc, hdigit⟩] at hw
    cases hw
  rw [Token.ofRun?, if_neg (hword _ (by decide)), if_neg (hword _ (by decide)), if_neg (hword _ (by decide)),
    Numeral.ofChars?_chars h]
  rfl

/-! ## Strings -/

/-- What a character in a string is scanned as: most control characters are spelled as units. -/
def pieceOf (c : Char) : Piece :=
  if c < ' ' ∧ c ∉ ['\x08', '\x0c', '\n', '\r', '\t'] then .unit c.toNat else .char c

theorem chars?_unit {value : Nat} (h : value < 0xD800) (pieces : List Piece) :
    Piece.chars? (.unit value :: pieces) = (Piece.chars? pieces).map (Char.ofNat value :: ·) := by
  have hhigh : ¬ (0xD800 ≤ value ∧ value < 0xDC00) := by omega
  have hlow : ¬ (0xDC00 ≤ value ∧ value < 0xE000) := by omega
  have hlone : ¬ (0xD800 ≤ value ∧ value < 0xE000) := by omega
  cases pieces with
  | nil => simp only [Piece.chars?, if_neg hlone]
  | cons piece pieces =>
    cases piece with
    | char c => simp only [Piece.chars?, if_neg hlone]
    | unit low => rw [Piece.chars?, if_neg hhigh, if_neg hlow]

theorem chars?_map_pieceOf (cs : List Char) : Piece.chars? (cs.map pieceOf) = some cs := by
  induction cs with
  | nil => rfl
  | cons c cs ih =>
    rw [List.map_cons, pieceOf]
    split
    · rename_i hcontrol
      have hlt : c.toNat < ' '.toNat := hcontrol.1
      rw [chars?_unit (Nat.lt_trans hlt (by decide)), ih, Char.ofNat_toNat]
      rfl
    · rw [Piece.chars?, ih]
      rfl

variable {pieces : List Piece}

theorem scan?_escaped {e : Char} (hc : c ≠ 'u') (he : escaped? c = some e) :
    (string pieces).scan? ('\\' :: c :: rest) = (string (.char e :: pieces)).scan? rest := by
  have hstep : (escape pieces).step? c = some ([], string (.char e :: pieces)) := by
    rw [step?, if_neg hc, he]
    rfl
  rw [scan?_silent (escape pieces) rfl, scan?_silent _ hstep]

theorem hexValue?_digitChar {n : Nat} (h : n < 16) : hexValue? (Nat.digitChar n) = some n := by
  have hall : ∀ k < 16, hexValue? (Nat.digitChar k) = some k := by decide
  exact hall n h

theorem scan?_hex {value count digit : Nat} (h : digit < 16) (hcount : count ≠ 3) :
    (hex pieces value count).scan? (Nat.digitChar digit :: rest) =
      (hex pieces (value * 16 + digit) (count + 1)).scan? rest := by
  refine scan?_silent _ ?_
  simp [step?, hexValue?_digitChar h, hcount]

theorem scan?_hex_end {value digit : Nat} (h : digit < 16) :
    (hex pieces value 3).scan? (Nat.digitChar digit :: rest) =
      (string (.unit (value * 16 + digit) :: pieces)).scan? rest := by
  refine scan?_silent _ ?_
  simp [step?, hexValue?_digitChar h]

theorem scan?_escapeChar (pieces : List Piece) (c : Char) (rest : List Char) :
    (string pieces).scan? (escapeChar c ++ rest) = (string (pieceOf c :: pieces)).scan? rest := by
  have hspecial : ∀ {letter e : Char}, c = e → escapeChar e = ['\\', letter] → letter ≠ 'u' → escaped? letter = some e →
      pieceOf e = .char e → (string pieces).scan? (escapeChar c ++ rest) = (string (pieceOf c :: pieces)).scan? rest := by
    intro letter e hc hchars hletter he hpiece
    rw [hc, hchars, hpiece]
    exact scan?_escaped hletter he
  by_cases hquote : c = '"'
  · exact hspecial hquote rfl (by decide) rfl rfl
  by_cases hbackslash : c = '\\'
  · exact hspecial hbackslash rfl (by decide) rfl rfl
  by_cases hb : c = '\x08'
  · exact hspecial hb rfl (by decide) rfl rfl
  by_cases hf : c = '\x0c'
  · exact hspecial hf rfl (by decide) rfl rfl
  by_cases hn : c = '\n'
  · exact hspecial hn rfl (by decide) rfl rfl
  by_cases hr : c = '\r'
  · exact hspecial hr rfl (by decide) rfl rfl
  by_cases ht : c = '\t'
  · exact hspecial ht rfl (by decide) rfl rfl
  rw [escapeChar, if_neg hquote, if_neg hbackslash, if_neg hb, if_neg hf, if_neg hn, if_neg hr, if_neg ht]
  by_cases hlt : c < ' '
  · have hpiece : pieceOf c = .unit c.toNat := if_pos ⟨hlt, by simp [hb, hf, hn, hr, ht]⟩
    have hsmall : c.toNat < 32 := hlt
    have hvalue : (((0 * 16 + 0) * 16 + 0) * 16 + c.toNat / 16) * 16 + c.toNat % 16 = c.toNat := by omega
    rw [if_pos hlt, hpiece]
    have hzero : '0' = Nat.digitChar 0 := rfl
    simp only [List.cons_append, List.nil_append]
    rw [scan?_silent (escape pieces) rfl, scan?_silent (hex pieces 0 0) rfl, hzero,
      scan?_hex (by decide) (by decide), scan?_hex (by decide) (by decide), scan?_hex (by omega) (by decide),
      scan?_hex_end (by omega), hvalue]
  · have hpiece : pieceOf c = .char c := if_neg fun h => hlt h.1
    have hstep : (string pieces).step? c = some ([], string (.char c :: pieces)) := by
      rw [step?, if_neg hquote, if_neg hbackslash, if_neg hlt]
    rw [if_neg hlt, hpiece, List.singleton_append, scan?_silent _ hstep]

theorem scan?_flatMap_escapeChar (cs : List Char) (pieces : List Piece) (rest : List Char) :
    (string pieces).scan? (cs.flatMap escapeChar ++ rest) =
      (string ((cs.map pieceOf).reverse ++ pieces)).scan? rest := by
  induction cs generalizing pieces with
  | nil => rfl
  | cons c cs ih =>
    rw [List.flatMap_cons, List.append_assoc, scan?_escapeChar, ih, List.map_cons, List.reverse_cons, List.append_assoc]
    rfl

/-- **A string is scanned as its text.** -/
theorem scan?_stringChars (text : String) (rest : List Char) :
    between.scan? (stringChars text ++ rest) = (between.scan? rest).map (.string (some text) :: ·) := by
  have htoken : Token.ofPieces (text.toList.map pieceOf) = .string (some text) := by
    rw [Token.ofPieces, chars?_map_pieceOf, Option.map_some, String.ofList_toList]
  have hclose : (string (text.toList.map pieceOf).reverse).step? '"' = some ([.string (some text)], between) := by
    rw [step?, if_pos rfl, List.reverse_reverse, htoken]
  rw [stringChars, List.cons_append, List.append_assoc, scan?_silent (string []) rfl, scan?_flatMap_escapeChar,
    List.append_nil, List.singleton_append, scan?_cons hclose]
  rfl

/-! ## Layout -/

theorem scan?_delimiter (h : between.step? c = some ([token], between)) :
    between.scan? (c :: rest) = (between.scan? rest).map (token :: ·) := scan?_cons h

theorem scan?_lineStart (format : Format) (level : Nat) (rest : List Char) :
    between.scan? (format.lineStart level ++ rest) = between.scan? rest := by
  cases format with
  | compact => rfl
  | pretty =>
    rw [Format.lineStart, List.cons_append, scan?_silent between rfl]
    induction 2 * level with
    | zero => rfl
    | succ k ih => rw [List.replicate_succ, List.cons_append, scan?_silent between rfl, ih]

theorem scan?_colon (format : Format) (rest : List Char) :
    between.scan? (format.colon ++ rest) = (between.scan? rest).map (.colon :: ·) := by
  cases format with
  | compact => exact scan?_delimiter rfl
  | pretty => rw [Format.colon, List.cons_append, scan?_delimiter rfl, List.singleton_append,
      scan?_silent between rfl]

/-! ## Values -/

/-- **The text of a value is scanned as its tokens**, wherever it ends. -/
def Scanned (format : Format) (j : Json) : Prop :=
  ∀ level rest, Ends rest →
    between.scan? (j.chars format level ++ rest) = (between.scan? rest).map (j.spelled.tokens ++ ·)

variable {format : Format}

theorem ends_lineStart (format : Format) (level : Nat) (hc : isRunChar c = false) (rest : List Char) :
    Ends (format.lineStart level ++ c :: rest) := by
  cases format <;> simp [Ends, Format.lineStart, hc]
  decide

theorem ends_itemsChars (format : Format) (level : Nat) (items : List Json) (rest : List Char) :
    Ends (Json.itemsChars format level items ++ rest) := by
  cases items with
  | nil =>
    rw [Json.itemsChars, List.append_assoc]
    exact ends_lineStart format level (by decide) rest
  | cons j js =>
    rw [Json.itemsChars]
    simp [Ends]
    decide

theorem ends_fieldsChars (format : Format) (level : Nat) (fields : List (String × Json)) (rest : List Char) :
    Ends (Json.fieldsChars format level fields ++ rest) := by
  cases fields with
  | nil =>
    rw [Json.fieldsChars, List.append_assoc]
    exact ends_lineStart format level (by decide) rest
  | cons e es =>
    rw [Json.fieldsChars]
    simp [Ends]
    decide

/-- Further items and the end of an array, by induction on the items. -/
theorem scan?_itemsChars {items : List Json} (h : ∀ j ∈ items, Scanned format j) (level : Nat) (rest : List Char) :
    between.scan? (Json.itemsChars format level items ++ rest) =
      (between.scan? rest).map (Document.itemTokens (items.map Json.spelled) ++ ·) := by
  induction items with
  | nil =>
    rw [Json.itemsChars, List.append_assoc, scan?_lineStart, List.singleton_append, scan?_delimiter rfl]
    rfl
  | cons j js ih =>
    rw [List.forall_mem_cons] at h
    have hj := h.1 (level + 1) _ (ends_itemsChars format level js rest)
    rw [Json.itemsChars, List.cons_append, List.append_assoc, List.append_assoc, scan?_delimiter rfl, scan?_lineStart, hj,
      ih h.2, List.map_cons, Document.itemTokens, Option.map_map, Option.map_map]
    simp [Function.comp_def]

/-- Further fields and the end of an object, by induction on the fields. -/
theorem scan?_fieldsChars {fields : List (String × Json)} (h : ∀ e ∈ fields, Scanned format e.2) (level : Nat)
    (rest : List Char) : between.scan? (Json.fieldsChars format level fields ++ rest) =
      (between.scan? rest).map (Document.memberTokens (fields.map fun e => (some e.1, e.2.spelled)) ++ ·) := by
  induction fields with
  | nil =>
    rw [Json.fieldsChars, List.append_assoc, scan?_lineStart, List.singleton_append, scan?_delimiter rfl]
    rfl
  | cons e es ih =>
    obtain ⟨name, j⟩ := e
    rw [List.forall_mem_cons] at h
    have hj := h.1 (level + 1) _ (ends_fieldsChars format level es rest)
    simp only [Json.fieldsChars, List.cons_append, List.append_assoc]
    rw [scan?_delimiter rfl, scan?_lineStart, scan?_stringChars, scan?_colon, hj, ih h.2, List.map_cons,
      Document.memberTokens, Option.map_map, Option.map_map, Option.map_map, Option.map_map]
    simp [Function.comp_def]

theorem scanned_of_isFinite (format : Format) (j : Json) (hn : ∀ x ∈ j.numbers, x.isFinite = true) :
    Scanned format j := by
  induction j using Json.induction_on_parts with
  | null => exact fun _ rest hr => scan?_word ['n', 'u', 'l', 'l'] (by decide) (List.all_eq_true.1 rfl) rfl hr
  | boolean b =>
    cases b with
    | true => exact fun _ rest hr => scan?_word ['t', 'r', 'u', 'e'] (by decide) (List.all_eq_true.1 rfl) rfl hr
    | false => exact fun _ rest hr => scan?_word ['f', 'a', 'l', 's', 'e'] (by decide) (List.all_eq_true.1 rfl) rfl hr
  | integer i =>
    intro _ rest hr
    rw [Json.chars, ← i.chars_numeral]
    exact scan?_numeral i.wellFormed_numeral hr
  | number x =>
    intro _ rest hr
    obtain ⟨hform, hchars, -⟩ := Number.numeral_eq (hn x (List.mem_singleton_self x))
    rw [Json.chars, ← hchars]
    exact scan?_numeral hform hr
  | string s => exact fun _ rest _ => scan?_stringChars s rest
  | array items ih =>
    have hparts : ∀ j ∈ items, Scanned format j := fun j hj =>
      ih j hj fun x hx => hn x (Json.mem_numbers_array.2 ⟨j, hj, hx⟩)
    intro level rest hr
    rw [Json.spelled_array]
    cases items with
    | nil =>
      rw [Json.chars, List.cons_append, List.singleton_append, scan?_delimiter rfl, scan?_delimiter rfl, Option.map_map]
      rfl
    | cons j js =>
      rw [List.forall_mem_cons] at hparts
      have hj := hparts.1 (level + 1) _ (ends_itemsChars format level js rest)
      rw [Json.chars, List.cons_append, List.append_assoc, List.append_assoc, scan?_delimiter rfl, scan?_lineStart, hj,
        scan?_itemsChars hparts.2, List.map_cons, Document.tokens, Option.map_map, Option.map_map]
      simp [Function.comp_def]
  | object fields ih =>
    have hparts : ∀ e ∈ fields, Scanned format e.2 := fun e he =>
      ih e he fun x hx => hn x (Json.mem_numbers_object.2 ⟨e, he, hx⟩)
    intro level rest hr
    rw [Json.spelled_object]
    cases fields with
    | nil =>
      rw [Json.chars, List.cons_append, List.singleton_append, scan?_delimiter rfl, scan?_delimiter rfl, Option.map_map]
      rfl
    | cons e es =>
      obtain ⟨name, j⟩ := e
      rw [List.forall_mem_cons] at hparts
      have hj := hparts.1 (level + 1) _ (ends_fieldsChars format level es rest)
      simp only [Json.chars, List.cons_append, List.append_assoc]
      rw [scan?_delimiter rfl, scan?_lineStart, scan?_stringChars, scan?_colon, hj, scan?_fieldsChars hparts.2,
        List.map_cons, Document.tokens, Option.map_map, Option.map_map, Option.map_map, Option.map_map]
      simp [Function.comp_def]

end Mode

/-- **A value is read back as it was spelled**, in either format. -/
theorem Document.ofText?_render (format : Format) {j : Json} (h : ∀ x ∈ j.numbers, x.isFinite = true) :
    Document.ofText? (j.render format) = some j.spelled := by
  have hscan := Mode.scanned_of_isFinite format j h 0 [] (by simp [Mode.Ends])
  have hend : Mode.between.scan? [] = some [] := rfl
  rw [List.append_nil, hend, Option.map_some, List.append_nil] at hscan
  rw [Document.ofText?, Token.ofText?, Json.render, String.toList_ofList, hscan]
  exact Document.ofTokens?_tokens j.spelled

end Schemata
