import Schemata.Proofs.Node.Parts
import Schemata.Proofs.Operator.Lists
import Schemata.Proofs.Template.RegularExpression
/-!
# Letter case of patterns

Changing the case of a pattern changes the text literals in it and leaves everything else as it is, while the texts of the
pattern change as a whole.  The two go together as far as what is left as it is reads the same in the new case.

- `LetterCase.Leads A B`: texts of one set in the new case are texts of another.
- `Pattern.isKept`: whether all that is written in a pattern reads the same in the new case.
- `LetterCase.isFollowed`: whether that holds of all that is left as it is in a template, for a change of the first letter
  as far as the first letter may stand there.

Main statement: `changed_text_matches`.  Each way of leaving something as it is breaks the rule (`case_not_followed`).
-/
namespace Schemata

/-! ## Texts in another case -/

/-- Whether a text is made of ASCII characters. -/
def IsAscii (cs : List Char) : Prop := ∀ c ∈ cs, c.toNat < 128

instance (cs : List Char) : Decidable (IsAscii cs) := List.decidableBAll (fun c : Char => c.toNat < 128) cs

/-- What holds of the first 128 code points holds of every ASCII character. -/
theorem forall_ascii {P : Char → Prop} (h : ∀ n < 128, P (Char.ofNat n)) {c : Char} (hc : c.toNat < 128) : P c := by
  have := h c.toNat hc
  rwa [Char.ofNat_toNat] at this

namespace LetterCase

/-- The operator that changes the case of its operand. -/
def operator : LetterCase → Operator
  | .upper => .uppercase
  | .lower => .lowercase
  | .capital => .capitalize
  | .uncapital => .uncapitalize

/-- Whether only the first character changes. -/
def isInitial : LetterCase → Bool
  | .upper | .lower => false
  | .capital | .uncapital => true

/-- What an ASCII character becomes where it changes. -/
def shift : LetterCase → Char → Char
  | .upper | .capital => Char.toUpper
  | .lower | .uncapital => Char.toLower

variable {letterCase : LetterCase} {cs ds : List Char} {c : Char}

theorem lowerAfter_of_isAscii (h : IsAscii cs) (before : List Char) : lowerAfter before cs = cs.map Char.toLower := by
  induction cs generalizing before with
  | nil => rfl
  | cons c cs ih =>
    rw [IsAscii, List.forall_mem_cons] at h
    have hsigma : c ≠ 'Σ' := by
      rintro rfl
      exact absurd h.1 (by decide)
    rw [lowerAfter, if_neg hsigma, lowerChar, if_pos h.1, ih h.2]
    rfl

/-- **An ASCII text changes character by character**, or in its first character only. -/
theorem applyChars_of_isAscii (h : IsAscii cs) :
    letterCase.applyChars cs =
      if letterCase.isInitial then cs.modifyHead letterCase.shift else cs.map letterCase.shift := by
  have hupper : cs.flatMap upperChar = cs.map Char.toUpper := by
    rw [List.flatMap_congr fun c hc => show upperChar c = [c.toUpper] from if_pos (h c hc), List.map_eq_flatMap]
  cases letterCase with
  | upper => exact hupper
  | lower => exact lowerAfter_of_isAscii h []
  | capital | uncapital =>
    cases cs with
    | nil => rfl
    | cons c cs =>
      have hc : c.toNat < 128 := h c List.mem_cons_self
      simp [applyChars, isInitial, shift, upperChar, lowerChar, hc]

theorem applyChars_nil : letterCase.applyChars [] = [] := by cases letterCase <;> rfl

/-- A text that holds no letters with case does not change. -/
theorem applyChars_of_fixed (h : IsAscii cs) (hfixed : ∀ c ∈ cs, letterCase.shift c = c) :
    letterCase.applyChars cs = cs := by
  rw [applyChars_of_isAscii h]
  split
  · cases cs with
    | nil => rfl
    | cons c cs => rw [List.modifyHead_cons, hfixed c List.mem_cons_self]
  · rw [List.map_congr_left hfixed, List.map_id']

theorem length_applyChars (h : IsAscii cs) : (letterCase.applyChars cs).length = cs.length := by
  rw [applyChars_of_isAscii h]
  split <;> simp

theorem applyChars_append (hwhole : letterCase.isInitial = false) (hcs : IsAscii cs) (hds : IsAscii ds) :
    letterCase.applyChars (cs ++ ds) = letterCase.applyChars cs ++ letterCase.applyChars ds := by
  have happend : IsAscii (cs ++ ds) := List.forall_mem_append.2 ⟨hcs, hds⟩
  simp [applyChars_of_isAscii happend, applyChars_of_isAscii hcs, applyChars_of_isAscii hds, hwhole]

theorem applyChars_cons_append (hinitial : letterCase.isInitial = true) (c : Char) (cs ds : List Char) :
    letterCase.applyChars (c :: cs ++ ds) = letterCase.applyChars (c :: cs) ++ ds := by
  cases letterCase with
  | upper | lower => cases hinitial
  | capital | uncapital => exact (List.append_assoc _ cs ds).symm

/-! ### Sets of texts -/

/-- **Texts of `A` in the new case are texts of `B`.** -/
def Leads (letterCase : LetterCase) (A B : Texts) : Prop := ∀ cs, IsAscii cs → A cs → B (letterCase.applyChars cs)

variable {A B A' B' : Texts}

theorem leads_nil : letterCase.Leads (· = []) (· = []) := by
  rintro _ - rfl
  exact applyChars_nil

theorem leads_none : letterCase.Leads (fun _ => False) B := fun _ _ h => h.elim

theorem leads_exactly (text : List Char) : letterCase.Leads (· = text) (· = letterCase.applyChars text) := by
  rintro _ - rfl
  rfl

theorem Leads.either (hA : letterCase.Leads A A') (hB : letterCase.Leads B B') :
    letterCase.Leads (.either A B) (.either A' B') := fun cs hcs h => h.imp (hA cs hcs) (hB cs hcs)

/-- Both halves of a text change, where all of it does. -/
theorem Leads.append (hwhole : letterCase.isInitial = false) (hA : letterCase.Leads A A') (hB : letterCase.Leads B B') :
    letterCase.Leads (.append A B) (.append A' B') := by
  rintro _ hcs ⟨front, back, rfl, hfront, hback⟩
  obtain ⟨hf, hb⟩ := List.forall_mem_append.1 hcs
  exact ⟨_, _, applyChars_append hwhole hf hb, hA front hf hfront, hB back hb hback⟩

/-- **The first letter is in the first half**, unless that is empty: only then the second half changes. -/
theorem Leads.append_of_isInitial (hinitial : letterCase.isInitial = true) (hA : letterCase.Leads A A')
    (hB : A [] → letterCase.Leads B B) : letterCase.Leads (.append A B) (.append A' B) := by
  rintro _ hcs ⟨front, back, rfl, hfront, hback⟩
  obtain ⟨hf, hb⟩ := List.forall_mem_append.1 hcs
  cases front with
  | nil =>
    refine ⟨[], letterCase.applyChars back, rfl, ?_, hB hfront back hb hback⟩
    exact applyChars_nil ▸ hA [] hf hfront
  | cons c front => exact ⟨_, back, applyChars_cons_append hinitial c front back, hA _ hf hfront, hback⟩

/-- Characters of a kind that letter case does not lead out of. -/
theorem leads_many {kind : Char → Bool} (h : ∀ c, c.toNat < 128 → kind c = true → kind (letterCase.shift c) = true) :
    letterCase.Leads (.many kind) (.many kind) := by
  intro cs hcs hkind
  rw [applyChars_of_isAscii hcs]
  split
  · cases cs with
    | nil => exact hkind
    | cons c cs =>
      rw [Texts.many, List.forall_mem_cons] at hkind
      rw [List.modifyHead_cons, Texts.many, List.forall_mem_cons]
      exact ⟨h c (hcs c List.mem_cons_self) hkind.1, hkind.2⟩
  · rw [Texts.many, List.forall_mem_map]
    exact fun c hc => h c (hcs c hc) (hkind c hc)

/-- Characters without case. -/
theorem leads_of_fixed {kind : Char → Bool}
    (hkind : ∀ c, c.toNat < 128 → kind c = true → letterCase.shift c = c) (hA : ∀ cs, A cs → Texts.many kind cs) :
    letterCase.Leads A A := by
  intro cs hcs h
  rwa [applyChars_of_fixed hcs fun c hc => hkind c (hcs c hc) (hA cs h c hc)]

end LetterCase

namespace Pattern

/-! ## What reads the same in another case -/

mutual
/-- Whether the empty text matches a pattern. -/
def canBeEmpty : Pattern → Bool
  | .exactly text => text.toList.isEmpty
  | .anything => true
  | .number | .whole | .nothing => false
  | .choice alternatives => alternatives.isEmpty || anyCanBeEmpty alternatives
  | .sequence parts => allCanBeEmpty parts

def anyCanBeEmpty : List Pattern → Bool
  | [] => false
  | p :: ps => p.canBeEmpty || anyCanBeEmpty ps

def allCanBeEmpty : List Pattern → Bool
  | [] => true
  | p :: ps => p.canBeEmpty && allCanBeEmpty ps
end

section
variable (letterCase : LetterCase)

mutual
/-- **Whether all that is written in a pattern reads the same in another case.**  Where only the first letter changes,
nothing is asked of what comes after a part that is never empty. -/
def isKept : Pattern → Bool
  | .exactly text => letterCase.apply text == text
  | .anything | .number | .whole | .nothing => true
  | .choice alternatives => eachIsKept alternatives
  | .sequence parts => isKeptInOrder parts

def eachIsKept : List Pattern → Bool
  | [] => true
  | p :: ps => p.isKept && eachIsKept ps

def isKeptInOrder : List Pattern → Bool
  | [] => true
  | p :: ps => p.isKept && ((letterCase.isInitial && !p.canBeEmpty) || isKeptInOrder ps)
end

end

variable {letterCase : LetterCase}

/-! ### Which patterns have the empty text -/

theorem not_matches_nil_number : ¬ Pattern.number.Matches [] := by
  rintro ⟨sign, magnitude, h, -, hmagnitude⟩
  obtain ⟨-, rfl⟩ := List.append_eq_nil_iff.1 h.symm
  rcases hmagnitude with ⟨_, _, h, ⟨c, rfl, -⟩, -⟩ | ⟨_, _, h, -, _, _, rfl, ⟨c, rfl, -⟩, -⟩ <;> simp at h

theorem not_matches_nil_whole : ¬ Pattern.whole.Matches [] := by
  rintro ⟨sign, _, h, -, _, _, rfl, ⟨c, rfl, -⟩, -⟩
  simp at h

mutual
/-- **A pattern that has the empty text can be empty.** -/
theorem canBeEmpty_of_matches_nil (p : Pattern) (h : p.Matches []) : p.canBeEmpty = true := by
  cases p with
  | exactly text =>
    have htext : [] = text.toList := h
    rw [canBeEmpty, ← htext]
    rfl
  | anything => rfl
  | number => exact absurd h not_matches_nil_number
  | whole => exact absurd h not_matches_nil_whole
  | nothing => exact h.elim
  | choice alternatives =>
    cases alternatives with
    | nil => rfl
    | cons p ps => exact anyCanBeEmpty_of_matchesAny_nil (p :: ps) h
  | sequence parts => exact allCanBeEmpty_of_matchesAll_nil parts h

theorem anyCanBeEmpty_of_matchesAny_nil (ps : List Pattern) (h : MatchesAny ps []) : anyCanBeEmpty ps = true := by
  cases ps with
  | nil => exact h.elim
  | cons p ps =>
    rw [anyCanBeEmpty, Bool.or_eq_true]
    exact h.imp (canBeEmpty_of_matches_nil p) (anyCanBeEmpty_of_matchesAny_nil ps)

theorem allCanBeEmpty_of_matchesAll_nil (ps : List Pattern) (h : MatchesAll ps []) : allCanBeEmpty ps = true := by
  cases ps with
  | nil => rfl
  | cons p ps =>
    obtain ⟨front, back, happend, hfront, hback⟩ := h
    obtain ⟨rfl, rfl⟩ := List.append_eq_nil_iff.1 happend.symm
    rw [allCanBeEmpty, Bool.and_eq_true]
    exact ⟨canBeEmpty_of_matches_nil p hfront, allCanBeEmpty_of_matchesAll_nil ps hback⟩
end

/-! ### Texts without letters -/

/-- What numbers are written with. -/
def isNumeric (c : Char) : Bool := decimalDigit.has c || c == '-' || c == '.'

theorem shift_of_isNumeric (letterCase : LetterCase) {c : Char} (hc : c.toNat < 128) (h : isNumeric c = true) :
    letterCase.shift c = c := by
  refine forall_ascii (P := fun c => isNumeric c = true → letterCase.shift c = c) ?_ hc h
  cases letterCase <;> decide +kernel

/-- No letter becomes a line feed. -/
theorem shift_ne_lineFeed (letterCase : LetterCase) {c : Char} (hc : c.toNat < 128) (h : (c != '\n') = true) :
    (letterCase.shift c != '\n') = true := by
  refine forall_ascii (P := fun c => (c != '\n') = true → (letterCase.shift c != '\n') = true) ?_ hc h
  cases letterCase <;> decide +kernel

section
variable {kind : Char → Bool} {A B : Texts} {cs : List Char}

theorem many_of_append (hA : ∀ cs, A cs → Texts.many kind cs) (hB : ∀ cs, B cs → Texts.many kind cs)
    (h : Texts.append A B cs) : Texts.many kind cs := by
  obtain ⟨front, back, rfl, hfront, hback⟩ := h
  exact List.forall_mem_append.2 ⟨hA front hfront, hB back hback⟩

theorem many_of_one {wanted : Char → Bool} (hwanted : ∀ c, wanted c = true → kind c = true) (h : Texts.one wanted cs) :
    Texts.many kind cs := by
  obtain ⟨c, rfl, hc⟩ := h
  exact List.forall_mem_singleton.2 (hwanted c hc)

end

theorem isNumeric_of_digit (c : Char) (h : decimalDigit.has c = true) : isNumeric c = true := by simp [isNumeric, h]

theorem many_isNumeric_of_digits {cs : List Char} (h : Texts.some decimalDigit.has cs) : Texts.many isNumeric cs :=
  many_of_append (fun _ => many_of_one isNumeric_of_digit) (fun _ h c hc => isNumeric_of_digit c (h c hc)) h

theorem many_isNumeric_of_sign {cs : List Char} (h : signTexts cs) : Texts.many isNumeric cs := by
  rcases h with rfl | h
  · exact fun c hc => absurd hc List.not_mem_nil
  · exact many_of_one (fun c hc => by simp [isNumeric, hc]) h

theorem many_isNumeric_of_magnitude {cs : List Char} (h : magnitudeTexts cs) : Texts.many isNumeric cs := by
  have hpoint : ∀ c, (c == '.') = true → isNumeric c = true := fun c hc => by simp [isNumeric, hc]
  rcases h with h | h
  · exact many_isNumeric_of_digits h
  · refine many_of_append (fun _ h c hc => isNumeric_of_digit c (h c hc)) (fun _ => ?_) h
    exact many_of_append (fun _ => many_of_one hpoint) fun _ => many_isNumeric_of_digits

/-! ### Patterns that are kept -/

/-- What comes after a part may stay, if the first letter is never in it or its texts are its texts in the new case. -/
theorem leads_append_kept {p : Pattern} {A B : Texts} (hp : letterCase.Leads p.Matches A)
    (hB : (letterCase.isInitial && !p.canBeEmpty) = true ∨ letterCase.Leads B B) :
    letterCase.Leads (.append p.Matches B) (.append A B) := by
  cases hinitial : letterCase.isInitial with
  | false => exact hp.append hinitial (hB.resolve_left (by simp [hinitial]))
  | true =>
    refine hp.append_of_isInitial hinitial fun hempty => hB.resolve_left ?_
    simp [canBeEmpty_of_matches_nil p hempty]

mutual
/-- **The texts of a pattern that is kept are still its texts** in the new case. -/
theorem leads_of_isKept (p : Pattern) (h : p.isKept letterCase = true) : letterCase.Leads p.Matches p.Matches := by
  cases p with
  | exactly text =>
    have htext : letterCase.applyChars text.toList = text.toList := by
      rw [isKept, beq_iff_eq] at h
      rw [← String.toList_ofList (l := letterCase.applyChars text.toList)]
      exact congrArg String.toList h
    have hleads : letterCase.Leads (· = text.toList) _ := LetterCase.leads_exactly text.toList
    rwa [htext] at hleads
  | anything => exact LetterCase.leads_many fun _ => shift_ne_lineFeed letterCase
  | number =>
    exact LetterCase.leads_of_fixed (fun _ => shift_of_isNumeric letterCase) fun _ =>
      many_of_append (fun _ => many_isNumeric_of_sign) fun _ => many_isNumeric_of_magnitude
  | whole =>
    exact LetterCase.leads_of_fixed (fun _ => shift_of_isNumeric letterCase) fun _ =>
      many_of_append (fun _ => many_isNumeric_of_sign) fun _ => many_isNumeric_of_digits
  | nothing => exact LetterCase.leads_none
  | choice alternatives =>
    cases alternatives with
    | nil => exact LetterCase.leads_nil
    | cons p ps => exact leads_of_eachIsKept (p :: ps) h
  | sequence parts => exact leads_of_isKeptInOrder parts h

theorem leads_of_eachIsKept (ps : List Pattern) (h : eachIsKept letterCase ps = true) :
    letterCase.Leads (MatchesAny ps) (MatchesAny ps) := by
  cases ps with
  | nil => exact LetterCase.leads_none
  | cons p ps =>
    rw [eachIsKept, Bool.and_eq_true] at h
    exact (leads_of_isKept p h.1).either (leads_of_eachIsKept ps h.2)

theorem leads_of_isKeptInOrder (ps : List Pattern) (h : isKeptInOrder letterCase ps = true) :
    letterCase.Leads (MatchesAll ps) (MatchesAll ps) := by
  cases ps with
  | nil => exact LetterCase.leads_nil
  | cons p ps =>
    rw [isKeptInOrder, Bool.and_eq_true, Bool.or_eq_true] at h
    exact leads_append_kept (leads_of_isKept p h.1) (h.2.imp_right (leads_of_isKeptInOrder ps))
end

end Pattern

namespace LetterCase

open Pattern

/-! ## Templates that follow a change of case -/

section
variable (letterCase : LetterCase)

mutual
/-- Whether all that stays as it is in a fragment reads the same in another case. -/
def isFollowedIn : Node → Bool
  | ⟨.literal (.string _), _, _⟩ => true
  | ⟨.union variants, _, _⟩ => isFollowedInEach variants
  | n => (ofNode n).isKept letterCase

def isFollowedInEach : List Node → Bool
  | [] => true
  | n :: ns => isFollowedIn n && isFollowedInEach ns
end

/-- **Whether all that stays as it is in a template reads the same in another case.**  Where only the first letter changes
that is all behind the first fragment, unless the first letter is never there. -/
def isFollowed (fragments : List Node) : Bool :=
  match letterCase, fragments with
  | .upper, _ | .lower, _ => letterCase.isFollowedInEach fragments
  | _, [] => true
  | _, first :: rest =>
    letterCase.isFollowedIn first && (!(ofNode first).canBeEmpty || isKeptInOrder letterCase (ofNodes rest))

end

variable {letterCase : LetterCase}

mutual
/-- **The texts of a fragment in the new case** are texts of the changed fragment. -/
theorem leads_inFragment (n : Node) (h : letterCase.isFollowedIn n = true) :
    letterCase.Leads (ofNode n).Matches (ofNode (letterCase.inFragment n)).Matches := by
  unfold inFragment
  split
  · rename_i text _ _
    have hleads : letterCase.Leads (· = text.toList) _ := leads_exactly text.toList
    have htext : (letterCase.apply text).toList = letterCase.applyChars text.toList := String.toList_ofList
    rwa [← htext] at hleads
  · rename_i variants _ _
    cases variants with
    | nil => exact leads_nil
    | cons n ns => exact leads_inFragments_any (n :: ns) h
  · rename_i hliteral hunion
    rw [isFollowedIn] at h
    · exact leads_of_isKept _ h
    · exact hliteral
    · exact hunion

theorem leads_inFragments_any (ns : List Node) (h : letterCase.isFollowedInEach ns = true) :
    letterCase.Leads (MatchesAny (ofNodes ns)) (MatchesAny (ofNodes (letterCase.inFragments ns))) := by
  cases ns with
  | nil => exact leads_none
  | cons n ns =>
    rw [isFollowedInEach, Bool.and_eq_true] at h
    exact (leads_inFragment n h.1).either (leads_inFragments_any ns h.2)
end

theorem leads_inFragments_all (hwhole : letterCase.isInitial = false) (ns : List Node)
    (h : letterCase.isFollowedInEach ns = true) :
    letterCase.Leads (MatchesAll (ofNodes ns)) (MatchesAll (ofNodes (letterCase.inFragments ns))) := by
  induction ns with
  | nil => exact leads_nil
  | cons n ns ih =>
    rw [isFollowedInEach, Bool.and_eq_true] at h
    exact (leads_inFragment n h.1).append hwhole (ih h.2)

/-- **The texts of a template in the new case** are texts of the changed template. -/
theorem leads_inPattern {fragments : List Node} (h : letterCase.isFollowed fragments = true) :
    letterCase.Leads (ofFragments fragments).Matches (ofFragments (letterCase.inPattern fragments)).Matches := by
  cases letterCase with
  | upper | lower => exact leads_inFragments_all rfl fragments h
  | capital | uncapital =>
    cases fragments with
    | nil => exact leads_nil
    | cons first rest =>
      simp only [isFollowed, Bool.and_eq_true, Bool.or_eq_true] at h
      exact leads_append_kept (leads_inFragment first h.1) (h.2.imp id (leads_of_isKeptInOrder _))

end LetterCase

/-! ## How deep changed templates are nested -/

def Kind.isAscii : Kind Node → Bool
  | .literal (.string text) => decide (IsAscii text.toList)
  | _ => true

/-- **Whether all text literals of a fragment are made of ASCII characters.** -/
def Node.isAscii (n : Node) : Bool := n.everywhere Kind.isAscii

theorem Node.isAscii_iff {n : Node} : n.isAscii = true ↔ n.kind.isAscii = true ∧ ∀ c ∈ n.kind.parts, c.isAscii = true :=
  everywhere_iff

namespace LetterCase

open Pattern

variable {letterCase : LetterCase}

theorem choiceNesting_inFragments {ns : List Node}
    (h : ∀ n ∈ ns, (ofNode (letterCase.inFragment n)).itemCount = (ofNode n).itemCount ∧
      (ofNode (letterCase.inFragment n)).nesting = (ofNode n).nesting) :
    choiceNesting (ofNodes (letterCase.inFragments ns)) = choiceNesting (ofNodes ns) := by
  induction ns with
  | nil => rfl
  | cons n ns ih =>
    rw [List.forall_mem_cons] at h
    simp only [inFragments, ofNodes, choiceNesting, h.1, ih h.2]

/-- **A change of case changes neither how many items a fragment gives nor how deep they are nested**: an ASCII text is as
long as before. -/
theorem layers_inFragment {n : Node} (h : n.isAscii = true) :
    (ofNode (letterCase.inFragment n)).itemCount = (ofNode n).itemCount ∧
      (ofNode (letterCase.inFragment n)).nesting = (ofNode n).nesting := by
  induction n using Node.induction_on_parts with
  | node n ih =>
    obtain ⟨hkind, hparts⟩ := Node.isAscii_iff.1 h
    obtain ⟨kind, modifiers, annotations⟩ := n
    cases kind with
    | literal l =>
      cases l with
      | string text =>
        have hlength : (letterCase.apply text).length = text.length := by
          rw [← String.length_toList, ← String.length_toList, apply, String.toList_ofList]
          exact length_applyChars (of_decide_eq_true hkind)
        exact ⟨hlength, rfl⟩
      | _ => exact ⟨rfl, rfl⟩
    | union variants =>
      have hchoice : choiceNesting (ofNodes (letterCase.inFragments variants)) = choiceNesting (ofNodes variants) :=
        choiceNesting_inFragments fun c hc => ih c hc (hparts c hc)
      have hcount : (ofNodes (letterCase.inFragments variants)).length = (ofNodes variants).length := by
        rw [ofNodes_eq_map, ofNodes_eq_map, inFragments_eq_map, List.length_map, List.length_map, List.length_map]
      refine ⟨rfl, ?_⟩
      simp only [inFragment, ofNode, nesting, hchoice, hcount]
    | _ => exact ⟨rfl, rfl⟩

/-- **A changed template can be matched as before.** -/
theorem isUsable_inPattern {fragments : List Node} (h : ∀ n ∈ fragments, n.isAscii = true) :
    (ofFragments (letterCase.inPattern fragments)).isUsable = (ofFragments fragments).isUsable := by
  have hall : ∀ ns : List Node, (∀ n ∈ ns, n.isAscii = true) →
      sequenceNesting (ofNodes (letterCase.inFragments ns)) = sequenceNesting (ofNodes ns) := by
    intro ns hns
    induction ns with
    | nil => rfl
    | cons n ns ih =>
      rw [List.forall_mem_cons] at hns
      simp only [inFragments, ofNodes, sequenceNesting, (layers_inFragment hns.1).2, ih hns.2]
  have hnesting : (ofFragments (letterCase.inPattern fragments)).nesting = (ofFragments fragments).nesting := by
    cases letterCase with
    | upper | lower => exact hall fragments h
    | capital | uncapital =>
      cases fragments with
      | nil => rfl
      | cons first rest =>
        simp only [inPattern, ofFragments, ofNodes, nesting, sequenceNesting,
          (layers_inFragment (h first List.mem_cons_self)).2]
  rw [isUsable, isUsable, hnesting]

end LetterCase

/-! ## Changing the case of a template -/

theorem reduceEager_letterCase {letterCase : LetterCase} {s : Setting} (hs : s.operator = letterCase.operator)
    (operand : Node) : reduceEager s [operand] = changeCase s letterCase operand := by
  cases letterCase <;> simp only [reduceEager, hs, LetterCase.operator, caseOf]

/-- **A text in another case matches the pattern in that case**: where all that an operator leaves as it is reads the same
in the new case, it makes a pattern of a pattern, and what the same operator makes of a text of the first is a text of the
second, both for the program and for the regular expressions. -/
theorem changed_text_matches (letterCase : LetterCase) {s : Setting} (hs : s.operator = letterCase.operator) {n : Node}
    {fragments : List Node} (hk : n.kind = .templatePattern fragments) (hascii : ∀ n ∈ fragments, n.isAscii = true)
    (hfollowed : letterCase.isFollowed fragments = true) :
    ∃ changed, reduceEager s [n] = .done (some (.templatePattern changed)) ∧
      ∀ text : String, IsAscii text.toList → ∃ result : String,
        reduceEager s [.text text] = .done (some (.text result)) ∧
        ((Pattern.ofFragments fragments).accepts text = true → (Pattern.ofFragments changed).accepts result = true) ∧
        ∀ word, RegularExpression.Finds word (Pattern.ofFragments fragments).source text →
          RegularExpression.Finds word (Pattern.ofFragments changed).source result := by
  obtain ⟨kind, modifiers, annotations⟩ := n
  cases hk
  refine ⟨letterCase.inPattern fragments, reduceEager_letterCase hs _, fun text htext =>
    ⟨letterCase.apply text, reduceEager_letterCase hs _, ?_⟩⟩
  have hleads : (Pattern.ofFragments fragments).Matches text.toList →
      (Pattern.ofFragments (letterCase.inPattern fragments)).Matches (letterCase.apply text).toList := by
    rw [LetterCase.apply, String.toList_ofList]
    exact LetterCase.leads_inPattern hfollowed text.toList htext
  constructor
  · rw [Pattern.accepts_iff, Pattern.accepts_iff, LetterCase.isUsable_inPattern hascii]
    exact And.imp_right hleads
  · intro word
    rw [Pattern.source_finds, Pattern.source_finds]
    exact hleads

/-- The first letter of a template with choices in it, behind which letters may stay as they are. -/
theorem changed_text_matches_first_letter :
    let fragments : List Node := [.union [.text "get", .text "set"], .string, .templatePattern [.text "-v", .number]]
    let s : Setting := ⟨1, fun _ _ n => .done n, [], {}, .capitalize⟩
    (∀ n ∈ fragments, n.isAscii = true) ∧ LetterCase.capital.isFollowed fragments = true ∧
      IsAscii "get it-v1.5".toList ∧ (Pattern.ofFragments fragments).accepts "get it-v1.5" = true ∧
      ∃ changed, reduceEager s [.templatePattern fragments] = .done (some (.templatePattern changed)) ∧
        ∃ result : String, reduceEager s [.text "get it-v1.5"] = .done (some (.text result)) ∧
          (Pattern.ofFragments changed).accepts result = true := by
  intro fragments s
  have hascii : ∀ n ∈ fragments, n.isAscii = true := by decide +kernel
  have hfollowed : LetterCase.capital.isFollowed fragments = true := by decide +kernel
  have htext : IsAscii "get it-v1.5".toList := by decide +kernel
  have haccepts : (Pattern.ofFragments fragments).accepts "get it-v1.5" = true := by decide +kernel
  obtain ⟨changed, hchanged, hleads⟩ :=
    changed_text_matches .capital (s := s) rfl (n := .templatePattern fragments) rfl hascii hfollowed
  obtain ⟨result, hresult, hmatches, -⟩ := hleads "get it-v1.5" htext
  exact ⟨hascii, hfollowed, htext, haccepts, changed, hchanged, result, hresult, hmatches haccepts⟩

/-- **A text of a template that is lost in another case**: what the operator makes of the text does not match what it makes
of the template. -/
def LetterCase.Loses (letterCase : LetterCase) (fragments : List Node) (text : String) : Prop :=
  IsAscii text.toList ∧ (Pattern.ofFragments fragments).accepts text = true ∧
    ∀ s : Setting, s.operator = letterCase.operator → ∃ changed, ∃ result : String,
      reduceEager s [.templatePattern fragments] = .done (some (.templatePattern changed)) ∧
      reduceEager s [.text text] = .done (some (.text result)) ∧ (Pattern.ofFragments changed).accepts result = false

theorem LetterCase.Loses.of_accepts {letterCase : LetterCase} {fragments : List Node} {text : String}
    (htext : IsAscii text.toList) (h : (Pattern.ofFragments fragments).accepts text = true)
    (hlost : (Pattern.ofFragments (letterCase.inPattern fragments)).accepts (letterCase.apply text) = false) :
    letterCase.Loses fragments text :=
  ⟨htext, h, fun _ hs => ⟨_, _, reduceEager_letterCase hs _, reduceEager_letterCase hs _, hlost⟩⟩

/-- Primitives, nested templates and literals other than texts stay as they are, and so does what the first letter is in
where the first fragment is empty. -/
theorem case_not_followed :
    LetterCase.upper.Loses [.boolean, .text "-", .number] "true-1" ∧
      LetterCase.capital.Loses [.null, .string] "null" ∧
      LetterCase.upper.Loses [.templatePattern [.text "a", .number], .string] "a1" ∧
      LetterCase.upper.Loses [.truth true, .string] "true" ∧
      LetterCase.capital.Loses [.string, .text "abc"] "abc" := by
  refine ⟨.of_accepts ?_ ?_ ?_, .of_accepts ?_ ?_ ?_, .of_accepts ?_ ?_ ?_, .of_accepts ?_ ?_ ?_, .of_accepts ?_ ?_ ?_⟩
    <;> decide +kernel

end Schemata
