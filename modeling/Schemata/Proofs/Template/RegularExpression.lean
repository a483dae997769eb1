import Schemata.Proofs.Template.Matching
/-!
# Regular expressions

`RegularExpression.read?` reads the text of a regular expression: its characters and classes, groups with alternatives,
repetitions and assertions.  `Spans` says between which places of a text an expression matches, and `Finds` whether it
matches anywhere.

Main statement: the source of a pattern is a regular expression that finds exactly the texts of the pattern
(`Pattern.source_finds`).  No text is found in part, since the source is anchored, and no alternative or special
character reaches beyond the fragment that it comes from.
-/
namespace Schemata

open Relation (ReflTransGen)

/-- **A regular expression.** -/
inductive RegularExpression where
  /-- One character of a kind. -/
  | character (kind : Char → Bool)
  /-- The start of the text. -/
  | start
  /-- The end of the text. -/
  | finish
  /-- A place where a word begins or ends, or one where none does. -/
  | boundary (expected : Bool)
  | sequence (parts : List RegularExpression)
  | choice (alternatives : List RegularExpression)
  | optional (part : RegularExpression)
  /-- Any number of times. -/
  | repeated (part : RegularExpression)

namespace RegularExpression

def exactly (c : Char) : RegularExpression := character (· == c)

/-- At least once. -/
def several (part : RegularExpression) : RegularExpression := sequence [part, repeated part]

def digit : RegularExpression := character decimalDigit.has

/-! ## Where an expression matches -/

section
variable (word : Char → Bool) (text : List Char)

/-- Whether just one of the characters around a place is one of a word; there is none beyond the ends. -/
def isBoundary (i : Nat) : Bool := (decide (0 < i) && text[i - 1]?.any word) != text[i]?.any word

mutual
/-- **Between which places an expression matches.** -/
def Spans : RegularExpression → Nat → Nat → Prop
  | character kind => fun i j => ∃ c, text[i]? = some c ∧ kind c = true ∧ j = i + 1
  | start => fun i j => i = 0 ∧ i = j
  | finish => fun i j => i = text.length ∧ i = j
  | boundary expected => fun i j => isBoundary word text i = expected ∧ i = j
  | sequence parts => SpansAll parts
  | choice alternatives => SpansAny alternatives
  | optional part => fun i j => i = j ∨ Spans part i j
  | repeated part => ReflTransGen (Spans part)

def SpansAll : List RegularExpression → Nat → Nat → Prop
  | [] => fun i j => i = j
  | e :: es => fun i j => ∃ k, Spans e i k ∧ SpansAll es k j

def SpansAny : List RegularExpression → Nat → Nat → Prop
  | [] => fun _ _ => False
  | e :: es => fun i j => Spans e i j ∨ SpansAny es i j
end

/-- **Whether an expression matches somewhere in a text.** -/
def IsMatch (e : RegularExpression) : Prop := ∃ i j, i ≤ text.length ∧ Spans word text e i j

end

/-! ## Reading -/

inductive Token where
  | part (e : RegularExpression)
  /-- What is done to the part before. -/
  | repetition (change : RegularExpression → RegularExpression)
  | opening | closing | bar

/-- What a character stands for by itself; `none` if it needs others. -/
def token? : Char → Option Token
  | '.' => some (.part (character (· != '\n')))
  | '^' => some (.part start)
  | '$' => some (.part finish)
  | '?' => some (.repetition optional)
  | '*' => some (.repetition repeated)
  | '+' => some (.repetition several)
  | '|' => some .bar
  | ')' => some .closing
  | '\\' | '(' | '[' | '\x7b' => none
  | c => some (.part (exactly c))

/-- What a character stands for after a backslash: all that is neither a letter nor a digit may be escaped, except for
angle brackets. -/
def escaped? (c : Char) : Option Token :=
  if c = 'd' then some (.part digit)
  else if c = 'b' then some (.part (boundary true))
  else if c = 'B' then some (.part (boundary false))
  else if c.val < 128 && !c.isAlphanum && c != '<' && c != '>' then some (.part (exactly c))
  else none

def tokens? : List Char → Option (List Token)
  | [] => some []
  | '\\' :: c :: cs => do return (← escaped? c) :: (← tokens? cs)
  | '(' :: '?' :: ':' :: cs => do return .opening :: (← tokens? cs)
  | c :: cs => do return (← token? c) :: (← tokens? cs)

/-- A group that is being read: the alternatives before the last bar, and the parts behind it. -/
structure Group where
  alternatives : List RegularExpression := []
  parts : List RegularExpression := []

namespace Group

def add (g : Group) (more : List RegularExpression) : Group := { g with parts := g.parts ++ more }

/-- The group once its last alternative is complete. -/
def next (g : Group) : Group := { alternatives := g.alternatives ++ [sequence g.parts] }

def expression (g : Group) : RegularExpression := choice g.next.alternatives

/-- Repeats the last part, if there is one. -/
def repeat? (g : Group) (change : RegularExpression → RegularExpression) : Option Group :=
  g.parts.getLast?.map fun e => { g with parts := g.parts.dropLast ++ [change e] }

end Group

/-- Reads on in a group, with the groups around it. -/
def parse? (g : Group) (outer : List Group) : List Token → Option RegularExpression
  | [] => if outer.isEmpty then some g.expression else none
  | .part e :: rest => parse? (g.add [e]) outer rest
  | .repetition change :: rest => do parse? (← g.repeat? change) outer rest
  | .opening :: rest => parse? {} (g :: outer) rest
  | .closing :: rest =>
    match outer with
    | [] => none
    | around :: outer => parse? (around.add [g.expression]) outer rest
  | .bar :: rest => parse? g.next outer rest

/-- **Reads a regular expression.** -/
def read? (source : String) : Option RegularExpression := do parse? {} [] (← tokens? source.toList)

/-- **What a source finds**: it is read, and matches somewhere in the text. -/
def Finds (word : Char → Bool) (source text : String) : Prop :=
  ∃ e, read? source = some e ∧ e.IsMatch word text.toList

/-! ## Reading the source of a pattern -/

theorem Group.add_nil (g : Group) : g.add [] = g := by rw [add, List.append_nil]

theorem Group.add_add (g : Group) (es fs : List RegularExpression) : (g.add es).add fs = g.add (es ++ fs) := by
  rw [add, add, add, List.append_assoc]

theorem Group.repeat?_add (g : Group) (e : RegularExpression) (change : RegularExpression → RegularExpression) :
    (g.add [e]).repeat? change = some (g.add [change e]) := by
  simp [repeat?, add]

/-- The characters are these tokens, whatever comes after them. -/
def Scans (cs : List Char) (ts : List Token) : Prop :=
  ∀ rest, tokens? (cs ++ rest) = (tokens? rest).map (ts ++ ·)

/-- The tokens are these parts of whatever group they stand in. -/
def Parses (ts : List Token) (es : List RegularExpression) : Prop :=
  ∀ g outer rest, parse? g outer (ts ++ rest) = parse? (g.add es) outer rest

/-- **The characters are read as these parts**, wherever they stand. -/
def Reads (cs : List Char) (es : List RegularExpression) : Prop := ∃ ts, Scans cs ts ∧ Parses ts es

section
variable {cs ds : List Char} {ts us : List Token} {es fs : List RegularExpression}

theorem Scans.nil : Scans [] [] := fun rest => by cases h : tokens? rest <;> simp [h]

theorem Scans.append (h : Scans cs ts) (h' : Scans ds us) : Scans (cs ++ ds) (ts ++ us) := fun rest => by
  rw [List.append_assoc, h, h', Option.map_map]
  simp only [Function.comp_def, List.append_assoc]

theorem Parses.nil : Parses [] [] := fun g outer rest => by rw [List.nil_append, g.add_nil]

theorem Parses.append (h : Parses ts es) (h' : Parses us fs) : Parses (ts ++ us) (es ++ fs) := fun g outer rest => by
  rw [List.append_assoc, h, h', Group.add_add]

theorem Reads.nil : Reads [] [] := ⟨[], .nil, .nil⟩

theorem Reads.append (h : Reads cs es) (h' : Reads ds fs) : Reads (cs ++ ds) (es ++ fs) := by
  obtain ⟨ts, hts, hes⟩ := h
  obtain ⟨us, hus, hfs⟩ := h'
  exact ⟨ts ++ us, hts.append hus, hes.append hfs⟩

theorem Reads.flatten {css : List (List Char)} {ess : List (List RegularExpression)}
    (h : List.Forall₂ Reads css ess) : Reads css.flatten ess.flatten := by
  induction h with
  | nil => exact .nil
  | cons h _ ih => exact h.append ih

/-! ### Characters -/

theorem scans_of_token? {c : Char} {t : Token} (h : token? c = some t) : Scans [c] [t] := fun rest => by
  rw [List.singleton_append, tokens?, h]
  · cases tokens? rest <;> rfl
  · rintro _ _ rfl _
    cases h
  · rintro _ rfl _
    cases h

theorem scans_of_escaped? {c : Char} {t : Token} (h : escaped? c = some t) : Scans ['\\', c] [t] := fun rest => by
  rw [List.cons_append, List.singleton_append, tokens?, h]
  cases tokens? rest <;> rfl

theorem parses_part (e : RegularExpression) : Parses [.part e] [e] := fun _ _ _ => rfl

/-- A special character stands for itself behind a backslash, any other one without. -/
theorem reads_escapeChar (c : Char) : Reads (Pattern.escapeChar c) [.exactly c] := by
  refine ⟨[.part (.exactly c)], ?_, parses_part _⟩
  have hspecial : ("\\.+*?()|[]\x7b\x7d^$#&-~".toList.all fun d => d != 'd' && d != 'b' && d != 'B' &&
      (d.val < 128 && !d.isAlphanum && d != '<' && d != '>')) = true := by decide +kernel
  unfold Pattern.escapeChar
  split
  · rename_i h
    have hc := List.all_eq_true.1 hspecial c (List.contains_iff_mem.1 h)
    rw [Bool.and_eq_true, Bool.and_eq_true, Bool.and_eq_true, bne_iff_ne, bne_iff_ne, bne_iff_ne] at hc
    obtain ⟨⟨⟨hd, hb⟩, hB⟩, hc⟩ := hc
    exact scans_of_escaped? (by rw [escaped?, if_neg hd, if_neg hb, if_neg hB, if_pos hc])
  · rename_i h
    refine scans_of_token? ?_
    unfold token?
    split <;> first | rfl | exact absurd (by decide) h

theorem reads_exactly (text : List Char) : Reads (text.flatMap Pattern.escapeChar) (text.map .exactly) := by
  induction text with
  | nil => exact .nil
  | cons c text ih => exact (reads_escapeChar c).append ih

/-- A repetition is of what stands right before it. -/
theorem reads_repetition {e : RegularExpression} {change : RegularExpression → RegularExpression} {mark : Char}
    (h : Scans cs [.part e]) (hmark : token? mark = some (.repetition change)) : Reads (cs ++ [mark]) [change e] := by
  refine ⟨_, h.append (scans_of_token? hmark), fun g outer rest => ?_⟩
  change (g.add [e]).repeat? change >>= (fun g => parse? g outer rest) = _
  rw [g.repeat?_add]
  rfl

/-! ### Groups -/

/-- Alternatives with bars between them, behind the alternatives before: all of them are alternatives of the group once
the last one is complete. -/
theorem parse?_barred {tss : List (List Token)} {ess : List (List RegularExpression)} (h : List.Forall₂ Parses tss ess)
    (alternatives : List RegularExpression) (hne : ess ≠ []) :
    ∃ g : Group, g.next.alternatives = alternatives ++ ess.map sequence ∧ ∀ outer rest,
      parse? { alternatives } outer ([Token.bar].intercalate tss ++ rest) = parse? g outer rest := by
  induction h generalizing alternatives with
  | nil => exact absurd rfl hne
  | @cons ts es tss ess h hmore ih =>
    cases hmore with
    | nil =>
      refine ⟨Group.add { alternatives } es, rfl, fun outer rest => ?_⟩
      rw [List.intercalate_singleton, h]
    | @cons us fs tss ess h' hmore =>
      obtain ⟨g, hg, hparse⟩ := ih (alternatives ++ [sequence es]) (List.cons_ne_nil _ _)
      refine ⟨g, by rw [hg, List.append_assoc]; rfl, fun outer rest => ?_⟩
      rw [List.intercalate_cons_cons, List.append_assoc, List.append_assoc, h]
      exact hparse outer rest

theorem scans_intercalate {css : List (List Char)} {tss : List (List Token)} (h : List.Forall₂ Scans css tss) :
    Scans (['|'].intercalate css) ([Token.bar].intercalate tss) := by
  induction h with
  | nil => exact .nil
  | @cons cs ts css tss h hmore ih =>
    cases hmore with
    | nil =>
      rw [List.intercalate_singleton, List.intercalate_singleton]
      exact h
    | cons =>
      rw [List.intercalate_cons_cons, List.intercalate_cons_cons]
      exact (h.append (scans_of_token? rfl)).append ih

/-- **A group is read as the choice of its alternatives**; without any it is one empty alternative. -/
theorem reads_group {css : List (List Char)} {ess : List (List RegularExpression)} (h : List.Forall₂ Reads css ess) :
    Reads ("(?:".toList ++ ['|'].intercalate css ++ [')'])
      [choice (if ess = [] then [sequence []] else ess.map sequence)] := by
  obtain ⟨tss, hscans, hparses⟩ : ∃ tss, List.Forall₂ Scans css tss ∧ List.Forall₂ Parses tss ess := by
    induction h with
    | nil => exact ⟨[], .nil, .nil⟩
    | cons h _ ih =>
      obtain ⟨ts, hts, hes⟩ := h
      obtain ⟨tss, htss, hess⟩ := ih
      exact ⟨ts :: tss, .cons hts htss, .cons hes hess⟩
  have hopening : Scans "(?:".toList [.opening] := fun rest => by
    change tokens? ('(' :: '?' :: ':' :: rest) = _
    rw [tokens?]
    cases tokens? rest <;> rfl
  refine ⟨_, (hopening.append (scans_intercalate hscans)).append (scans_of_token? rfl), fun g outer rest => ?_⟩
  obtain ⟨inner, hinner, hparse⟩ : ∃ inner : Group,
      inner.next.alternatives = (if ess = [] then [sequence []] else ess.map sequence) ∧ ∀ outer rest,
        parse? {} outer ([Token.bar].intercalate tss ++ rest) = parse? inner outer rest := by
    by_cases hess : ess = []
    · subst hess
      cases hparses
      exact ⟨{}, rfl, fun _ _ => rfl⟩
    · rw [if_neg hess]
      exact parse?_barred hparses [] hess
  rw [← hinner, List.append_assoc, List.append_assoc]
  change parse? {} (g :: outer) ([Token.bar].intercalate tss ++ (.closing :: rest)) = _
  rw [hparse]
  rfl

end

end RegularExpression

namespace Pattern

open Schemata.RegularExpression

mutual
/-- What the body of a pattern is read as, part by part. -/
def expressions : Pattern → List RegularExpression
  | .exactly text => text.toList.map .exactly
  | .anything => [.repeated (.character (· != '\n'))]
  | .number =>
    [.optional (.exactly '-'),
      .choice [.sequence [several digit], .sequence [.repeated digit, .exactly '.', several digit]]]
  | .whole => [.optional (.exactly '-'), several digit]
  | .nothing => [.boundary true, .boundary false]
  | .choice alternatives =>
    let sequences := expressionsEach alternatives
    [.choice (if sequences = [] then [.sequence []] else sequences.map .sequence)]
  | .sequence parts => (expressionsEach parts).flatten

def expressionsEach : List Pattern → List (List RegularExpression)
  | [] => []
  | p :: ps => p.expressions :: expressionsEach ps
end

theorem reads_sign : Reads "-?".toList [.optional (.exactly '-')] := reads_repetition (scans_of_token? rfl) rfl

theorem reads_digits {mark : Char} {change : RegularExpression → RegularExpression}
    (hmark : token? mark = some (.repetition change)) : Reads ['\\', 'd', mark] [change digit] := by
  have hdigit : Scans ['\\', 'd'] [.part digit] := scans_of_escaped? rfl
  exact reads_repetition hdigit hmark

theorem reads_magnitude : Reads "(?:\\d+|\\d*\\.\\d+)".toList
    [.choice [.sequence [several digit], .sequence [.repeated digit, .exactly '.', several digit]]] := by
  have hfraction : Reads "\\d*\\.\\d+".toList [.repeated digit, .exactly '.', several digit] :=
    (reads_digits rfl).append (Reads.append ⟨_, scans_of_escaped? rfl, parses_part _⟩ (reads_digits rfl))
  exact reads_group (.cons (reads_digits rfl) (.cons hfraction .nil))

mutual
/-- **The body of a pattern is read part by part.** -/
theorem reads_body (p : Pattern) : Reads p.body.toList p.expressions := by
  cases p with
  | exactly text =>
    rw [body, String.toList_ofList]
    exact reads_exactly text.toList
  | anything =>
    have hpoint : Scans ['.'] [.part (.character (· != '\n'))] := scans_of_token? rfl
    exact reads_repetition hpoint rfl
  | number => exact reads_sign.append reads_magnitude
  | whole => exact reads_sign.append (reads_digits rfl)
  | nothing =>
    exact Reads.append ⟨_, scans_of_escaped? rfl, parses_part _⟩ ⟨_, scans_of_escaped? rfl, parses_part _⟩
  | choice alternatives =>
    rw [body, String.toList_append, String.toList_append, String.toList_intercalate]
    exact reads_group (reads_bodies alternatives)
  | sequence parts =>
    rw [body, String.toList_join, List.flatMap_def]
    exact .flatten (reads_bodies parts)

theorem reads_bodies (ps : List Pattern) :
    List.Forall₂ Reads ((bodies ps).map String.toList) (expressionsEach ps) := by
  cases ps with
  | nil => exact .nil
  | cons p ps => exact .cons (reads_body p) (reads_bodies ps)
end

/-- What the source of a pattern is read as. -/
def expression (p : Pattern) : RegularExpression := .choice [.sequence (.start :: p.expressions ++ [.finish])]

theorem read?_source (p : Pattern) : read? p.source = some p.expression := by
  have hstart : Reads ['^'] [.start] := ⟨_, scans_of_token? rfl, parses_part _⟩
  have hfinish : Reads ['$'] [.finish] := ⟨_, scans_of_token? rfl, parses_part _⟩
  obtain ⟨ts, hscans, hparses⟩ := (hstart.append p.reads_body).append hfinish
  have hsource : p.source.toList = (['^'] ++ p.body.toList ++ ['$']) ++ [] := by
    rw [source, String.toList_append, String.toList_append, List.append_nil]
    rfl
  rw [read?, hsource, hscans]
  exact hparses {} [] []

/-! ## What the source finds -/

section
variable {word : Char → Bool} {cs : List Char} {es fs : List RegularExpression} {e : RegularExpression} {A B : Texts}
  {i j : Nat}

theorem spansAll_append :
    SpansAll word cs (es ++ fs) i j ↔ ∃ k, SpansAll word cs es i k ∧ SpansAll word cs fs k j := by
  induction es generalizing i with
  | nil => simp [SpansAll]
  | cons e es ih =>
    simp only [List.cons_append, SpansAll, ih]
    constructor
    · rintro ⟨k, he, l, hes, hfs⟩
      exact ⟨l, ⟨k, he, hes⟩, hfs⟩
    · rintro ⟨l, ⟨k, he, hes⟩, hfs⟩
      exact ⟨k, he, l, hes, hfs⟩

/-- **Expressions one after the other match the texts of a set**, wherever they begin in a text. -/
def Agree (word : Char → Bool) (cs : List Char) (es : List RegularExpression) (L : Texts) : Prop :=
  ∀ i ≤ cs.length, ∀ j, SpansAll word cs es i j ↔ Along cs L i j

theorem agree_singleton : Agree word cs [e] A ↔ ∀ i ≤ cs.length, ∀ j, Spans word cs e i j ↔ Along cs A i j := by
  simp [Agree, SpansAll]

theorem agree_nil : Agree word cs [] (· = []) := fun i hi j => by
  rw [along_nil, SpansAll]
  exact ⟨fun h => ⟨h, hi⟩, And.left⟩

theorem Agree.append (h : Agree word cs es A) (h' : Agree word cs fs B) : Agree word cs (es ++ fs) (.append A B) :=
  fun i hi j => by
  rw [spansAll_append, along_append]
  refine exists_congr fun k => ?_
  rw [h i hi]
  exact and_congr_right fun hk => h' k hk.2.1 j

theorem agree_character (kind : Char → Bool) : Agree word cs [.character kind] (.one kind) :=
  agree_singleton.2 fun i _ j => by rw [Spans, along_one]

theorem agree_exactly (text : List Char) : Agree word cs (text.map .exactly) (· = text) := by
  induction text with
  | nil => exact agree_nil
  | cons t text ih =>
    rw [← Texts.append_one_eq]
    exact (agree_character (· == t)).append ih

theorem agree_repeated (kind : Char → Bool) : Agree word cs [.repeated (.character kind)] (.many kind) :=
  agree_singleton.2 fun i hi j => by
  rw [Spans, along_many]
  have hsteps : Spans word cs (.character kind) = Along cs (.one kind) := by
    funext i j
    exact propext (by rw [Spans, along_one])
  rw [hsteps]
  exact ⟨fun h => ⟨hi, h⟩, And.right⟩

theorem agree_sequence (h : Agree word cs es A) : Agree word cs [.sequence es] A := agree_singleton.2 h

theorem agree_several (kind : Char → Bool) : Agree word cs [several (.character kind)] (.some kind) :=
  agree_sequence ((agree_character kind).append (agree_repeated kind))

theorem agree_optional (h : Agree word cs [e] A) : Agree word cs [.optional e] (.either (· = []) A) :=
  agree_singleton.2 fun i hi j => by
  rw [along_either, along_nil, ← agree_singleton.1 h i hi]
  exact or_congr_left ⟨fun h => ⟨h, hi⟩, And.left⟩

theorem agree_choice_nil : Agree word cs [.choice []] (fun _ => False) := agree_singleton.2 fun _ _ _ =>
  ⟨False.elim, fun h => (along_none h).elim⟩

theorem agree_choice_cons {rest : List RegularExpression} (h : Agree word cs es A)
    (h' : Agree word cs [.choice rest] B) : Agree word cs [.choice (.sequence es :: rest)] (.either A B) :=
  agree_singleton.2 fun i hi j => by
  rw [along_either, ← h i hi, ← agree_singleton.1 h' i hi]
  rfl

/-- No place is both a boundary and none. -/
theorem agree_nothing : Agree word cs [.boundary true, .boundary false] (fun _ => False) := fun i hi j => by
  refine ⟨?_, fun h => (along_none h).elim⟩
  rintro ⟨k, ⟨htrue, rfl⟩, l, ⟨hfalse, -⟩, -⟩
  rw [htrue] at hfalse
  cases hfalse

theorem agree_digits : Agree word cs [several digit] (.some decimalDigit.has) := agree_several _

theorem agree_sign : Agree word cs [.optional (.exactly '-')] signTexts := agree_optional (agree_character _)

theorem agree_magnitude : Agree word cs
    [.choice [.sequence [several digit], .sequence [.repeated digit, .exactly '.', several digit]]] magnitudeTexts := by
  have hfraction : Agree word cs [.repeated digit, .exactly '.', several digit]
      (.append (.many decimalDigit.has) (.append (.one (· == '.')) (.some decimalDigit.has))) :=
    (agree_repeated _).append ((agree_character _).append agree_digits)
  rw [magnitudeTexts, ← Texts.either_none (.append (.many _) _)]
  exact agree_choice_cons agree_digits (agree_choice_cons hfraction agree_choice_nil)

mutual
/-- **What a pattern is read as matches the texts of the pattern**, whatever stands around them. -/
theorem agree_expressions (word : Char → Bool) (cs : List Char) (p : Pattern) :
    Agree word cs p.expressions p.Matches := by
  cases p with
  | exactly text => exact agree_exactly text.toList
  | anything => exact agree_repeated _
  | number => exact agree_sign.append agree_magnitude
  | whole => exact agree_sign.append agree_digits
  | nothing => exact agree_nothing
  | choice alternatives =>
    cases alternatives with
    | nil =>
      have h : Agree word cs [.choice [.sequence []]] (.either (· = []) (fun _ => False)) :=
        agree_choice_cons agree_nil agree_choice_nil
      rwa [Texts.either_none] at h
    | cons p ps => exact agree_expressionsAny word cs (p :: ps)
  | sequence parts => exact agree_expressionsAll word cs parts

theorem agree_expressionsAny (word : Char → Bool) (cs : List Char) (ps : List Pattern) :
    Agree word cs [.choice ((expressionsEach ps).map .sequence)] (MatchesAny ps) := by
  cases ps with
  | nil => exact agree_choice_nil
  | cons p ps => exact agree_choice_cons (agree_expressions word cs p) (agree_expressionsAny word cs ps)

theorem agree_expressionsAll (word : Char → Bool) (cs : List Char) (ps : List Pattern) :
    Agree word cs (expressionsEach ps).flatten (MatchesAll ps) := by
  cases ps with
  | nil => exact agree_nil
  | cons p ps => exact (agree_expressions word cs p).append (agree_expressionsAll word cs ps)
end

/-- What the source is read as matches whole texts only. -/
theorem isMatch_expression {p : Pattern} : p.expression.IsMatch word cs ↔ p.Matches cs := by
  rw [← along_whole (L := p.Matches), ← agree_expressions word cs p 0 (Nat.zero_le _)]
  simp only [RegularExpression.IsMatch, expression, Spans, SpansAny, SpansAll, or_false, List.cons_append,
    spansAll_append]
  constructor
  · rintro ⟨i, j, -, _, ⟨rfl, rfl⟩, k, h, _, ⟨rfl, rfl⟩, rfl⟩
    exact h
  · intro h
    exact ⟨0, cs.length, Nat.zero_le _, 0, ⟨rfl, rfl⟩, cs.length, h, cs.length, ⟨rfl, rfl⟩, rfl⟩

end

/-- **The source of a pattern finds the texts of the pattern.** -/
theorem source_finds {p : Pattern} {word : Char → Bool} {text : String} :
    RegularExpression.Finds word p.source text ↔ p.Matches text.toList := by
  simp only [RegularExpression.Finds, read?_source, Option.some.injEq, exists_eq_left', isMatch_expression]

end Pattern
end Schemata
