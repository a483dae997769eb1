import Schemata.Node.Display
import Schemata.Text.DecimalDigit
/-!
# Patterns

A template with infinitely many texts is matched as a pattern.

- `Pattern.ofFragments` gives the pattern of a template.
- `Pattern.source` writes it as an anchored regular expression.
- `Pattern.accepts` says whether a whole text matches.  `reach` takes the places of a text where matches may begin to
  those where they may end, and goes over the text a fixed number of times for each pattern in it.  Patterns nested too
  deeply match nothing.
-/
namespace Schemata

/-- **A pattern of texts.** -/
inductive Pattern where
  /-- Exactly this text. -/
  | exactly (text : String)
  /-- Anything on one line. -/
  | anything
  /-- A decimal number: an optional minus, then digits, or digits around a point with some behind it. -/
  | number
  /-- A whole number: an optional minus, then digits. -/
  | whole
  /-- No text at all. -/
  | nothing
  /-- One of several patterns; the empty text if there are none. -/
  | choice (alternatives : List Pattern)
  /-- Several patterns, one after the other. -/
  | sequence (parts : List Pattern)

namespace Pattern

/-! ## The pattern of a template -/

mutual
def ofNode : Node → Pattern
  | ⟨.literal l, _, _⟩ => .exactly l.toKey
  | ⟨.primitive .number, _, _⟩ => .number
  | ⟨.primitive .integer, _, _⟩ | ⟨.primitive .bigInt, _, _⟩ => .whole
  | ⟨.primitive .boolean, _, _⟩ => .choice [.exactly "true", .exactly "false"]
  | ⟨.primitive .null, _, _⟩ => .exactly "null"
  | ⟨.primitive .undefined, _, _⟩ => .exactly "undefined"
  | ⟨.primitive .never, _, _⟩ => .nothing
  | ⟨.union variants, _, _⟩ => .choice (ofNodes variants)
  | ⟨.templatePattern fragments, _, _⟩ => .sequence (ofNodes fragments)
  | _ => .anything

def ofNodes : List Node → List Pattern
  | [] => []
  | n :: ns => ofNode n :: ofNodes ns
end

theorem ofNodes_eq_map (ns : List Node) : ofNodes ns = ns.map ofNode := by
  induction ns with
  | nil => rfl
  | cons n ns ih => rw [ofNodes, ih, List.map_cons]

/-- **The pattern of a template.** -/
def ofFragments (fragments : List Node) : Pattern := .sequence (ofNodes fragments)

/-! ## As a regular expression -/

/-- A character that stands for itself in a regular expression. -/
def escapeChar (c : Char) : List Char := if "\\.+*?()|[]\x7b\x7d^$#&-~".toList.contains c then ['\\', c] else [c]

mutual
def body : Pattern → String
  | .exactly text => String.ofList (text.toList.flatMap escapeChar)
  | .anything => ".*"
  | .number => "-?(?:\\d+|\\d*\\.\\d+)"
  | .whole => "-?\\d+"
  | .nothing => "\\b\\B"
  | .choice alternatives => "(?:" ++ "|".intercalate (bodies alternatives) ++ ")"
  | .sequence parts => String.join (bodies parts)

def bodies : List Pattern → List String
  | [] => []
  | p :: ps => p.body :: bodies ps
end

/-- **A pattern as an anchored regular expression.** -/
def source (p : Pattern) : String := "^" ++ p.body ++ "$"

/-! ## Matching -/

/-- **Marks at the places of a text**: one before each character, and one at the end. -/
abbrev Marks := List Bool

def advance (kind : Char → Bool) (cs : List Char) (marks : Marks) : Marks :=
  false :: List.zipWith (fun c mark => mark && kind c) cs marks

/-- Marks spread over any number of characters of a kind; `carried` tells whether a mark has come so far. -/
def spread (kind : Char → Bool) (carried : Bool) : List Char → Marks → Marks
  | _, [] => []
  | [], mark :: _ => [carried || mark]
  | c :: cs, mark :: marks => (carried || mark) :: spread kind ((carried || mark) && kind c) cs marks

def either (marks others : Marks) : Marks := List.zipWith (· || ·) marks others

def advanceAlong (text cs : List Char) (marks : Marks) : Marks :=
  text.foldl (fun marks t => advance (· == t) cs marks) marks

def advanceDigits (cs : List Char) (marks : Marks) : Marks :=
  spread decimalDigit.has false cs (advance decimalDigit.has cs marks)

/-- Marks moved over a minus, or left where they are. -/
def advanceSign (cs : List Char) (marks : Marks) : Marks := either marks (advance (· == '-') cs marks)

/-- Marks moved over digits, or over digits around a point with some behind it. -/
def advanceMagnitude (cs : List Char) (marks : Marks) : Marks :=
  either (advanceDigits cs marks) (advanceDigits cs (advance (· == '.') cs (spread decimalDigit.has false cs marks)))

mutual
/-- **Where a match may end** that begins at a marked place. -/
def reach (cs : List Char) : Pattern → Marks → Marks
  | .exactly text, marks => advanceAlong text.toList cs marks
  | .anything, marks => spread (· != '\n') false cs marks
  | .number, marks => advanceMagnitude cs (advanceSign cs marks)
  | .whole, marks => advanceDigits cs (advanceSign cs marks)
  | .nothing, marks => marks.map fun _ => false
  | .choice alternatives, marks => if alternatives.isEmpty then marks else reachAny cs alternatives marks
  | .sequence parts, marks => reachAll cs parts marks

def reachAny (cs : List Char) : List Pattern → Marks → Marks
  | [], marks => marks.map fun _ => false
  | p :: ps, marks => either (reach cs p marks) (reachAny cs ps marks)

/-- Where matches of several patterns one after the other may end. -/
def reachAll (cs : List Char) : List Pattern → Marks → Marks
  | [], marks => marks
  | p :: ps, marks => reachAll cs ps (reach cs p marks)
end

def startMark (cs : List Char) : Marks := true :: cs.map fun _ => false

/-! ## Nesting -/

/-- How deep the levels of a list of items go: one more for a list of several. -/
def layered (count depth : Nat) : Nat := if count ≤ 1 then depth else depth + 1

mutual
/-- How many items a pattern puts into the sequence around it. -/
def itemCount : Pattern → Nat
  | .exactly text => text.length
  | .anything | .choice _ => 1
  | .number | .whole | .nothing => 2
  | .sequence parts => itemCounts parts

/-- How many items patterns put into the sequence around them. -/
def itemCounts : List Pattern → Nat
  | [] => 0
  | p :: ps => itemCount p + itemCounts ps
end

mutual
/-- How deep the items of a pattern are nested: groups, choices, sequences and repetitions count one each. -/
def nesting : Pattern → Nat
  | .exactly _ | .nothing => 0
  | .anything | .whole => 1
  | .number => 4
  | .choice alternatives => 1 + layered alternatives.length (choiceNesting alternatives)
  | .sequence parts => sequenceNesting parts

def choiceNesting : List Pattern → Nat
  | [] => 0
  | p :: ps => max (layered (itemCount p) (nesting p)) (choiceNesting ps)

def sequenceNesting : List Pattern → Nat
  | [] => 0
  | p :: ps => max (nesting p) (sequenceNesting ps)
end

/-- The deepest nesting that can be matched, anchors and all. -/
def maxNesting : Nat := 250

def isUsable (p : Pattern) : Bool := p.nesting + 1 ≤ maxNesting

/-- **Whether a whole text matches.** -/
def accepts (p : Pattern) (text : String) : Bool :=
  p.isUsable && (p.reach text.toList (startMark text.toList)).getLastD false

end Pattern
end Schemata
