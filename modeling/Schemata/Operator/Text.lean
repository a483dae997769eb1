import Schemata.Operator.Setting
import Schemata.Template.Expansion
import Schemata.Text.LetterCase
/-!
# Operators on texts

Letter case goes into literals, unions and patterns; templates become unions of literals when they are finite, and
patterns otherwise.
-/
namespace Schemata

mutual
/-- Changes the case of the literal texts in a fragment of a pattern; anything else in it stays. -/
def LetterCase.inFragment (letterCase : LetterCase) : Node → Node
  | ⟨.literal (.string text), m, a⟩ => ⟨.literal (.string (letterCase.apply text)), m, a⟩
  | ⟨.union variants, m, a⟩ => ⟨.union (letterCase.inFragments variants), m, a⟩
  | n => n

def LetterCase.inFragments (letterCase : LetterCase) : List Node → List Node
  | [] => []
  | n :: ns => letterCase.inFragment n :: letterCase.inFragments ns
end

/-- Changes the case of a pattern: of all fragments, or of the first where only the first letter changes. -/
def LetterCase.inPattern (letterCase : LetterCase) (fragments : List Node) : List Node :=
  match letterCase, fragments with
  | .upper, _ | .lower, _ => letterCase.inFragments fragments
  | _, [] => []
  | _, first :: rest => letterCase.inFragment first :: rest

mutual
/-- Changes the case of a type of texts, or of every variant. -/
def changeCase (s : Setting) (letterCase : LetterCase) : Node → Outcome (Option Node)
  | ⟨.literal (.string text), _, _⟩ => pure (some (.text (letterCase.apply text)))
  | ⟨.union variants, _, _⟩ => do return (← changeCaseEach s letterCase variants).map Node.unionOf
  | n =>
    match n.kind with
    | .primitive .string | .primitive .any | .primitive .never => pure (some n)
    | .templatePattern fragments => pure (some (.templatePattern (letterCase.inPattern fragments)))
    | _ => if n.isUnresolved then pure none else s.mismatch .stringType n

def changeCaseEach (s : Setting) (letterCase : LetterCase) : List Node → Outcome (Option (List Node))
  | [] => pure (some [])
  | n :: ns => do
    match ← changeCase s letterCase n with
    | none => pure none
    | some changed => return (← changeCaseEach s letterCase ns).map (changed :: ·)
end

/-- **Changes letter case.** -/
def caseOf (s : Setting) (letterCase : LetterCase) : List Node → Outcome (Option Node)
  | [subject] => changeCase s letterCase subject
  | operands => s.wrongArity (.exactly 1) operands

/-- **The texts of a template** as a union, or as a pattern when they have no end or are too many. -/
def templateTexts (s : Setting) (fragments : List Node) : Outcome (Option Node) :=
  match expand s.templateLimit fragments with
  | .finite texts => pure (some (.unionOf (texts.map Node.text)))
  | .unbounded => pure (some (.templatePattern fragments))
  | .unresolved => pure none

end Schemata
