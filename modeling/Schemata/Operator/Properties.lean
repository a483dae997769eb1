import Schemata.Operator.Setting
/-!
# Properties

An object, or an intersection of objects, is seen as one list of properties (`collapse`).  Operators on it change that
list, in each variant of a union and in the root of a bundle; interfaces join several lists.
-/
namespace Schemata

/-! ## Property lists -/

/-- A node as a list of properties. -/
inductive Collapse where
  | properties (properties : Fields Node)
  | unresolved
  | notObject

/-- Two types of one property, as one: both types at once, optional only if both are. -/
def intersectProperty (left right : Node) : Node :=
  if left == right then left
  else
    (Node.intersect [left.bare, right.bare]).withModifiers
      ⟨left.modifiers.optional && right.modifiers.optional, left.modifiers.readonly || right.modifiers.readonly⟩

def mergeProperties (merged more : Fields Node) : Fields Node :=
  more.foldl (fun acc e =>
    match acc.get? e.1 with
    | some previous => acc.insert e.1 (intersectProperty previous e.2)
    | none => acc.insert e.1 e.2) merged

mutual
/-- **The properties of an object**, or of an intersection of objects. -/
def collapse : Node → Collapse
  | ⟨.object properties, _, _⟩ => .properties properties
  | ⟨.intersect members, _, _⟩ => collapseAll [] members
  | n => if n.isUnresolved then .unresolved else .notObject

/-- The properties of all members, added to those so far. -/
def collapseAll (merged : Fields Node) : List Node → Collapse
  | [] => .properties merged
  | n :: ns =>
    match collapse n with
    | .properties properties => collapseAll (mergeProperties merged properties) ns
    | other => other
end

/-! ## Changing properties -/

/-- A node that takes no part in changes, or the properties to change. -/
def changeLeaf (s : Setting) (change : Fields Node → Fields Node) (n : Node) : Outcome (Option Node) :=
  match n.kind with
  | .primitive .any | .primitive .never => pure (some n)
  | _ =>
    match collapse n with
    | .properties properties => pure (some (.of (.object (change properties))))
    | .unresolved => pure none
    | .notObject => s.mismatch .objectType n

/-- **Changes the properties of a subject**, in each variant of a union. -/
def changeProperties (s : Setting) (change : Fields Node → Fields Node) (subject : Node) : Outcome (Option Node) :=
  s.openSubject Node.unionOf (changeLeaf s change) subject

def changeModifiers (s : Setting) (change : Modifiers → Modifiers) : List Node → Outcome (Option Node)
  | [subject] => changeProperties s (Fields.mapValues fun n => n.withModifiers (change n.modifiers)) subject
  | operands => s.wrongArity (.exactly 1) operands

/-! ## Intersections and interfaces -/

/-- Evaluation of a node that is no union and no bundle; an intersection of other things than objects stays. -/
def evaluateLeaf (n : Node) : Outcome (Option Node) :=
  match n.kind with
  | .intersect _ =>
    match collapse n with
    | .properties properties => pure (some (.of (.object properties)))
    | .unresolved => pure none
    | .notObject => pure (some n)
  | _ => if n.isUnresolved then pure none else pure (some n)

/-- **Merges intersections of objects.** -/
def evaluateShape (s : Setting) : List Node → Outcome (Option Node)
  | [subject] => s.openSubject Node.unionOf evaluateLeaf subject
  | operands => s.wrongArity (.exactly 1) operands

def heritageProperties (s : Setting) (operand : Node) : Outcome (Option (Fields Node)) := do
  let operand ← s.subject operand
  match operand.kind with
  | .cyclic definitions root =>
    match (Fields.get? definitions root).map collapse with
    | some (.properties properties) => pure (some properties)
    | _ => s.mismatch .objectType operand
  | _ =>
    match collapse operand with
    | .properties properties => pure (some properties)
    | .unresolved => pure none
    | .notObject => s.mismatch .objectType operand

/-- **An object of all properties**, later operands winning. -/
def interfaceOf (s : Setting) : List Node → Outcome (Option Node)
  | [] => s.wrongArity (.atLeast 1) []
  | operands => do
    match ← Outcome.collect? (heritageProperties s) operands with
    | none => pure none
    | some heritage => pure (some (.of (.object (heritage.foldl Fields.extend []))))

end Schemata
