import Schemata.Instantiation.Bundle
/-!
# Reduction of operators

A reducer turns an operator and its operands into a node, once enough is known about the operands.  It is given the
setting it works in: the context, the state and a way to instantiate further nodes.  Where some operand is still
unresolved it gives no node, and the application stays deferred.

- `subject` lets a reducer see the shape of a definition that is cyclic, as a bundle.
- `bundled` closes what a reducer made of the root of a bundle.
- `openSubject` leads a reducer through unions, bundles and references to the nodes that it is about.
-/
namespace Schemata

/-- **What a reducer works with.** -/
structure Setting where
  /-- How many texts a template may expand to. -/
  templateLimit : Nat
  evaluate : Evaluator
  context : Context
  state : State
  operator : Operator

namespace Setting

variable (s : Setting)

def instantiate (n : Node) : Outcome Node := s.evaluate s.context s.state n

def instantiateIn (context : Context) (n : Node) : Outcome Node := s.evaluate context s.state n

def mismatch {α : Type} (expected : Expectation) (received : Node) : Outcome α :=
  .failed (.structuralMismatch s.operator expected received)

def wrongArity {α : Type} (expected : Arity) (operands : List Node) : Outcome α :=
  .failed (.invalidArity s.operator expected operands.length)

/-- **A subject with its shape to be seen**: a reference that stayed, because its definition is cyclic, is packed into
a bundle. -/
def subject (n : Node) : Outcome Node :=
  match n.kind with
  | .ref name =>
    match s.context.get? name with
    | some target => return (← packageDefinition s.evaluate s.context name target).inherit n
    | none => pure n
  | _ => pure n

/-- **What the root of a bundle was reduced to**, outside of the bundle.  A result that refers to definitions of the
bundle becomes the root of a bundle of its own. -/
def bundled (definitions : Fields Node) (root : String) (result : Node) : Node :=
  if result.references.any definitions.has then
    let name := s.operator.word ++ "<" ++ root ++ ">"
    .cyclic (definitions.insert name result) name
  else result

section
variable (join : List Node → Node) (leaf follow : Node → Outcome (Option Node))

mutual
/-- Opens unions and bundles down to what is neither: `follow` reduces references, `leaf` everything else, and `join`
puts the variants of a union together. -/
def openNode : Node → Outcome (Option Node)
  | ⟨.union variants, _, _⟩ => do return (← openEach variants).map join
  | ⟨.cyclic definitions root, _, _⟩ => do return (← openRoot root definitions).map (s.bundled definitions root)
  | ⟨.ref name, m, a⟩ => follow ⟨.ref name, m, a⟩
  | n => leaf n

/-- Opens each node; the first without a result ends the list. -/
def openEach : List Node → Outcome (Option (List Node))
  | [] => pure (some [])
  | n :: ns => do
    match ← openNode n with
    | none => pure none
    | some opened => return (← openEach ns).map (opened :: ·)

def openRoot (root : String) : List (String × Node) → Outcome (Option Node)
  | [] => .failed (.missing (.root root))
  | (name, n) :: rest => if name = root then openNode n else openRoot root rest
end

end

/-- Opens a node and follows references of the context, `follows` of them one after the other at most. -/
def openWithin (join : List Node → Node) (leaf : Node → Outcome (Option Node)) : Nat → Node → Outcome (Option Node)
  | 0, _ => .exhausted
  | follows + 1, n =>
    s.openNode join leaf (fun reference => do
      let subject ← s.subject reference
      match subject.kind with
      | .ref _ => leaf subject
      | _ => openWithin join leaf follows subject) n

/-- **Opens a subject**: unions are reduced variant by variant and their results joined, bundles through their root,
references through their definition, and everything else by `leaf`.  More references in a chain than the context has
names lead back to one of them, and have no end. -/
def openSubject (join : List Node → Node) (leaf : Node → Outcome (Option Node)) (n : Node) : Outcome (Option Node) :=
  s.openWithin join leaf (s.context.length + 1) n

end Setting
end Schemata
