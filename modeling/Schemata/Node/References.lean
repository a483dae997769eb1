import Schemata.Node.Basic
import Schemata.Distinct
/-!
# References of a node

- `references` are the names that a node refers to, in order of first occurrence.  A generic hides its parameters
  inside their constraints, their defaults and its body; a bundle is closed.
- `exposed` are the names referred to outside of generics and bundles: where resolving the node leads next.
-/
namespace Schemata

def Kind.declared {α : Type} : Kind α → List String
  | .generic parameters _ => parameters.map (·.name)
  | _ => []

namespace Node

/-- The names other than hidden ones that are referred to below a node, in order of first occurrence. -/
def referencesUnder (hidden : List String) (n : Node) : List String :=
  match n.kind with
  | .ref name => if hidden.contains name then [] else [name]
  | kind => distinct (n.children.attach.flatMap fun ⟨c, _⟩ => c.referencesUnder (hidden ++ kind.declared))
termination_by n.size
decreasing_by exact size_lt_of_mem_children ‹_›

theorem referencesUnder_eq (hidden : List String) (n : Node) : n.referencesUnder hidden =
    match n.kind with
    | .ref name => if hidden.contains name then [] else [name]
    | kind => distinct (n.children.flatMap (referencesUnder (hidden ++ kind.declared))) := by
  rw [referencesUnder]; split <;> simp_all

/-- **The names that a node refers to**, in order of first occurrence. -/
def references (n : Node) : List String := n.referencesUnder []

/-- **The names referred to outside of generics and bundles**, in order, with repetitions. -/
def exposed (n : Node) : List String :=
  match n.kind with
  | .ref name => [name]
  | .generic .. => []
  | _ => n.children.attach.flatMap fun ⟨c, _⟩ => c.exposed
termination_by n.size
decreasing_by exact size_lt_of_mem_children ‹_›

theorem exposed_eq (n : Node) : n.exposed =
    match n.kind with
    | .ref name => [name]
    | .generic .. => []
    | _ => n.children.flatMap exposed := by
  rw [exposed]; split <;> simp_all

end Node
end Schemata
