import Schemata.Reference.Cycle
import Schemata.Reference.Graph
import Schemata.Node.Build
import Schemata.Instantiation.State
/-!
# Bundles and modules

A definition that leads back to a name being resolved is a candidate for a bundle.  It is packed together with the
other candidates that it depends on; inside, these are hidden, so references to them stay.  Every other definition is
instantiated by itself.
-/
namespace Schemata

/-- The names among `names` that lead back to themselves or to a name on the way. -/
def candidatesOf (scope : Context) (names : List String) : List String := names.filter (isCyclic scope)

section
variable (evaluate : Evaluator)

/-- **Packs a candidate** with the candidates that it reaches into a bundle. -/
def package (scope : Context) (graph : ReferenceGraph) (candidates : List String) (name : String) : Outcome Node := do
  let members := name :: (graph.closure name).filter fun member => member != name && candidates.contains member
  let hidden := Fields.without scope members
  let definitions ← members.mapM fun member =>
    match scope.get? member with
    | some body => return (member, ← evaluate hidden .initial body)
    | none => .failed (.missing (.member member))
  return .cyclic definitions name

/-- **Instantiates definitions of a scope as one module**, in the given order. -/
def assemble (scope : Context) (names : List String) : Outcome Context := do
  let candidates := candidatesOf scope names
  let graph := ReferenceGraph.ofContext scope
  names.mapM fun name =>
    match scope.get? name with
    | none => .failed (.missing (.definition name))
    | some n =>
      if candidates.contains name then return (name, ← package evaluate scope graph candidates name)
      else return (name, ← evaluate scope .initial n)

/-- **Packs a definition**, bound in a context, into a bundle. -/
def packageDefinition (context : Context) (name : String) (n : Node) : Outcome Node :=
  let scope := context.insert name n
  package evaluate scope (.ofContext scope) (candidatesOf scope scope.names) name

end
end Schemata
