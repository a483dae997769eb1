import Schemata.Node.References
/-!
# The reference graph

Which definitions refer to which.  The names stand in graph order: those of the context, then the names that are only
referred to, in order of first mention.

- `closure` lists a name and all that is reachable from it, in graph order.
- `groups` lists the classes of names that reach each other, where a single name counts if it refers to itself.
-/
namespace Schemata

/-- Names with the names that each refers to. -/
structure ReferenceGraph where
  /-- All names, in graph order. -/
  names : List String
  /-- The references of each definition. -/
  edges : Fields (List String)

namespace ReferenceGraph

def ofContext (context : Context) : ReferenceGraph :=
  let edges := Fields.mapValues Node.references context
  ⟨distinct (context.names ++ edges.values.flatten), edges⟩

/-- The names that a name refers to, as its definition mentions them. -/
def successors (graph : ReferenceGraph) (name : String) : List String := (graph.edges.get? name).getD []

def edgeCount (graph : ReferenceGraph) : Nat := graph.edges.values.flatten.length

/-- The names that a name refers to, in graph order. -/
def references (graph : ReferenceGraph) (name : String) : List String :=
  graph.names.filter (graph.successors name).contains

/-- Names in graph order. -/
def sorted (graph : ReferenceGraph) (names : List String) : List String := graph.names.filter names.contains

/-! ## Closures -/

/-- What is visited on the way from the names of a stack, in at most `steps` steps.  The name on top is taken off; unless
it was visited before, it is now, and all that it refers to is pushed, one name after the other. -/
def search (graph : ReferenceGraph) : Nat → List String → List String → List String
  | 0, visited, _ => visited
  | _, visited, [] => visited
  | steps + 1, visited, name :: stack =>
    if visited.contains name then graph.search steps visited stack
    else graph.search steps (name :: visited) ((graph.successors name).reverse ++ stack)

/-- **A name and every name reachable from it**, in graph order; nothing for a name outside of the graph.  There is a step
for the name, and one at most for each edge. -/
def closure (graph : ReferenceGraph) (name : String) : List String :=
  if graph.names.contains name then graph.sorted (graph.search (graph.edgeCount + 1) [] [name]) else []

/-! ## Groups -/

/-- The components: classes of names that reach each other, each where its first member stands. -/
def components (graph : ReferenceGraph) : List (List String) :=
  let closures : Fields (List String) := graph.names.map fun name => (name, graph.closure name)
  let reaches (a b : String) : Bool := ((closures.get? a).getD []).contains b
  graph.names.filterMap fun name =>
    let members := graph.names.filter fun other => reaches name other && reaches other name
    if members.head? == some name then some members else none

/-- A component is a cycle, unless it is a single name that does not refer to itself. -/
def isCycle (graph : ReferenceGraph) : List String → Bool
  | [name] => (graph.successors name).contains name
  | _ => true

/-- Where names stand in the graph. -/
def places (graph : ReferenceGraph) (names : List String) : List Nat := names.map (graph.names.idxOf ·)

/-- **The cycles among components**: their members are sorted, and then they are, by the places of their members. -/
def cycles (graph : ReferenceGraph) (components : List (List String)) : List (List String) :=
  ((components.filter graph.isCycle).map graph.sorted).mergeSort fun a b => !decide (graph.places b < graph.places a)

/-- **The cycles of the graph**: classes of names that reach each other, and single names that refer to themselves.
Members are in graph order, and so are the classes by their first members. -/
def groups (graph : ReferenceGraph) : List (List String) := graph.cycles graph.components

end ReferenceGraph
end Schemata
