import Schemata.Node.References
import Schemata.Instantiation.Outcome
/-!
# Limits and state

Instantiation is a function of a context, a state and a node.  The state is explicit: the generic calls being expanded,
the parameters of enclosing generics, and the depth.
-/
namespace Schemata

/-- **Bounds against runaway expressions.** -/
structure Limits where
  /-- How deep instantiation steps may be nested. -/
  maxDepth : Nat := 512
  /-- How many calls may be on the call stack. -/
  maxCallDepth : Nat := 64
  /-- How many texts a template may expand to. -/
  maxTemplateCombinations : Nat := 10000
  deriving DecidableEq, Repr

/-- A generic call being expanded. -/
structure Frame where
  name : String
  arguments : List Node

/-- **The state of an instantiation.** -/
structure State where
  /-- Calls being expanded, the innermost first. -/
  frames : List Frame := []
  /-- Parameters of the generics around the current node. -/
  declared : List String := []
  depth : Nat := 0

namespace State

/-- Nothing being expanded, at depth zero. -/
def initial : State := {}

/-- A state with calls, outermost first, without arguments. -/
def withCallstack (names : List String) : State := { frames := (names.map fun name => ⟨name, []⟩).reverse }

/-- The names of the calls, outermost first. -/
def callstack (s : State) : List String := s.frames.reverse.map (·.name)

def peek (s : State) : Option String := s.frames.head?.map (·.name)

/-- Whether a generic is being expanded with equal arguments. -/
def isExpanding (s : State) (name : String) (arguments : List Node) : Bool :=
  s.frames.any fun frame => frame.name == name && Node.sameAll frame.arguments arguments

/-- Whether a node refers to a parameter of an enclosing generic. -/
def dependsOnDeclared (s : State) (n : Node) : Bool :=
  !s.declared.isEmpty && n.references.any s.declared.contains

/-- One step deeper, if the limit allows. -/
def descend (s : State) (limits : Limits) : Outcome State :=
  if limits.maxDepth ≤ s.depth then .failed (.depthExceeded limits.maxDepth)
  else .done { s with depth := s.depth + 1 }

/-- One more call, if the limit allows. -/
def push (s : State) (limits : Limits) (name : String) (arguments : List Node) : Outcome State :=
  let pushed : State := { s with frames := ⟨name, arguments⟩ :: s.frames }
  if limits.maxCallDepth < pushed.frames.length then
    .failed (.callDepthExceeded limits.maxCallDepth pushed.callstack)
  else .done pushed

def replaceTop (s : State) (name : String) (arguments : List Node) : State :=
  { s with frames := ⟨name, arguments⟩ :: s.frames.tail }

/-- **Inside the expansion of a call**: in the place of the innermost call when that is one of the same generic, else on
top. -/
def enter (s : State) (limits : Limits) (name : String) (arguments : List Node) : Outcome State :=
  if s.peek == some name then .done (s.replaceTop name arguments) else s.push limits name arguments

def declare (s : State) (parameters : List (Parameter Node)) : State :=
  { s with declared := s.declared ++ parameters.map (·.name) }

end State

/-- **A way to instantiate a node** in a context under a state. -/
abbrev Evaluator := Context → State → Node → Outcome Node

end Schemata
