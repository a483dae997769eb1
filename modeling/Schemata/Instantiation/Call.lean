import Schemata.Comparison
import Schemata.Instantiation.Bundle
import Schemata.Instantiation.Substitution
/-!
# Generic calls

A call finds its generic, binds the parameters and instantiates the body.  A call to the generic that is being expanded
innermost is a tail call and takes its place on the call stack; any other call goes on top.

A call that repeats an expansion in progress becomes a reference back to it, and the expansion becomes a bundle under
the name of the call.
-/
namespace Schemata

/-- The name on the call stack of a generic written where it is called. -/
def anonymous : String := "(anonymous)"

def expansionName (name : String) (arguments : List Node) : String :=
  name ++ "<" ++ ", ".intercalate (arguments.map Node.display) ++ ">"

section
variable (limits : Limits) (evaluate : Evaluator)

/-- **Binds parameters from left to right**, each checked against its constraint.  A missing argument is replaced by
the default; constraints and defaults see earlier parameters by substitution. -/
def bindParameters (scope : Context) (state : State) (bindings : Fields Node) :
    List (Parameter Node) → List Node → Outcome (Fields Node)
  | [], _ => pure bindings
  | p :: ps, arguments => do
    let constraint ← evaluate scope state (p.constraint.substitute bindings)
    let candidate ← match arguments with
      | argument :: _ => pure argument
      | [] => evaluate scope state (p.default.substitute bindings)
    if candidate.isConcrete && constraint.isConcrete && !candidate.fits constraint then
      .failed (.constraintViolation p.name constraint candidate)
    else bindParameters scope state (bindings.insert p.name candidate) ps arguments.tail

/-- **An expansion under its name**: one that refers to its own name becomes a bundle of that name. -/
def packaged (key : String) (expanded : Node) : Node :=
  if expanded.references.contains key then .cyclic [(key, expanded)] key else expanded

/-- **What a generic expands to**: its body with the parameters bound, instantiated inside of the call. -/
def expansion (context : Context) (state : State) (name : String) (parameters : List (Parameter Node)) (body : Node)
    (arguments : List Node) : Outcome Node := do
  let scope := Fields.without context (parameters.map (·.name))
  let bindings ← bindParameters evaluate scope state [] parameters arguments
  let inner ← state.enter limits name arguments
  evaluate context inner (body.substitute bindings)

/-- **Expands a generic** with arguments. -/
def expandGeneric (context : Context) (state : State) (name : String) (parameters : List (Parameter Node)) (body : Node)
    (arguments : List Node) : Outcome Node := do
  let key := expansionName name arguments
  if name != anonymous && state.isExpanding name arguments then return .reference key
  let expanded ← expansion limits evaluate context state name parameters body arguments
  evaluate context state (packaged key expanded)

/-- What a call turns out to call. -/
inductive Callee where
  /-- A generic, under the name it goes by. -/
  | generic (name : String) (parameters : List (Parameter Node)) (body : Node)
  /-- Something that is not known to be a generic. -/
  | other (target : Node)

/-- **Finds what a target calls**: a generic written there, a generic that a reference leads to, or one that the target
instantiates to. -/
def callee (context : Context) (state : State) (target : Node) : Outcome Callee :=
  match target.kind with
  | .generic parameters body => pure (.generic anonymous parameters body)
  | .ref name =>
    match chase context name with
    | .generic name parameters body => pure (.generic name parameters body)
    | _ => pure (.other target)
  | _ => do
    let resolved ← evaluate context state target
    match resolved.kind with
    | .generic parameters body => pure (.generic anonymous parameters body)
    | _ => pure (.other resolved)

/-- **Instantiates a call.**  The call stays, with instantiated arguments, when its target is not known to be a
generic, or when an argument depends on a parameter of an enclosing generic. -/
def call (context : Context) (state : State) (target : Node) (arguments : List Node) : Outcome Node := do
  let arguments ← arguments.mapM (evaluate context state)
  if arguments.any state.dependsOnDeclared then return .call target arguments
  match ← callee evaluate context state target with
  | .generic name parameters body => expandGeneric limits evaluate context state name parameters body arguments
  | .other target => return .call target arguments

end
end Schemata
