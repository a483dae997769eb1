import Schemata.Instantiation.Call
import Schemata.Operator.Reduction
/-!
# Instantiation

One step looks at the kind of a node and hands its parts back to an evaluator; `run` ties the knot.  Each nested step
is one level deeper, and fuel bounds the nesting where the depth starts afresh, inside bundles and modules.

- A reference becomes what it is bound to, unless that leads back to its own name or it is not bound: then it stays.
- A call is expanded, a deferred operator reduced; bundles are closed and stay.
- A generic keeps its parameters, which hide what the context binds under their names.
- Anything else is instantiated part by part.
-/
namespace Schemata

/-- **One step of instantiation**, on top of an evaluator for the nodes it comes to. -/
def step (limits : Limits) (evaluate : Evaluator) : Evaluator := fun context state n =>
  match n.kind with
  | .cyclic .. => pure n
  | .ref name =>
    match context.get? name with
    | none => pure n
    | some target =>
      if leadsBack [name] context target then pure n
      else return (← evaluate context state target).inherit n
  | .call target arguments => return (← call limits evaluate context state target arguments).inherit n
  | .deferred operator operands options =>
    reduce ⟨limits.maxTemplateCombinations, evaluate, context, state, operator⟩ n operands options
  | .generic parameters _ =>
    let scope := Fields.without context (parameters.map (·.name))
    return n.rebuild (← n.kind.traverse (evaluate scope (state.declare parameters)))
  | _ => return n.rebuild (← n.kind.traverse (evaluate context state))

/-- **Instantiation with fuel.**  Without fuel the outcome is open. -/
def run (limits : Limits) : Nat → Evaluator
  | 0, _, _, _ => .exhausted
  | fuel + 1, context, state, n => do step limits (run limits fuel) context (← state.descend limits) n

/-- How deep steps may be nested in all: as deep as the limit allows, and more where the depth starts afresh. -/
def ampleFuel (limits : Limits) : Nat := limits.maxDepth + 20000

/-! ## What can be asked -/

section
variable (limits : Limits)

/-- **Instantiates a node** under a state. -/
def instantiateWith (context : Context) (state : State) (n : Node) : Outcome Node :=
  run limits (ampleFuel limits) context state n

/-- **Instantiates a node** from the initial state. -/
def instantiate (context : Context) (n : Node) : Outcome Node := instantiateWith limits context .initial n

/-- **Instantiates all definitions of a context** as one module. -/
def instantiateModule (context : Context) : Outcome Context :=
  assemble (run limits (ampleFuel limits)) context context.names

/-- **Packs a definition** into a bundle. -/
def instantiateCyclic (context : Context) (name : String) (n : Node) : Outcome Node :=
  packageDefinition (run limits (ampleFuel limits)) context name n

end
end Schemata
