import Schemata.Operator.Access
import Schemata.Operator.Scoped
import Schemata.Operator.Signature
import Schemata.Operator.Text
import Schemata.Operator.Union
/-!
# Reduction of a deferred operator

A deferred operator is reduced once the operands that it looks at can be resolved in the context.  It stays deferred,
unchanged, before that, and with instantiated operands when some of them turn out not to be known yet.
-/
namespace Schemata

/-! ## When to reduce -/

mutual
/-- Whether a node is bound as far as can be seen: a reference has to have a definition, unions and intersections go
by their parts. -/
def resolvable (context : Context) : Node → Bool
  | ⟨.union variants, _, _⟩ => resolvableAll context variants
  | ⟨.intersect members, _, _⟩ => resolvableAll context members
  | ⟨.ref name, _, _⟩ => context.has name
  | _ => true

def resolvableAll (context : Context) : List Node → Bool
  | [] => true
  | n :: ns => resolvable context n && resolvableAll context ns
end

/-- The nodes that an operator has to see before it can be reduced. -/
def Operator.guarded : Operator → List Node → List Node
  | .conditional, operands => operands.take 2
  | .mapped, ⟨.parameter p, _, _⟩ :: _ => [p.constraint]
  | .mapped, _ => []
  | _, operands => operands

/-- **Whether an operator can be reduced** in a context. -/
def canReduce (context : Context) (operator : Operator) (operands : List Node) : Bool :=
  resolvableAll context (operator.guarded operands)

/-! ## Reducers -/

/-- The reducer of an operator whose operands are all instantiated beforehand. -/
def reduceEager (s : Setting) (operands : List Node) : Outcome (Option Node) :=
  match s.operator with
  | .pick => selectProperties s true operands
  | .omit => selectProperties s false operands
  | .allOptional => changeModifiers s ({ · with optional := true }) operands
  | .allRequired => changeModifiers s ({ · with optional := false }) operands
  | .allReadonly => changeModifiers s ({ · with readonly := true }) operands
  | .allWritable => changeModifiers s ({ · with readonly := false }) operands
  | .keyOf => keyDomain s operands
  | .index => indexAccess s operands
  | .evaluate => evaluateShape s operands
  | .interface => interfaceOf s operands
  | .exclude => filterBranches s false operands
  | .extract => filterBranches s true operands
  | .nonNullable => nonNullable s operands
  | .awaited => awaitedValue s operands
  | .returnType => partOfSignature s .returned operands
  | .parameters => partOfSignature s .taken operands
  | .constructorParameters => partOfSignature s .takenByConstructor operands
  | .instanceType => partOfSignature s .created operands
  | .uppercase => caseOf s .upper operands
  | .lowercase => caseOf s .lower operands
  | .capitalize => caseOf s .capital operands
  | .uncapitalize => caseOf s .uncapital operands
  | .templateLiteral => templateTexts s operands
  | .record => recordOf s operands
  | .conditional | .mapped | .inlineModule => pure none

/-- Reduces an application, operands first where the operator does not see to them itself. -/
def reduceOperands (s : Setting) (operands : List Node) : Outcome Reduction :=
  match s.operator with
  | .conditional => conditional s operands
  | .mapped => mappedType s operands
  | .inlineModule => inlineModule s operands
  | _ => do
    let operands ← operands.mapM s.instantiate
    match ← reduceEager s operands with
    | some result => return .done result
    | none => return .waiting operands

/-- **Reduces a deferred operator.**  The result inherits from `origin`, the deferred node, and the options are written
over its annotations. -/
def reduce (s : Setting) (origin : Node) (operands : List Node) (options : Annotations) : Outcome Node :=
  if canReduce s.context s.operator operands then do
    match ← reduceOperands s operands with
    | .done result =>
      let result := result.inherit origin
      return { result with annotations := result.annotations.override options }
    | .waiting operands => return origin.rebuild (.deferred s.operator operands options)
  else pure origin

end Schemata
