import Schemata.Comparison
import Schemata.Operator.Keys
/-!
# Operators that instantiate their own operands

A conditional instantiates one of two branches, a mapped type its body once per key with the key bound, an inline
module its definitions together.  Each ends in a `Reduction`.
-/
namespace Schemata

/-- **How an application of an operator goes on.** -/
inductive Reduction where
  /-- It is done, with this result. -/
  | done (result : Node)
  /-- It waits, with these operands. -/
  | waiting (operands : List Node)

/-! ## Conditionals -/

/-- **Chooses a branch** by whether the check fits its bound, once both are concrete.  The other branch is not looked
at. -/
def conditional (s : Setting) : List Node → Outcome Reduction
  | [check, bound, whenTrue, whenFalse] => do
    let check ← s.subject (← s.instantiate check)
    let bound ← s.subject (← s.instantiate bound)
    if check.isConcrete && bound.isConcrete then
      return .done (← s.instantiate (if check.fits bound then whenTrue else whenFalse))
    else return .waiting [check, bound, whenTrue, whenFalse]
  | operands => s.wrongArity (.exactly 4) operands

/-! ## Mapped types -/

/-- The name of a property, or none when it is left out: the key itself, or what `remap` makes of it. -/
def propertyName (s : Setting) (scope : Context) (key : Literal) : Option Node → Outcome (Option String)
  | none => pure (some key.toKey)
  | some remap => do
    let remapped ← s.instantiateIn scope remap
    match remapped.kind with
    | .primitive .never => pure none
    | .literal l => pure (some l.toKey)
    | _ => s.mismatch .literalKeyOrNever remapped

/-- The properties of a mapped type, one key after the other. -/
def mappedProperties (s : Setting) (binder : String) (body : Node) (remap : Option Node) (properties : Fields Node) :
    List Literal → Outcome (Fields Node)
  | [] => pure properties
  | key :: keys => do
    let scope := s.context.insert binder (.literal key)
    match ← propertyName s scope key remap with
    | none => mappedProperties s binder body remap properties keys
    | some name =>
      let type ← s.instantiateIn scope body
      mappedProperties s binder body remap (properties.insert name type) keys

/-- **One property per key**, with the key bound in its type and in its name.  Without an end of keys, a dictionary. -/
def mappedType (s : Setting) (operands : List Node) : Outcome Reduction :=
  match operands with
  | binder :: body :: rest =>
    if 1 < rest.length then s.wrongArity (.between 2 3) operands
    else
      match binder.kind with
      | .parameter key => do
        let source ← s.instantiate key.constraint
        match keySpace s.templateLimit source with
        | .finite keys => return .done (.of (.object (← mappedProperties s key.name body rest.head? [] keys)))
        | .unbounded =>
          return .done (.dictionary source (← s.instantiateIn (s.context.insert key.name source) body))
        | .unresolved => return .waiting (.parameter { key with constraint := source } :: body :: rest)
      | _ => s.mismatch .keyParameter binder
  | _ => s.wrongArity (.between 2 3) operands

/-! ## Inline modules -/

/-- **Instantiates definitions together**, over those of the context. -/
def inlineModule (s : Setting) : List Node → Outcome Reduction
  | [operand] =>
    match operand.kind with
    | .object definitions => do
      let scope := s.context.extend definitions
      return .done (.of (.object (← assemble s.evaluate scope (Fields.names definitions))))
    | _ => s.mismatch .definitions operand
  | operands => s.wrongArity (.exactly 1) operands

end Schemata
