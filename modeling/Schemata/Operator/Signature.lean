import Schemata.Operator.Setting
/-!
# Operators on signatures

What a function returns or takes, what a constructor makes or takes, and what a promise holds.  `any` and `never` stand
for themselves, and unions are taken apart.
-/
namespace Schemata

/-- A part of a signature. -/
inductive SignaturePart where
  | returned | taken | created | takenByConstructor
  deriving DecidableEq, Repr

namespace SignaturePart

def expectation : SignaturePart → Expectation
  | .returned | .taken => .functionType
  | .created | .takenByConstructor => .constructorType

/-- A part of a signature, if it has that part. -/
def of? : SignaturePart → Kind Node → Option Node
  | .returned, .function _ returns => some returns
  | .taken, .function parameters _ => some (.tuple parameters)
  | .created, .constructor _ product => some product
  | .takenByConstructor, .constructor parameters _ => some (.tuple parameters)
  | _, _ => none

end SignaturePart

mutual
/-- The part of a signature, or of every variant. -/
def signaturePart (s : Setting) (part : SignaturePart) : Node → Outcome (Option Node)
  | ⟨.primitive .any, _, _⟩ => pure (some .any)
  | ⟨.primitive .never, _, _⟩ => pure (some .never)
  | ⟨.union variants, _, _⟩ => do return (← signaturePartEach s part variants).map Node.unionOf
  | n =>
    match part.of? n.kind with
    | some found => pure (some found)
    | none => if n.isUnresolved then pure none else s.mismatch part.expectation n

def signaturePartEach (s : Setting) (part : SignaturePart) : List Node → Outcome (Option (List Node))
  | [] => pure (some [])
  | n :: ns => do
    match ← signaturePart s part n with
    | none => pure none
    | some found => return (← signaturePartEach s part ns).map (found :: ·)
end

/-- **Takes a part of a signature.** -/
def partOfSignature (s : Setting) (part : SignaturePart) : List Node → Outcome (Option Node)
  | [subject] => signaturePart s part subject
  | operands => s.wrongArity (.exactly 1) operands

mutual
/-- What a promise holds, however often it is wrapped; anything else holds itself. -/
def unwrapPromise : Node → Option Node
  | ⟨.wrapper .promise item, _, _⟩ => unwrapPromise item
  | ⟨.union variants, _, _⟩ => (unwrapPromiseEach variants).map Node.unionOf
  | n => if n.isUnresolved then none else some n

def unwrapPromiseEach : List Node → Option (List Node)
  | [] => some []
  | n :: ns =>
    match unwrapPromise n with
    | none => none
    | some held => (unwrapPromiseEach ns).map (held :: ·)
end

/-- **What an awaited value is.** -/
def awaitedValue (s : Setting) : List Node → Outcome (Option Node)
  | [subject] => pure (unwrapPromise subject)
  | operands => s.wrongArity (.exactly 1) operands

end Schemata
