import Schemata.Node.Display
/-!
# Outcomes of instantiation

An instantiation is `done` with a result, has `failed` for a cause, or is `exhausted`: its fuel was spent before it
ended, or a chain of references has no end.  Outcomes form a monad in which the first step that is not done decides.
-/
namespace Schemata

/-! ## Causes -/

/-- What a reducer asks of an operand.  `wordIndex` is asked of an index whose successor is no machine word: the sum wraps
around, and nothing is found in the tuple.  A program that checks its sums stops there and does not answer. -/
inductive Expectation where
  | objectType | finiteKeys | literalKeys | tupleIndex | wordIndex | numericIndex | subjectKey | indexableType
  | keyParameter | literalKeyOrNever | stringType | functionType | constructorType | definitions
  deriving DecidableEq, Repr

def Expectation.text : Expectation → String
  | .objectType => "an object type"
  | .finiteKeys => "a finite set of keys"
  | .literalKeys => "literal keys"
  | .tupleIndex | .wordIndex => "an index within the tuple"
  | .numericIndex => "a numeric index"
  | .subjectKey => "a key of the subject"
  | .indexableType => "an indexable type"
  | .keyParameter => "a key parameter"
  | .literalKeyOrNever => "a literal key or never"
  | .stringType => "a string type"
  | .functionType => "a function type"
  | .constructorType => "a constructor type"
  | .definitions => "an object of definitions"

/-- How many operands an operator takes. -/
inductive Arity where
  | exactly (count : Nat)
  | between (least most : Nat)
  | atLeast (least : Nat)
  deriving DecidableEq, Repr

def Arity.text : Arity → String
  | .exactly count => toString count
  | .between least most => toString least ++ "..=" ++ toString most
  | .atLeast least => "at least " ++ toString least

/-- A name that should have been defined where it was looked up. -/
inductive MissingName where
  | definition (name : String)
  | member (name : String)
  | root (name : String)
  deriving DecidableEq, Repr

def MissingName.text : MissingName → String
  | .definition name => "module definition '" ++ name ++ "' is missing"
  | .member name => "cyclic member '" ++ name ++ "' is missing"
  | .root name => "cyclic root '" ++ name ++ "' is missing"

/-- **Why an instantiation fails.**  An unresolved reference is no reason: it stays in the result. -/
inductive InstantiationError where
  | constraintViolation (parameter : String) (constraint received : Node)
  | structuralMismatch (operator : Operator) (expected : Expectation) (received : Node)
  | invalidArity (operator : Operator) (expected : Arity) (received : Nat)
  | depthExceeded (limit : Nat)
  | callDepthExceeded (limit : Nat) (callstack : List String)
  | missing (name : MissingName)

def InstantiationError.message : InstantiationError → String
  | .constraintViolation parameter constraint received =>
    "Constraint violation: parameter '" ++ parameter ++ "' requires " ++ constraint.display ++ ", received "
      ++ received.display
  | .structuralMismatch operator expected received =>
    "Structural mismatch in " ++ operator.word ++ ": expected " ++ expected.text ++ ", received " ++ received.display
  | .invalidArity operator expected received =>
    "Invalid arity for " ++ operator.word ++ ": expected " ++ expected.text ++ " operand(s), received "
      ++ toString received
  | .depthExceeded limit => "Instantiation depth limit of " ++ toString limit ++ " exceeded"
  | .callDepthExceeded limit callstack =>
    "Call depth limit of " ++ toString limit ++ " exceeded: " ++ " -> ".intercalate callstack
  | .missing name => "Internal error: " ++ name.text

/-! ## Outcomes -/

/-- **How an instantiation ends.** -/
inductive Outcome (α : Type) where
  | done (result : α)
  | failed (error : InstantiationError)
  | exhausted

namespace Outcome

variable {α β : Type}

def bind : Outcome α → (α → Outcome β) → Outcome β
  | .done a, f => f a
  | .failed e, _ => .failed e
  | .exhausted, _ => .exhausted

instance : Monad Outcome where
  pure := .done
  bind := bind

@[simp] theorem pure_eq (a : α) : (pure a : Outcome α) = .done a := rfl
@[simp] theorem done_bind (a : α) (f : α → Outcome β) : (Outcome.done a >>= f) = f a := rfl
@[simp] theorem failed_bind (e : InstantiationError) (f : α → Outcome β) : (Outcome.failed e >>= f) = .failed e := rfl
@[simp] theorem exhausted_bind (f : α → Outcome β) : (Outcome.exhausted >>= f) = .exhausted := rfl

instance : LawfulMonad Outcome := LawfulMonad.mk' Outcome
  (fun x => by cases x <;> rfl)
  (fun _ _ => rfl)
  (fun x _ _ => by cases x <;> rfl)

theorem bind_eq_done {x : Outcome α} {f : α → Outcome β} {b : β} :
    (x >>= f) = .done b ↔ ∃ a, x = .done a ∧ f a = .done b := by
  cases x <;> simp

/-- The results of a list of steps, as long as each gives one: the first step without a result ends the list. -/
def collect? (f : α → Outcome (Option β)) : List α → Outcome (Option (List β))
  | [] => pure (some [])
  | x :: xs => do
    match ← f x with
    | none => pure none
    | some y => return (← collect? f xs).map (y :: ·)

end Outcome
end Schemata
