import Schemata.Fields
import Schemata.Json.Value
/-!
# What a node can be

`Kind α` lists the forms of a schema node whose immediate parts are of type `α`.  It is a functor, so each traversal
of the tree is said once: `parts` are all immediate parts, `children` those that are open to the outside (a cyclic
bundle is closed and has none), `map` replaces them and `traverse` replaces them one after the other, in that order.
-/
namespace Schemata

/-! ## Words -/

/-- The primitive types. -/
inductive Primitive where
  | any | unknown | never | string | number | integer | boolean | bigInt | null | undefined | void | symbol
  deriving DecidableEq, Repr

/-- Literal values. -/
inductive Literal where
  | string (text : String)
  | number (value : Number)
  | boolean (value : Bool)
  deriving DecidableEq

/-- Equality of literals; numbers compare as doubles do. -/
def Literal.sameAs : Literal → Literal → Bool
  | .string a, .string b => a == b
  | .number a, .number b => a == b
  | .boolean a, .boolean b => a == b
  | _, _ => false

instance : BEq Literal := ⟨Literal.sameAs⟩

/-- Containers of a single item. -/
inductive Wrapper where
  | promise | iterator | asyncIterator
  deriving DecidableEq, Repr

/-- The type-level operators. -/
inductive Operator where
  | pick | omit
  | allOptional | allRequired | allReadonly | allWritable
  | keyOf | index | evaluate | exclude | extract | awaited | capitalize | uncapitalize | uppercase | lowercase
  | returnType | parameters | constructorParameters | instanceType | nonNullable | record | mapped | conditional
  | templateLiteral | interface | inlineModule
  deriving DecidableEq, Repr

/-- Flags that matter where a node is the type of a property. -/
structure Modifiers where
  optional : Bool := false
  readonly : Bool := false
  deriving DecidableEq, Repr

namespace Modifiers

def plain : Modifiers := {}

def merge (a b : Modifiers) : Modifiers := ⟨a.optional || b.optional, a.readonly || b.readonly⟩

end Modifiers

/-! ## Kinds -/

/-- A parameter `name extends constraint = default`. -/
structure Parameter (α : Type) where
  name : String
  constraint : α
  default : α

def Parameter.parts {α : Type} (p : Parameter α) : List α := [p.constraint, p.default]

/-- **The forms of a node** with parts of type `α`. -/
inductive Kind (α : Type) where
  | primitive (primitive : Primitive)
  | literal (literal : Literal)
  | array (item : α)
  /-- With `rest`, the last item stands for any number of items. -/
  | tuple (items : List α) (rest : Bool)
  | object (properties : List (String × α))
  | union (variants : List α)
  | intersect (members : List α)
  | function (parameters : List α) (returns : α)
  | constructor (parameters : List α) (created : α)
  | wrapper (wrapper : Wrapper) (item : α)
  | dictionary (key value : α)
  | ref (name : String)
  | parameter (parameter : Parameter α)
  | generic (parameters : List (Parameter α)) (body : α)
  | call (target : α) (arguments : List α)
  /-- An operator whose application waits for its operands; the options become annotations of the result. -/
  | deferred (operator : Operator) (operands : List α) (options : Annotations)
  /-- A closed bundle of definitions that refer to each other, seen from its root. -/
  | cyclic (definitions : List (String × α)) (root : String)
  | templatePattern (fragments : List α)

namespace Kind

variable {α β γ : Type}

/-- Every immediate part, in order. -/
def parts : Kind α → List α
  | .primitive _ | .literal _ | .ref _ => []
  | .array item => [item]
  | .tuple items _ => items
  | .object properties => properties.map Prod.snd
  | .union variants => variants
  | .intersect members => members
  | .function parameters returns => parameters ++ [returns]
  | .constructor parameters created => parameters ++ [created]
  | .wrapper _ item => [item]
  | .dictionary key value => [key, value]
  | .parameter p => p.parts
  | .generic parameters body => parameters.flatMap Parameter.parts ++ [body]
  | .call target arguments => target :: arguments
  | .deferred _ operands _ => operands
  | .cyclic definitions _ => definitions.map Prod.snd
  | .templatePattern fragments => fragments

/-- The immediate parts that are open to the outside: none for a cyclic bundle. -/
def children : Kind α → List α
  | .cyclic .. => []
  | kind => kind.parts

theorem mem_parts_of_mem_children {kind : Kind α} {c : α} (h : c ∈ kind.children) : c ∈ kind.parts := by
  cases kind <;> first | exact h | cases h

def map (f : α → β) : Kind α → Kind β
  | .primitive p => .primitive p
  | .literal l => .literal l
  | .array item => .array (f item)
  | .tuple items rest => .tuple (items.map f) rest
  | .object properties => .object (properties.map fun e => (e.1, f e.2))
  | .union variants => .union (variants.map f)
  | .intersect members => .intersect (members.map f)
  | .function parameters returns => .function (parameters.map f) (f returns)
  | .constructor parameters created => .constructor (parameters.map f) (f created)
  | .wrapper w item => .wrapper w (f item)
  | .dictionary key value => .dictionary (f key) (f value)
  | .ref name => .ref name
  | .parameter p => .parameter ⟨p.name, f p.constraint, f p.default⟩
  | .generic parameters body =>
    .generic (parameters.map fun p => ⟨p.name, f p.constraint, f p.default⟩) (f body)
  | .call target arguments => .call (f target) (arguments.map f)
  | .deferred operator operands options => .deferred operator (operands.map f) options
  | .cyclic definitions root => .cyclic (definitions.map fun e => (e.1, f e.2)) root
  | .templatePattern fragments => .templatePattern (fragments.map f)

/-- `map` for a function that needs to know that it is given a part. -/
def mapParts : (kind : Kind α) → ((part : α) → part ∈ kind.parts → β) → Kind β
  | .primitive p, _ => .primitive p
  | .literal l, _ => .literal l
  | .array item, f => .array (f item (by simp [parts]))
  | .tuple items rest, f => .tuple (items.attach.map fun x => f x.1 x.2) rest
  | .object properties, f =>
    .object (properties.attach.map fun e => (e.1.1, f e.1.2 (List.mem_map.2 ⟨e.1, e.2, rfl⟩)))
  | .union variants, f => .union (variants.attach.map fun x => f x.1 x.2)
  | .intersect members, f => .intersect (members.attach.map fun x => f x.1 x.2)
  | .function parameters returns, f =>
    .function (parameters.attach.map fun x => f x.1 (by simp [parts, x.2])) (f returns (by simp [parts]))
  | .constructor parameters created, f =>
    .constructor (parameters.attach.map fun x => f x.1 (by simp [parts, x.2])) (f created (by simp [parts]))
  | .wrapper w item, f => .wrapper w (f item (by simp [parts]))
  | .dictionary key value, f => .dictionary (f key (by simp [parts])) (f value (by simp [parts]))
  | .ref name, _ => .ref name
  | .parameter p, f =>
    .parameter ⟨p.name, f p.constraint (by simp [parts, Parameter.parts]), f p.default (by simp [parts, Parameter.parts])⟩
  | .generic parameters body, f =>
    .generic
      (parameters.attach.map fun p =>
        ⟨p.1.name,
          f p.1.constraint (List.mem_append_left _ (List.mem_flatMap.2 ⟨p.1, p.2, by simp [Parameter.parts]⟩)),
          f p.1.default (List.mem_append_left _ (List.mem_flatMap.2 ⟨p.1, p.2, by simp [Parameter.parts]⟩))⟩)
      (f body (by simp [parts]))
  | .call target arguments, f =>
    .call (f target (by simp [parts])) (arguments.attach.map fun x => f x.1 (by simp [parts, x.2]))
  | .deferred operator operands options, f => .deferred operator (operands.attach.map fun x => f x.1 x.2) options
  | .cyclic definitions root, f =>
    .cyclic (definitions.attach.map fun e => (e.1.1, f e.1.2 (List.mem_map.2 ⟨e.1, e.2, rfl⟩))) root
  | .templatePattern fragments, f => .templatePattern (fragments.attach.map fun x => f x.1 x.2)

theorem map_attach {δ ε : Type} (xs : List δ) (f : δ → ε) : (xs.attach.map fun x => f x.1) = xs.map f := by
  simp

/-- A function that ignores where its argument comes from maps as usual. -/
theorem mapParts_eq_map (kind : Kind α) (f : α → β) : (kind.mapParts fun c _ => f c) = kind.map f := by
  cases kind
  case object properties => exact congrArg Kind.object (map_attach properties fun e => (e.1, f e.2))
  case cyclic definitions root =>
    exact congrArg (Kind.cyclic · root) (map_attach definitions fun e => (e.1, f e.2))
  all_goals simp [mapParts, map]

/-- The same form with its parts replaced in order, each by an action of a monad. -/
def traverse {m : Type → Type} [Monad m] (f : α → m β) : Kind α → m (Kind β)
  | .primitive p => pure (.primitive p)
  | .literal l => pure (.literal l)
  | .array item => return .array (← f item)
  | .tuple items rest => return .tuple (← items.mapM f) rest
  | .object properties => return .object (← properties.mapM fun e => return (e.1, ← f e.2))
  | .union variants => return .union (← variants.mapM f)
  | .intersect members => return .intersect (← members.mapM f)
  | .function parameters returns => return .function (← parameters.mapM f) (← f returns)
  | .constructor parameters created => return .constructor (← parameters.mapM f) (← f created)
  | .wrapper w item => return .wrapper w (← f item)
  | .dictionary key value => return .dictionary (← f key) (← f value)
  | .ref name => pure (.ref name)
  | .parameter p => return .parameter ⟨p.name, ← f p.constraint, ← f p.default⟩
  | .generic parameters body =>
    return .generic (← parameters.mapM fun p => return ⟨p.name, ← f p.constraint, ← f p.default⟩) (← f body)
  | .call target arguments => return .call (← f target) (← arguments.mapM f)
  | .deferred operator operands options => return .deferred operator (← operands.mapM f) options
  | .cyclic definitions root => return .cyclic (← definitions.mapM fun e => return (e.1, ← f e.2)) root
  | .templatePattern fragments => return .templatePattern (← fragments.mapM f)

end Kind
end Schemata
