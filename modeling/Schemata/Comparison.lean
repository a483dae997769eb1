import Schemata.Node.Basic
import Schemata.Template.Pattern
/-!
# Comparison

`fits left right` says whether every value of `left` is seen to be a value of `right`.  Recursive types compare
coinductively: references are looked up in the bundles around them, and a pair of references that is already being
compared is taken to hold.  Pairs are told apart by their places in the two inputs, not by what stands there.
Comparisons nested deeper than `maxComparisonDepth` answer no.
-/
namespace Schemata

/-! ## Places -/

/-- A step down from a node to a part of it. -/
inductive Step where
  /-- To a part by its number. -/
  | item (index : Nat)
  /-- To a property by its name. -/
  | property (name : String)
  /-- To a definition of a bundle by its name. -/
  | definition (name : String)
  deriving DecidableEq

/-- Which of the two inputs a node belongs to. -/
inductive Side where
  | left | right
  deriving DecidableEq

/-- A place in one of the two inputs; the last step comes first. -/
structure Place where
  side : Side
  steps : List Step
  deriving DecidableEq

def Place.down (place : Place) (step : Step) : Place := { place with steps := step :: place.steps }

/-- A node at its place. -/
structure Placed where
  node : Node
  place : Place

namespace Placed

def kind (p : Placed) : Kind Node := p.node.kind

def item (p : Placed) (index : Nat) (n : Node) : Placed := ⟨n, p.place.down (.item index)⟩

/-- The parts with numbers from `first` on. -/
def items (p : Placed) (first : Nat) : List Node → List Placed
  | [] => []
  | n :: ns => p.item first n :: p.items (first + 1) ns

def property (p : Placed) (name : String) (n : Node) : Placed := ⟨n, p.place.down (.property name)⟩

def properties (p : Placed) (fields : Fields Node) : Fields Placed := fields.map fun e => (e.1, p.property e.1 e.2)

def definition (p : Placed) (name : String) (n : Node) : Placed := ⟨n, p.place.down (.definition name)⟩

def definitions (p : Placed) (fields : Fields Node) : Fields Placed :=
  fields.map fun e => (e.1, p.definition e.1 e.2)

end Placed

/-- What surrounds a comparison: the bundles entered, innermost first, and the pairs taken to hold. -/
structure Surroundings where
  scopes : List (Fields Placed) := []
  assumed : List (Place × Place) := []

/-- The definition of a name in the innermost bundle that has one. -/
def Surroundings.lookup (s : Surroundings) (name : String) : Option Placed :=
  s.scopes.findSome? fun scope => scope.get? name

abbrev Comparison := Surroundings → Placed → Placed → Bool

/-! ## Rules without parts -/

def Primitive.fits (left right : Primitive) : Bool :=
  left == right || (left == .integer && right == .number) || (left == .undefined && right == .void)

def Literal.fits : Literal → Primitive → Bool
  | .string _, .string => true
  | .number _, .number => true
  | .number x, .integer => x.isWhole
  | .boolean _, .boolean => true
  | _, _ => false

def coversBoolean (variants : List Node) : Bool :=
  let holds (b : Bool) := variants.any fun v => v.literal? == some (.boolean b)
  holds true && holds false

mutual
def admitsName (name : String) : Node → Bool
  | ⟨.primitive .string, _, _⟩ | ⟨.primitive .any, _, _⟩ | ⟨.primitive .unknown, _, _⟩ => true
  | ⟨.primitive .number, _, _⟩ => (Number.ofText? name).isSome
  | ⟨.primitive .integer, _, _⟩ => isInteger64 name
  | ⟨.literal l, _, _⟩ => l.toKey == name
  | ⟨.union variants, _, _⟩ => anyAdmitsName name variants
  | ⟨.templatePattern fragments, _, _⟩ => (Pattern.ofFragments fragments).accepts name
  | _ => false

def anyAdmitsName (name : String) : List Node → Bool
  | [] => false
  | n :: ns => admitsName name n || anyAdmitsName name ns
end

mutual
/-- The properties of an object, or of an intersection of objects one after the other. -/
def gatherProperties (place : Place) : Node → Option (Fields Placed)
  | ⟨.object properties, modifiers, annotations⟩ =>
    some (Placed.properties ⟨⟨.object properties, modifiers, annotations⟩, place⟩ properties)
  | ⟨.intersect members, _, _⟩ => gatherAll place 0 members
  | _ => none

/-- The properties of all members, numbered from `index` on. -/
def gatherAll (place : Place) (index : Nat) : List Node → Option (Fields Placed)
  | [] => some []
  | n :: ns => return (← gatherProperties (place.down (.item index)) n) ++ (← gatherAll place (index + 1) ns)
end

/-! ## Rules with parts -/

section
variable (check : Comparison) (s : Surroundings)

/-- Compares `targetLeft` with `targetRight` while the pair of `left` and `right` is taken to hold. -/
def assuming (left right targetLeft targetRight : Placed) : Bool :=
  let pair := (left.place, right.place)
  s.assumed.contains pair || check { s with assumed := pair :: s.assumed } targetLeft targetRight

/-- Every property that the right side asks for is there, and fits; an optional one may be missing. -/
def fitsProperties (left right : Fields Placed) : Bool :=
  right.all fun (name, expected) =>
    match left.get? name with
    | some actual =>
      (!actual.node.modifiers.optional || expected.node.modifiers.optional) && check s actual expected
    | none => expected.node.modifiers.optional

/-- No more parameters than on the right; parameters fit backwards, the result forwards. -/
def fitsSignature (leftParameters rightParameters : List Placed) (leftResult rightResult : Placed) : Bool :=
  leftParameters.length ≤ rightParameters.length
    && (leftParameters.zip rightParameters).all (fun (l, r) => check s r l)
    && check s leftResult rightResult

/-- An item of a tuple against the item of an array; a rest item is compared by its own item. -/
def fitsItem (isRest : Bool) (item bound : Placed) : Bool :=
  match item.kind, isRest with
  | .array inner, true => check s (item.item 0 inner) bound
  | _, _ => check s item bound

def fitsItems (rest : Bool) (bound : Placed) : List Placed → Bool
  | [] => true
  | [item] => fitsItem check s rest item bound
  | item :: more => fitsItem check s false item bound && fitsItems rest bound more

/-- **Comparison by structure**, once bundles, references, unions and intersections are opened. -/
def fitsStructure (left right : Placed) : Bool :=
  match left.kind, right.kind with
  | .primitive l, .primitive r => l.fits r
  | .literal l, .primitive r => l.fits r
  | .literal l, .literal r => l == r
  | .literal (.string text), .templatePattern fragments => (Pattern.ofFragments fragments).accepts text
  | .templatePattern _, .primitive .string => true
  | .array l, .array r => check s (left.item 0 l) (right.item 0 r)
  | .tuple items rest, .array r => fitsItems check s rest (right.item 0 r) (left.items 0 items)
  | .tuple ls lrest, .tuple rs rrest =>
    lrest == rrest && ls.length == rs.length
      && ((left.items 0 ls).zip (right.items 0 rs)).all fun (l, r) => check s l r
  | .object ls, .object rs => fitsProperties check s (left.properties ls) (right.properties rs)
  | .primitive l, .object [] => l != .null && l != .undefined && l != .void && l != .unknown
  | _, .object [] => true
  | .object ls, .dictionary key value =>
    (left.properties ls).all fun (name, property) => admitsName name key && check s property (right.item 1 value)
  | .dictionary lkey lvalue, .dictionary rkey rvalue =>
    check s (left.item 0 lkey) (right.item 0 rkey) && check s (left.item 1 lvalue) (right.item 1 rvalue)
  | .function lparams lresult, .function rparams rresult =>
    fitsSignature check s (left.items 0 lparams) (right.items 0 rparams)
      (left.item lparams.length lresult) (right.item rparams.length rresult)
  | .constructor lparams lresult, .constructor rparams rresult =>
    fitsSignature check s (left.items 0 lparams) (right.items 0 rparams)
      (left.item lparams.length lresult) (right.item rparams.length rresult)
  | .wrapper lw l, .wrapper rw r => lw == rw && check s (left.item 0 l) (right.item 0 r)
  | _, _ => false

/-- **Comparison of unions and intersections**: every variant on the left has to fit, and some variant on the right;
every member on the right, and some member on the left, or all of them as one object. -/
def fitsSets (left right : Placed) : Bool :=
  match left.kind, right.kind with
  | .union variants, _ => (left.items 0 variants).all fun v => check s v right
  | _, .union variants =>
    (left.node.isPrimitive .boolean && coversBoolean variants)
      || (right.items 0 variants).any fun v => check s left v
  | _, .intersect members => (right.items 0 members).all fun m => check s left m
  | .intersect members, _ =>
    (left.items 0 members).any (fun m => check s m right)
      || (match right.kind, gatherProperties left.place left.node with
        | .object properties, some gathered => fitsProperties check s gathered (right.properties properties)
        | _, _ => false)
  | _, _ => fitsStructure check s left right

/-- **Comparison of references**: each stands for its definition. -/
def fitsReferences (left right : Placed) : Bool :=
  match left.kind, right.kind with
  | .ref name, _ =>
    match s.lookup name with
    | some target => assuming check s left right target right
    | none => false
  | _, .ref name =>
    match s.lookup name with
    | some target => assuming check s left right left target
    | none => false
  | _, _ =>
    if left.node.isPrimitive .any then true
    else if right.node.isNever then false
    else fitsSets check s left right

/-- **Comparison of bundles**: each stands for its root, seen among its definitions. -/
def fitsBundles (left right : Placed) : Bool :=
  match left.kind, right.kind with
  | _, .cyclic definitions root =>
    let scope := right.definitions definitions
    match scope.get? root with
    | some target => check { s with scopes := scope :: s.scopes } left target
    | none => false
  | .cyclic definitions root, _ =>
    let scope := left.definitions definitions
    match scope.get? root with
    | some target => check { s with scopes := scope :: s.scopes } target right
    | none => false
  | _, _ => fitsReferences check s left right

/-- One comparison: equal kinds, an unrestricted right side and an empty left side are settled at once. -/
def fitsStep (left right : Placed) : Bool :=
  Node.sameKind left.kind right.kind || right.node.isPrimitive .any || right.node.isPrimitive .unknown
    || left.node.isNever || fitsBundles check s left right

end

/-! ## Comparison of nodes -/

/-- Comparisons nested `fuel` deep at most. -/
def compareWithin : Nat → Comparison
  | 0 => fun _ _ _ => false
  | fuel + 1 => fitsStep (compareWithin fuel)

def maxComparisonDepth : Nat := 256

namespace Node

/-- **Whether every value of `left` is seen to be a value of `right`.** -/
def fits (left right : Node) : Bool := compareWithin maxComparisonDepth {} ⟨left, .left, []⟩ ⟨right, .right, []⟩

/-- Whether a node is seen to fit itself: both sides are one and the same input. -/
def fitsItself (n : Node) : Bool := compareWithin maxComparisonDepth {} ⟨n, .left, []⟩ ⟨n, .left, []⟩

end Node
end Schemata
