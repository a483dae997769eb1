import Schemata.Json.Document
import Schemata.Json.Format
import Schemata.Node.Basic
/-!
# Saved nodes

The JSON form of nodes and contexts.  A node is an object with its kind, which is an object with one field, and with
flags and annotations where there are any.

- `Node.toJson` and `contextToJson` write; fields stand in a fixed order, properties and definitions in their own.
- `Node.load?` and `loadContext?` read a text.  Arrays and objects may be nested `maxLevels` deep; fields that a record
  does not know are passed over, whatever they hold.
-/
namespace Schemata

/-! ## Words -/

def Primitive.tag : Primitive → String
  | .any => "any"
  | .unknown => "unknown"
  | .never => "never"
  | .string => "string"
  | .number => "number"
  | .integer => "integer"
  | .boolean => "boolean"
  | .bigInt => "big_int"
  | .null => "null"
  | .undefined => "undefined"
  | .void => "void"
  | .symbol => "symbol"

def Primitive.all : List Primitive :=
  [.any, .unknown, .never, .string, .number, .integer, .boolean, .bigInt, .null, .undefined, .void, .symbol]

def Primitive.ofTag? (tag : String) : Option Primitive := Primitive.all.find? (·.tag == tag)

theorem Primitive.ofTag?_tag (p : Primitive) : ofTag? p.tag = some p := by cases p <;> decide

def Wrapper.tag : Wrapper → String
  | .promise => "promise"
  | .iterator => "iterator"
  | .asyncIterator => "async_iterator"

def Wrapper.all : List Wrapper := [.promise, .iterator, .asyncIterator]

def Wrapper.ofTag? (tag : String) : Option Wrapper := Wrapper.all.find? (·.tag == tag)

theorem Wrapper.ofTag?_tag (w : Wrapper) : ofTag? w.tag = some w := by cases w <;> decide

def Operator.tag : Operator → String
  | .pick => "pick"
  | .omit => "omit"
  | .allOptional => "partial"
  | .allRequired => "required"
  | .allReadonly => "readonly"
  | .allWritable => "writable"
  | .keyOf => "key_of"
  | .index => "index"
  | .evaluate => "evaluate"
  | .exclude => "exclude"
  | .extract => "extract"
  | .awaited => "awaited"
  | .capitalize => "capitalize"
  | .uncapitalize => "uncapitalize"
  | .uppercase => "uppercase"
  | .lowercase => "lowercase"
  | .returnType => "return_type"
  | .parameters => "parameters"
  | .constructorParameters => "constructor_parameters"
  | .instanceType => "instance_type"
  | .nonNullable => "non_nullable"
  | .record => "record"
  | .mapped => "mapped"
  | .conditional => "conditional"
  | .templateLiteral => "template_literal"
  | .interface => "interface"
  | .inlineModule => "module"

def Operator.all : List Operator :=
  [.pick, .omit, .allOptional, .allRequired, .allReadonly, .allWritable, .keyOf, .index, .evaluate, .exclude, .extract,
    .awaited, .capitalize, .uncapitalize, .uppercase, .lowercase, .returnType, .parameters, .constructorParameters,
    .instanceType, .nonNullable, .record, .mapped, .conditional, .templateLiteral, .interface, .inlineModule]

def Operator.ofTag? (tag : String) : Option Operator := Operator.all.find? (·.tag == tag)

theorem Operator.ofTag?_tag (o : Operator) : ofTag? o.tag = some o := by cases o <;> decide

/-! ## Writing -/

def Literal.toJson : Literal → Json
  | .string text => .string text
  | .number x => .number x
  | .boolean b => .boolean b

/-- The field for flags, when one is set. -/
def Modifiers.toFields (m : Modifiers) : List (String × Json) :=
  if m = .plain then []
  else [("modifiers", .object [("optional", .boolean m.optional), ("readonly", .boolean m.readonly)])]

/-- A field for annotations, when there are any. -/
def Annotations.toFields (name : String) (a : Annotations) : List (String × Json) :=
  if a.isEmpty then [] else [(name, .object a)]

mutual
/-- **A node as it is saved.** -/
def Node.toJson : Node → Json
  | ⟨kind, modifiers, annotations⟩ =>
    .object (("kind", .object [kindToField kind]) :: (modifiers.toFields ++ annotations.toFields "annotations"))

def kindToField : Kind Node → String × Json
  | .primitive p => ("primitive", .string p.tag)
  | .literal l => ("literal", l.toJson)
  | .array item => ("array", item.toJson)
  | .tuple items rest => ("tuple", .object [("items", .array (nodesToJson items)), ("rest", .boolean rest)])
  | .object properties => ("object", .object (fieldsToJson properties))
  | .union variants => ("union", .array (nodesToJson variants))
  | .intersect members => ("intersect", .array (nodesToJson members))
  | .function parameters returns =>
    ("function", .object [("parameters", .array (nodesToJson parameters)), ("returns", returns.toJson)])
  | .constructor parameters created =>
    ("constructor", .object [("parameters", .array (nodesToJson parameters)), ("instance", created.toJson)])
  | .wrapper w item => ("wrapper", .object [("wrapper", .string w.tag), ("item", item.toJson)])
  | .dictionary key value => ("dictionary", .object [("key", key.toJson), ("value", value.toJson)])
  | .ref name => ("ref", .string name)
  | .parameter p => ("parameter", parameterToJson p)
  | .generic parameters body =>
    ("generic", .object [("parameters", .array (parametersToJson parameters)), ("body", body.toJson)])
  | .call target arguments =>
    ("call", .object [("target", target.toJson), ("arguments", .array (nodesToJson arguments))])
  | .deferred operator operands options =>
    ("deferred", .object
      ([("operator", .string operator.tag), ("operands", .array (nodesToJson operands))] ++ options.toFields "options"))
  | .cyclic definitions root =>
    ("cyclic", .object [("definitions", .object (fieldsToJson definitions)), ("root", .string root)])
  | .templatePattern fragments => ("template_pattern", .array (nodesToJson fragments))

def nodesToJson : List Node → List Json
  | [] => []
  | n :: ns => n.toJson :: nodesToJson ns

def fieldsToJson : List (String × Node) → List (String × Json)
  | [] => []
  | (name, n) :: rest => (name, n.toJson) :: fieldsToJson rest

def parameterToJson : Parameter Node → Json
  | ⟨name, constraint, default⟩ =>
    .object [("name", .string name), ("constraint", constraint.toJson), ("default", default.toJson)]

def parametersToJson : List (Parameter Node) → List Json
  | [] => []
  | p :: ps => parameterToJson p :: parametersToJson ps
end

/-- **A context as it is saved.** -/
def contextToJson (context : Context) : Json := .object (fieldsToJson context)

/-! ## Reading -/

namespace Document

def literal? (d : Document) : Option Literal := do
  match ← d.toJson? 0 with
  | .string text => some (.string text)
  | .integer i => some (.number (.ofInt i.value))
  | .number x => some (.number x)
  | .boolean b => some (.boolean b)
  | _ => none

/-- What `read` makes of a field, or a default where the field is missing. -/
def orElse {α : Type} (read : Document → Option α) (default : α) : Option Document → Option α
  | some d => read d
  | none => some default

def modifiers? : Nat → Document → Option Modifiers
  | 0, _ => none
  | _ + 1, d => do
    match ← d.record? ["optional", "readonly"] with
    | [optional, readonly] => return ⟨← orElse truth? false optional, ← orElse truth? false readonly⟩
    | _ => none

/-- The items of an array, each read. -/
def list? {α : Type} (read : Document → Option α) : Document → Option (List α)
  | .array items => items.mapM read
  | _ => none

/-- The members of an object, each read; of a repeated name, first place and last value. -/
def fields? {α : Type} (read : Document → Option α) : Document → Option (Fields α)
  | .object members => do
    return Fields.ofList (← (← named? members).mapM fun e => return (e.1, ← read e.2))
  | _ => none

mutual
/-- **The node that a document is.** -/
def node? : Nat → Document → Option Node
  | 0, _ => none
  | levels + 1, d => do
    match ← d.record? ["kind", "modifiers", "annotations"] with
    | [some kind, modifiers, annotations] =>
      return ⟨← kind? levels kind, ← orElse (modifiers? levels) .plain modifiers,
        ← orElse (annotations? levels) [] annotations⟩
    | _ => none

def kind? : Nat → Document → Option (Kind Node)
  | 0, _ => none
  | levels + 1, d => do
    let (name, body) ← d.choice?
    match name with
    | "primitive" => return .primitive (← body.word? levels Primitive.ofTag?)
    | "literal" => return .literal (← body.literal?)
    | "array" => return .array (← node? levels body)
    | "object" => return .object (← nodeFields? levels body)
    | "union" => return .union (← nodes? levels body)
    | "intersect" => return .intersect (← nodes? levels body)
    | "ref" => return .ref (← body.text?)
    | "parameter" => return .parameter (← parameter? levels body)
    | "template_pattern" => return .templatePattern (← nodes? levels body)
    | name => recordKind? levels name body

def recordKind? : Nat → String → Document → Option (Kind Node)
  | 0, _, _ => none
  | levels + 1, "tuple", d => do
    match ← d.record? ["items", "rest"] with
    | [some items, rest] => return .tuple (← nodes? levels items) (← orElse truth? false rest)
    | _ => none
  | levels + 1, "function", d => do
    match ← d.record? ["parameters", "returns"] with
    | [some parameters, some returns] => return .function (← nodes? levels parameters) (← node? levels returns)
    | _ => none
  | levels + 1, "constructor", d => do
    match ← d.record? ["parameters", "instance"] with
    | [some parameters, some created] => return .constructor (← nodes? levels parameters) (← node? levels created)
    | _ => none
  | levels + 1, "wrapper", d => do
    match ← d.record? ["wrapper", "item"] with
    | [some wrapper, some item] => return .wrapper (← wrapper.word? levels Wrapper.ofTag?) (← node? levels item)
    | _ => none
  | levels + 1, "dictionary", d => do
    match ← d.record? ["key", "value"] with
    | [some key, some value] => return .dictionary (← node? levels key) (← node? levels value)
    | _ => none
  | levels + 1, "generic", d => do
    match ← d.record? ["parameters", "body"] with
    | [some parameters, some body] => return .generic (← parameters? levels parameters) (← node? levels body)
    | _ => none
  | levels + 1, "call", d => do
    match ← d.record? ["target", "arguments"] with
    | [some target, some arguments] => return .call (← node? levels target) (← nodes? levels arguments)
    | _ => none
  | levels + 1, "deferred", d => do
    match ← d.record? ["operator", "operands", "options"] with
    | [some operator, some operands, options] =>
      return .deferred (← operator.word? levels Operator.ofTag?) (← nodes? levels operands)
        (← orElse (annotations? levels) [] options)
    | _ => none
  | levels + 1, "cyclic", d => do
    match ← d.record? ["definitions", "root"] with
    | [some definitions, some root] => return .cyclic (← nodeFields? levels definitions) (← root.text?)
    | _ => none
  | _ + 1, _, _ => none

def nodes? : Nat → Document → Option (List Node)
  | 0, _ => none
  | levels + 1, d => d.list? (node? levels)

def nodeFields? : Nat → Document → Option (Fields Node)
  | 0, _ => none
  | levels + 1, d => d.fields? (node? levels)

def parameter? : Nat → Document → Option (Parameter Node)
  | 0, _ => none
  | levels + 1, d => do
    match ← d.record? ["name", "constraint", "default"] with
    | [some name, some constraint, some default] =>
      return ⟨← name.text?, ← node? levels constraint, ← node? levels default⟩
    | _ => none

def parameters? : Nat → Document → Option (List (Parameter Node))
  | 0, _ => none
  | levels + 1, d => d.list? (parameter? levels)
end

def maxLevels : Nat := 127

end Document

/-- **The node that a text saves.** -/
def Node.load? (text : String) : Option Node := do (← Document.ofText? text).node? Document.maxLevels

/-- **The context that a text saves.** -/
def loadContext? (text : String) : Option Context := do (← Document.ofText? text).nodeFields? Document.maxLevels

end Schemata
