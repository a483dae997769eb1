import Schemata.Node.Basic
import Schemata.Number.Decimal
import Schemata.Text.Quoted
/-!
# Type notation

How nodes are shown to people: `[string, ...number[]]`, `\x7b id: string, name?: string \x7d`, `Pick<User, "id">`.
Flags show only where a node is the type of a property; annotations do not show.
-/
namespace Schemata

namespace Primitive

def word : Primitive → String
  | .any => "any"
  | .unknown => "unknown"
  | .never => "never"
  | .string => "string"
  | .number => "number"
  | .integer => "integer"
  | .boolean => "boolean"
  | .bigInt => "bigint"
  | .null => "null"
  | .undefined => "undefined"
  | .void => "void"
  | .symbol => "symbol"

end Primitive

namespace Literal

/-- The text of a literal as a property name or as a piece of a template. -/
def toKey : Literal → String
  | .string text => text
  | .number x => x.toKey
  | .boolean true => "true"
  | .boolean false => "false"

/-- A literal as it is shown: texts in quotes. -/
def display : Literal → String
  | .string text => quoted text
  | l => l.toKey

end Literal

def Wrapper.word : Wrapper → String
  | .promise => "Promise"
  | .iterator => "Iterator"
  | .asyncIterator => "AsyncIterator"

def Operator.word : Operator → String
  | .pick => "Pick"
  | .omit => "Omit"
  | .allOptional => "Partial"
  | .allRequired => "Required"
  | .allReadonly => "Readonly"
  | .allWritable => "Writable"
  | .keyOf => "KeyOf"
  | .index => "Index"
  | .evaluate => "Evaluate"
  | .exclude => "Exclude"
  | .extract => "Extract"
  | .awaited => "Awaited"
  | .capitalize => "Capitalize"
  | .uncapitalize => "Uncapitalize"
  | .uppercase => "Uppercase"
  | .lowercase => "Lowercase"
  | .returnType => "ReturnType"
  | .parameters => "Parameters"
  | .constructorParameters => "ConstructorParameters"
  | .instanceType => "InstanceType"
  | .nonNullable => "NonNullable"
  | .record => "Record"
  | .mapped => "Mapped"
  | .conditional => "Conditional"
  | .templateLiteral => "TemplateLiteral"
  | .interface => "Interface"
  | .inlineModule => "Module"

namespace Node

def displayName (name : String) (modifiers : Modifiers) : String :=
  (if modifiers.readonly then "readonly " else "") ++ name ++ if modifiers.optional then "?" else ""

mutual
/-- **A node in type notation.** -/
def display : Node → String
  | ⟨kind, _, _⟩ => displayKind kind

def displayKind : Kind Node → String
  | .primitive p => p.word
  | .literal l => l.display
  | .array item => item.display ++ "[]"
  | .tuple items rest => "[" ++ ", ".intercalate (displayItems rest items) ++ "]"
  | .object [] => "\x7b\x7d"
  | .object properties => "\x7b " ++ ", ".intercalate (displayProperties properties) ++ " \x7d"
  | .union variants => " | ".intercalate (displayAll variants)
  | .intersect members => " & ".intercalate (displayAll members)
  | .function parameters returns => "(" ++ ", ".intercalate (displayAll parameters) ++ ") => " ++ returns.display
  | .constructor parameters created =>
    "new (" ++ ", ".intercalate (displayAll parameters) ++ ") => " ++ created.display
  | .wrapper w item => w.word ++ "<" ++ item.display ++ ">"
  | .dictionary key value => "\x7b [key: " ++ key.display ++ "]: " ++ value.display ++ " \x7d"
  | .ref name => name
  | .parameter p => displayParameter p
  | .generic parameters body => "<" ++ ", ".intercalate (displayParameters parameters) ++ "> " ++ body.display
  | .call target arguments => target.display ++ "<" ++ ", ".intercalate (displayAll arguments) ++ ">"
  | .deferred operator operands _ => operator.word ++ "<" ++ ", ".intercalate (displayAll operands) ++ ">"
  | .cyclic _ root => "cyclic " ++ root
  | .templatePattern fragments => "`" ++ String.join (displayFragments fragments) ++ "`"

def displayAll : List Node → List String
  | [] => []
  | n :: ns => n.display :: displayAll ns

/-- The items of a tuple; a rest item, the last, is marked. -/
def displayItems (rest : Bool) : List Node → List String
  | [] => []
  | [n] => [(if rest then "..." else "") ++ n.display]
  | n :: ns => n.display :: displayItems rest ns

def displayProperties : List (String × Node) → List String
  | [] => []
  | (name, n) :: rest => (displayName name n.modifiers ++ ": " ++ n.display) :: displayProperties rest

/-- A parameter; an unknown constraint is left out, and so is a default that equals the constraint. -/
def displayParameter : Parameter Node → String
  | ⟨name, constraint, default⟩ =>
    name ++ (if constraint.isPrimitive .unknown then "" else " extends " ++ constraint.display)
      ++ if default == constraint then "" else " = " ++ default.display

def displayParameters : List (Parameter Node) → List String
  | [] => []
  | p :: ps => displayParameter p :: displayParameters ps

/-- The pieces of a template: literals bare, all else in braces after a dollar sign. -/
def displayFragments : List Node → List String
  | [] => []
  | n :: ns =>
    (match n.literal? with
      | some l => l.toKey
      | none => "$\x7b" ++ n.display ++ "\x7d") :: displayFragments ns
end

end Node
end Schemata
