import Schemata.Node.Basic
import Schemata.Distinct
/-!
# Building nodes

One function per form of a node and per operator, and the normal form of unions: `unionOf` opens plain unions, leaves
out `never` and repetitions, and is `never` for no variant and the variant itself for one.
-/
namespace Schemata

namespace Parameter

def withDefault (name : String) (constraint default : Node) : Parameter Node := ⟨name, constraint, default⟩

def bounded (name : String) (constraint : Node) : Parameter Node := ⟨name, constraint, constraint⟩

def free (name : String) : Parameter Node := bounded name (.of (.primitive .unknown))

end Parameter

namespace Node

/-! ## Primitives and literals -/

def primitive (p : Primitive) : Node := of (.primitive p)

def any : Node := primitive .any
def unknown : Node := primitive .unknown
def never : Node := primitive .never
def string : Node := primitive .string
def number : Node := primitive .number
def integer : Node := primitive .integer
def boolean : Node := primitive .boolean
def bigInt : Node := primitive .bigInt
def null : Node := primitive .null
def undefined : Node := primitive .undefined
def void : Node := primitive .void
def symbol : Node := primitive .symbol

def literal (l : Literal) : Node := of (.literal l)

def text (s : String) : Node := literal (.string s)

def natural (n : Nat) : Node := literal (.number (.ofNat n))

def truth (b : Bool) : Node := literal (.boolean b)

/-! ## Structures -/

def array (item : Node) : Node := of (.array item)
def tuple (items : List Node) : Node := of (.tuple items false)

/-- A tuple that goes on with any number of `rest`. -/
def restTuple (items : List Node) (rest : Node) : Node := of (.tuple (items ++ [array rest]) true)

/-- An object; a repeated name keeps its first place and takes its last type. -/
def object (properties : List (String × Node)) : Node := of (.object (Fields.ofList properties))

def union (variants : List Node) : Node := of (.union variants)
def intersect (members : List Node) : Node := of (.intersect members)
def function (parameters : List Node) (returns : Node) : Node := of (.function parameters returns)
def constructor (parameters : List Node) (created : Node) : Node := of (.constructor parameters created)
def wrapper (w : Wrapper) (item : Node) : Node := of (.wrapper w item)
def promise (item : Node) : Node := wrapper .promise item
def iterator (item : Node) : Node := wrapper .iterator item
def asyncIterator (item : Node) : Node := wrapper .asyncIterator item
def dictionary (key value : Node) : Node := of (.dictionary key value)
def reference (name : String) : Node := of (.ref name)

/-- A parameter that stands by itself, as the key of a mapped type does. -/
def parameter (p : Parameter Node) : Node := of (.parameter p)

def generic (parameters : List (Parameter Node)) (body : Node) : Node := of (.generic parameters body)
def call (target : Node) (arguments : List Node) : Node := of (.call target arguments)
def deferred (operator : Operator) (operands : List Node) : Node := of (.deferred operator operands [])
def cyclic (definitions : Fields Node) (root : String) : Node := of (.cyclic definitions root)
def templatePattern (fragments : List Node) : Node := of (.templatePattern fragments)

/-! ## Unions in normal form -/

mutual
/-- The variants of a node as a union: plain unions are opened, `never` is left out. -/
def leaves : Node → List Node
  | ⟨.union variants, ⟨false, false⟩, []⟩ => leavesAll variants
  | ⟨.primitive .never, _, _⟩ => []
  | n => [n]

def leavesAll : List Node → List Node
  | [] => []
  | n :: ns => leaves n ++ leavesAll ns
end

/-- **The union of nodes in normal form**: opened, without `never` and without repetitions. -/
def unionOf (variants : List Node) : Node :=
  match distinct (leavesAll variants) with
  | [] => never
  | [n] => n
  | ns => union ns

def keys (literals : List Literal) : Node := unionOf (literals.map literal)

/-! ## Operators -/

def pickKeys (subject keys : Node) : Node := deferred .pick [subject, keys]
def omitKeys (subject keys : Node) : Node := deferred .omit [subject, keys]
def allOptional (subject : Node) : Node := deferred .allOptional [subject]
def allRequired (subject : Node) : Node := deferred .allRequired [subject]
def allReadonly (subject : Node) : Node := deferred .allReadonly [subject]
def allWritable (subject : Node) : Node := deferred .allWritable [subject]
def keyOf (subject : Node) : Node := deferred .keyOf [subject]
def index (subject key : Node) : Node := deferred .index [subject, key]
def evaluate (subject : Node) : Node := deferred .evaluate [subject]
def exclude (left right : Node) : Node := deferred .exclude [left, right]
def extract (left right : Node) : Node := deferred .extract [left, right]
def awaited (subject : Node) : Node := deferred .awaited [subject]
def capitalize (subject : Node) : Node := deferred .capitalize [subject]
def uncapitalize (subject : Node) : Node := deferred .uncapitalize [subject]
def uppercase (subject : Node) : Node := deferred .uppercase [subject]
def lowercase (subject : Node) : Node := deferred .lowercase [subject]
def returnType (signature : Node) : Node := deferred .returnType [signature]
def parametersOf (signature : Node) : Node := deferred .parameters [signature]
def constructorParameters (signature : Node) : Node := deferred .constructorParameters [signature]
def instanceType (signature : Node) : Node := deferred .instanceType [signature]
def nonNullable (subject : Node) : Node := deferred .nonNullable [subject]
def record (key value : Node) : Node := deferred .record [key, value]

/-- For each key `P` of the constraint of `key`, a property of type `body`, under the name `remap` gives. -/
def mapped (key : Parameter Node) (body : Node) (remap : Option Node) : Node :=
  deferred .mapped (parameter key :: body :: remap.toList)

/-- `whenTrue` if `check` fits `bound`, else `whenFalse`. -/
def conditional (check bound whenTrue whenFalse : Node) : Node :=
  deferred .conditional [check, bound, whenTrue, whenFalse]

def templateLiteral (fragments : List Node) : Node := deferred .templateLiteral fragments

/-- An object with the properties of `heritage`, those of `own` winning. -/
def interface (heritage : List Node) (own : Node) : Node := deferred .interface (heritage ++ [own])

def inlineModule (definitions : Fields Node) : Node := deferred .inlineModule [object definitions]

end Node
end Schemata
