import Schemata.Json.Token
/-!
# JSON documents

A document is JSON text with its structure seen and its values not yet read: numbers as spelled, members in order and
with repetitions.  Tokens are fed one by one to a reading, which keeps what is open around the place it has come to.
-/
namespace Schemata

/-- **A document**, as it is spelled. -/
inductive Document where
  | null
  | boolean (value : Bool)
  | number (numeral : Numeral)
  /-- A string; none when it spells a lone surrogate. -/
  | string (text : Option String)
  | array (items : List Document)
  | object (members : List (Option String × Document))
  deriving Inhabited

namespace Document

/-! ## Reading tokens -/

/-- An array or object around the place read; what it has so far stands backwards. -/
inductive Open where
  | item (items : List Document)
  | member (members : List (Option String × Document)) (name : Option String)

/-- **Where a reading has come to**, inside what is open, innermost first. -/
inductive Reading where
  /-- Before a value. -/
  | value (around : List Open)
  /-- After `[`. -/
  | firstItem (around : List Open)
  /-- After an opening brace. -/
  | firstName (around : List Open)
  /-- Before the name of another member. -/
  | name (around : List Open) (members : List (Option String × Document))
  /-- After the name of a member. -/
  | colon (around : List Open) (members : List (Option String × Document)) (name : Option String)
  /-- After a value. -/
  | after (around : List Open) (value : Document)

namespace Reading

def begin? (around : List Open) : Token → Option Reading
  | .openArray => some (.firstItem around)
  | .openObject => some (.firstName around)
  | .null => some (.after around .null)
  | .boolean b => some (.after around (.boolean b))
  | .number n => some (.after around (.number n))
  | .string s => some (.after around (.string s))
  | _ => none

/-- **One token.** -/
def feed? : Reading → Token → Option Reading
  | .value around, token => begin? around token
  | .firstItem around, .closeArray => some (.after around (.array []))
  | .firstItem around, token => begin? (.item [] :: around) token
  | .firstName around, .closeObject => some (.after around (.object []))
  | .firstName around, .string s => some (.colon around [] s)
  | .name around members, .string s => some (.colon around members s)
  | .colon around members s, .colon => some (.value (.member members s :: around))
  | .after (.item items :: around) d, .comma => some (.value (.item (d :: items) :: around))
  | .after (.item items :: around) d, .closeArray => some (.after around (.array (d :: items).reverse))
  | .after (.member members s :: around) d, .comma => some (.name around ((s, d) :: members))
  | .after (.member members s :: around) d, .closeObject => some (.after around (.object ((s, d) :: members).reverse))
  | _, _ => none

/-- The document, when nothing is open and nothing is missing. -/
def finish? : Reading → Option Document
  | .after [] d => some d
  | _ => none

end Reading

def ofTokens? (tokens : List Token) : Option Document := do
  (← tokens.foldlM Reading.feed? (.value [])).finish?

/-- **The document that a text spells.** -/
def ofText? (text : String) : Option Document := do ofTokens? (← Token.ofText? text)

/-! ## What a document says

Values are read with a budget of levels: an array or object takes one, and what has no level left is refused. -/

def text? : Document → Option String
  | .string text => text
  | _ => none

def truth? : Document → Option Bool
  | .boolean b => some b
  | _ => none

def named? (members : List (Option String × Document)) : Option (List (String × Document)) :=
  members.mapM fun e => e.1.map (·, e.2)

/-- The values of an object for expected names, in the order of these; other names count for nothing, an expected
name may stand once. -/
def expect? (names : List String) (members : List (String × Document)) : Option (List (Option Document)) :=
  names.mapM fun name =>
    match members.filter fun e => e.1 == name with
    | [] => some none
    | [e] => some (some e.2)
    | _ => none

/-- **A record with the given names**: an object, or an array with the values in order, of which the last may be
missing. -/
def record? (names : List String) : Document → Option (List (Option Document))
  | .object members => do expect? names (← named? members)
  | .array items =>
    if items.length ≤ names.length then
      some (items.map some ++ List.replicate (names.length - items.length) none)
    else none
  | _ => none

/-- **A choice with a body**: an object with one member. -/
def choice? : Document → Option (String × Document)
  | .object [(some name, body)] => some (name, body)
  | _ => none

/-- **One of the words that `ofWord?` knows**, by itself or as the name of nothing. -/
def word? {α : Type} (levels : Nat) (ofWord? : String → Option α) : Document → Option α
  | .string (some word) => ofWord? word
  | .object [(some word, .null)] => if levels = 0 then none else ofWord? word
  | _ => none

/-- **The value of a document**: members by name, the last of a name counting. -/
def toJson? : Nat → Document → Option Json
  | _, .null => some .null
  | _, .boolean b => some (.boolean b)
  | _, .number n => n.toJson?
  | _, .string s => s.map .string
  | levels + 1, .array items => (items.mapM (toJson? levels)).map .array
  | levels + 1, .object members => do
    let fields ← (← named? members).mapM fun e => return (e.1, ← toJson? levels e.2)
    return .object (Annotations.ofList fields)
  | 0, _ => none

def annotations? (levels : Nat) (d : Document) : Option Annotations := do
  match ← d.toJson? levels with
  | .object fields => some fields
  | _ => none

end Document
end Schemata
