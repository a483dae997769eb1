import Schemata.Configuration.Toml.Scalar
import Schemata.Configuration.Toml.Table
/-!
# TOML documents

`value?` reads a value, `Statement.read?` a header or a key with its value, and `entries?` a whole document: its
statements, each of which adds to the tables that those before it have defined.
-/
namespace Schemata
namespace Toml

/-! ## Values -/

/-- The rest of a list, `fuel` items of it at most; a comma may stand after the last one. -/
def items? (value? : List Char → Option (Entry × List Char)) : Nat → List Char → Option (List Entry × List Char)
  | 0, _ => none
  | fuel + 1, cs =>
    match skipSpace false cs with
    | ']' :: rest => some ([], rest)
    | cs => do
      let (item, rest) ← value? cs
      match skipSpace false rest with
      | ',' :: rest => do
        let (items, rest) ← items? value? fuel rest
        return (item :: items, rest)
      | ']' :: rest => return ([item], rest)
      | _ => none

/-- A dotted key with its value, and what follows them. -/
def assignment? (value? : List Char → Option (Entry × List Char)) (cs : List Char) :
    Option ((List String × Entry) × List Char) := do
  match ← path? cs with
  | (path, '=' :: rest) =>
    let (entry, rest) ← value? (skipBlanks rest)
    return ((path, entry), rest)
  | _ => none

/-- The rest of a table between braces that is not empty, `fuel` keys of it at most. -/
def assignments? (value? : List Char → Option (Entry × List Char)) :
    Nat → List Char → Option (List (List String × Entry) × List Char)
  | 0, _ => none
  | fuel + 1, cs => do
    let (first, rest) ← assignment? value? cs
    match skipBlanks rest with
    | ',' :: rest => do
      let (others, rest) ← assignments? value? fuel rest
      return (first :: others, rest)
    | '\x7d' :: rest => return ([first], rest)
    | _ => none

def tableOf? (assignments : List (List String × Entry)) : Option Entry := do
  let items ← assignments.foldlM (fun items (path, entry) => Item.assign? path entry .defined items) []
  return .table (Item.entriesOf items)

/-- **A value**, with lists and tables nested up to `levels` deep, and what follows it. -/
def value? : Nat → List Char → Option (Entry × List Char)
  | _, '"' :: cs => (text? ('"' :: cs)).map fun (text, rest) => (.text text, rest)
  | _, '\x27' :: cs => (text? ('\x27' :: cs)).map fun (text, rest) => (.text text, rest)
  | levels + 1, '[' :: cs =>
    (items? (value? levels) (cs.length + 1) cs).map fun (items, rest) => (.list items, rest)
  | levels + 1, '\x7b' :: cs =>
    match skipBlanks cs with
    | '\x7d' :: rest => some (.table [], rest)
    | cs => do
      let (assignments, rest) ← assignments? (value? levels) (cs.length + 1) cs
      return (← tableOf? assignments, rest)
  | _, cs => scalar? cs

/-! ## Statements -/

/-- A statement of a document. -/
inductive Statement where
  /-- An empty line or a comment. -/
  | blank
  | header (path : List String)
  /-- A header in double brackets. -/
  | itemHeader (path : List String)
  | assignment (path : List String) (entry : Entry)

/-- A statement, up to the end of its line, and what follows it. -/
def Statement.read? (cs : List Char) : Option (Statement × List Char) :=
  match lineEnd? cs, skipBlanks cs with
  | some rest, _ => some (.blank, rest)
  | none, '[' :: '[' :: cs => do
    match ← path? cs with
    | (path, ']' :: ']' :: rest) => return (.itemHeader path, ← lineEnd? rest)
    | _ => none
  | none, '[' :: cs => do
    match ← path? cs with
    | (path, ']' :: rest) => return (.header path, ← lineEnd? rest)
    | _ => none
  | none, cs => do
    let ((path, entry), rest) ← assignment? (value? maxNesting) cs
    return (.assignment path entry, ← lineEnd? rest)

/-- The statements of a document, `fuel` of them at most. -/
def statements? : Nat → List Char → Option (List Statement)
  | _, [] => some []
  | 0, _ => none
  | fuel + 1, cs => do
    let (statement, rest) ← Statement.read? cs
    return statement :: (← statements? fuel rest)

/-! ## Documents -/

/-- What statements have defined so far. -/
structure Definitions where
  root : Fields Item := []
  /-- The table that keys belong to. -/
  place : List String := []

/-- **One more statement.** -/
def Definitions.add? (d : Definitions) : Statement → Option Definitions
  | .blank => some d
  | .header path => (Item.openTable? path d.root).map fun root => ⟨root, path⟩
  | .itemHeader path => (Item.addTable? path d.root).map fun root => ⟨root, path⟩
  | .assignment path entry =>
    (Item.within? false (Item.assign? path entry) d.place .defined d.root).map fun root => { d with root }

/-- **The entries that a text defines.**  A byte order mark may stand before them. -/
def entries? (text : String) : Option (Fields Entry) := do
  let cs := match text.toList with
    | '\uFEFF' :: cs => cs
    | cs => cs
  let statements ← statements? cs.length cs
  let definitions ← statements.foldlM Definitions.add? {}
  return Item.entriesOf definitions.root

end Toml
end Schemata
