import Schemata.Configuration.Entry
/-!
# Values between brackets

Several notations write lists between square brackets and tables between braces, with commas that may also stand after
the last item.  They differ in what stands in between, which is what `Brackets` says: white space and comments, values
without brackets, and names.
-/
namespace Schemata

/-- **What a notation writes in its own way.** -/
structure Brackets where
  /-- The characters without white space and comments at their start. -/
  skip : List Char → List Char
  /-- A value without brackets, and what follows it. -/
  scalar? : List Char → Option (Entry × List Char)
  /-- The name of an entry before the given closing bracket, and what follows it. -/
  name? : Char → List Char → Option (String × List Char)
  /-- Whether tables and lists may stand between parentheses. -/
  parentheses : Bool

namespace Brackets

variable (b : Brackets) (value? : List Char → Option (Entry × List Char)) (close : Char)

/-- The rest of a list up to the closing bracket, `fuel` items of it at most. -/
def items? : Nat → List Char → Option (List Entry × List Char)
  | 0, _ => none
  | fuel + 1, cs => do
    if (b.skip cs).head? = some close then return ([], (b.skip cs).drop 1)
    let (item, rest) ← value? cs
    match b.skip rest with
    | ',' :: rest => do
      let (items, rest) ← items? fuel rest
      return (item :: items, rest)
    | c :: rest => if c = close then return ([item], rest) else none
    | [] => none

/-- A name, a colon and a value, and what follows them. -/
def member? (cs : List Char) : Option ((String × Entry) × List Char) := do
  let (name, rest) ← b.name? close (b.skip cs)
  match b.skip rest with
  | ':' :: rest => do
    let (entry, rest) ← value? rest
    return ((name, entry), rest)
  | _ => none

/-- The rest of a table up to the closing bracket, `fuel` entries of it at most. -/
def members? : Nat → List Char → Option (List (String × Entry) × List Char)
  | 0, _ => none
  | fuel + 1, cs => do
    if (b.skip cs).head? = some close then return ([], (b.skip cs).drop 1)
    let (first, rest) ← member? b value? close cs
    match b.skip rest with
    | ',' :: rest => do
      let (others, rest) ← members? fuel rest
      return (first :: others, rest)
    | c :: rest => if c = close then return ([first], rest) else none
    | [] => none

/-- What stands between parentheses: entries with names, or items. -/
def record? (cs : List Char) : Option (Entry × List Char) :=
  match members? b value? ')' (cs.length + 1) cs with
  | some ([], rest) => some (.nothing, rest)
  | some (members, rest) => some (.table (Fields.ofList members), rest)
  | none => (items? b value? ')' (cs.length + 1) cs).map fun (items, rest) => (.list items, rest)

end Brackets

/-- **A value**, with brackets nested less than `levels` deep, and what follows it. -/
def Brackets.value? (b : Brackets) : Nat → List Char → Option (Entry × List Char)
  | 0, _ => none
  | levels + 1, cs =>
    match b.skip cs with
    | '[' :: rest =>
      (items? b (value? b levels) ']' (rest.length + 1) rest).map fun (items, rest) => (.list items, rest)
    | '\x7b' :: rest =>
      (members? b (value? b levels) '\x7d' (rest.length + 1) rest).map fun (members, rest) =>
        (.table (Fields.ofList members), rest)
    | '(' :: rest => if b.parentheses then record? b (value? b levels) rest else none
    | rest => b.scalar? rest

/-- **The entries of a text** that is a table and nothing else. -/
def Brackets.entries? (b : Brackets) (text : String) : Option (Fields Entry) := do
  match ← b.value? (text.length + 1) text.toList with
  | (.table entries, rest) => if (b.skip rest).isEmpty then some entries else none
  | _ => none

/-! ## Comments -/

/-- Where a reader of white space and comments is. -/
inductive Gap where
  | space
  | lineComment
  /-- In a comment that is to be closed; what it began with. -/
  | comment (start : List Char)

/-- The characters without white space and comments at their start: from two slashes to the end of the line, and between
`/*` and `*/`.  A comment that is not closed is left. -/
def Gap.skip (isSpace isLineEnd : Char → Bool) : Gap → List Char → List Char
  | .space, '/' :: '/' :: cs => skip isSpace isLineEnd .lineComment cs
  | .space, '/' :: '*' :: cs => skip isSpace isLineEnd (.comment ('/' :: '*' :: cs)) cs
  | .space, c :: cs => if isSpace c then skip isSpace isLineEnd .space cs else c :: cs
  | .lineComment, c :: cs => skip isSpace isLineEnd (if isLineEnd c then .space else .lineComment) cs
  | .comment _, '*' :: '/' :: cs => skip isSpace isLineEnd .space cs
  | .comment start, _ :: cs => skip isSpace isLineEnd (.comment start) cs
  | .comment start, [] => start
  | _, [] => []

end Schemata
