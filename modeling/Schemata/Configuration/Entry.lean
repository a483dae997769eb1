import Schemata.Fields
import Schemata.Json.Value
import Schemata.Number.Decimal
import Schemata.Text.LetterCase
/-!
# Configuration entries

Configuration is laid in layers of named entries.  A later layer replaces entry by entry, and tables are merged; names
count without regard to case.

Entries are read generously: a count may be spelled as a text, a truth value or a number with a fraction, and the
fields of a record may be named in a table or stand in order in a list.
-/
namespace Schemata

/-- What a configuration entry holds. -/
inductive Entry where
  | nothing
  | text (text : String)
  | integer (value : Int)
  | decimal (value : Number)
  | boolean (value : Bool)
  | list (items : List Entry)
  | table (entries : List (String × Entry))
  deriving Inhabited

namespace Entry

/-! ## Layers -/

def nameOf (name : String) : String := LetterCase.lower.apply name

/-- The entries of a table; anything else has none. -/
def entries : Entry → Fields Entry
  | .table entries => entries
  | _ => []

/-- The items of a list; anything else has none. -/
def items : Entry → List Entry
  | .list items => items
  | _ => []

mutual
/-- An entry over an earlier one of the same name: a table is merged into a table and replaces anything else, unless it
is empty; all other entries replace. -/
def layered (earlier : Option Entry) : Entry → Entry
  | .table entries =>
    if entries.isEmpty then earlier.getD (.table []) else .table (overlay (earlier.elim [] Entry.entries) entries)
  | entry => entry

/-- **Entries over earlier ones.** -/
def overlay (earlier : Fields Entry) : List (String × Entry) → Fields Entry
  | [] => earlier
  | (name, entry) :: rest =>
    overlay (earlier.insert (nameOf name) (layered (earlier.get? (nameOf name)) entry)) rest
end

/-! ## Values -/

/-- A whole number of 64 bits without a sign; a plus may stand. -/
def unsigned? (spelling : String) : Option Nat :=
  let digits := match spelling.toList with
    | '+' :: cs => cs
    | cs => cs
  if digits.isEmpty || !digits.all Char.isDigit then none
  else if digitsValue 0 digits < Nat.pow 2 64 then some (digitsValue 0 digits)
  else none

/-- The whole number nearest to a number, a half upwards, kept between `0` and `2 ^ 64 - 1`. -/
def nearestCount : Number → Nat
  | .finite false m => min ((2 * m.ratio.1 + m.ratio.2) / (2 * m.ratio.2)) (Nat.pow 2 64 - 1)
  | .infinite false => Nat.pow 2 64 - 1
  | _ => 0

/-- **The count that an entry spells.** -/
def count? : Entry → Option Nat
  | .integer i => if 0 ≤ i then some i.toNat else none
  | .boolean b => some b.toNat
  | .decimal x => some (nearestCount x)
  | .text spelling =>
    let word := LetterCase.lower.apply spelling
    if ["true", "on", "yes"].contains word then some 1
    else if ["false", "off", "no"].contains word then some 0
    else unsigned? spelling
  | .nothing | .list _ | .table _ => none

/-- The word that an entry spells: a text, or the only name in a table. -/
def word? : Entry → Option String
  | .text spelling => some (LetterCase.lower.apply spelling)
  | .table [(name, _)] => some (LetterCase.lower.apply name)
  | _ => none

/-- **The fields of a record**, in the order of their names: by name in a table, by position in a list. -/
def record? (names : List String) : Entry → Option (List (Option Entry))
  | .table entries => some (names.map (Fields.get? entries))
  | .list items => some (names.zipIdx.map fun field => items[field.2]?)
  | _ => none

/-! ## Where entries come from -/

/-- **What a bare text stands for**: a truth value, an integer, a number, or itself. -/
def ofText (spelling : String) : Entry :=
  let word := LetterCase.lower.apply spelling
  if word = "true" then .boolean true
  else if word = "false" then .boolean false
  else if isInteger64 spelling then
    let (negative, digits) := splitSign spelling.toList
    .integer (if negative then -digitsValue 0 digits else digitsValue 0 digits)
  else
    match Number.ofText? spelling with
    | some x => .decimal x
    | none => .text spelling

mutual
/-- The entry that a JSON value is; an integer that 64 bits with a sign do not hold becomes a number. -/
def ofJson : Json → Entry
  | .null => .nothing
  | .boolean b => .boolean b
  | .integer i => if i.value < Nat.pow 2 63 then .integer i.value else .decimal (.ofInt i.value)
  | .number x => .decimal x
  | .string value => .text value
  | .array items => .list (ofJsonItems items)
  | .object fields => .table (ofJsonFields fields)

def ofJsonItems : List Json → List Entry
  | [] => []
  | value :: rest => ofJson value :: ofJsonItems rest

def ofJsonFields : List (String × Json) → List (String × Entry)
  | [] => []
  | (name, value) :: rest => (name, ofJson value) :: ofJsonFields rest
end

end Entry
end Schemata
