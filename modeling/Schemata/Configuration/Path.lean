import Schemata.Configuration.Entry
/-!
# Paths to entries

A key of a configuration source may be a path: names with points between them, and positions in brackets, as in
`limits.max_depth` or `limits[0]`.  A key that is no path is a name as it stands.

`Entry.put` follows a path and makes room along it: what is no table or list where the path needs one is replaced.
-/
namespace Schemata
namespace Entry

/-- A step from an entry to one inside it. -/
inductive Step where
  | name (name : String)
  /-- A position in a list, counted from its end when negative. -/
  | position (index : Int)
  deriving DecidableEq, Repr

namespace Step

/-! ## Reading -/

/-- Whether a character may stand in a name along a path. -/
def isNameChar (c : Char) : Bool := c.isAlphanum || c == '-' || c == '_' || c == ' '

def isBlank (c : Char) : Bool := c == ' ' || c == '\t'

def strip (cs : List Char) : List Char := ((cs.dropWhile isBlank).reverse.dropWhile isBlank).reverse

/-- The position that characters between brackets spell, with a minus at most before the digits. -/
def position? (cs : List Char) : Option Step :=
  let spelling := String.ofList (strip cs)
  if isInteger64 spelling && (strip cs).head? != some '+' then
    let (negative, digits) := splitSign (strip cs)
    some (.position (if negative then -digitsValue 0 digits else digitsValue 0 digits))
  else none

/-- The name at the start, and what follows it. -/
def name? (cs : List Char) : Option (Step × List Char) :=
  match cs.span isNameChar with
  | ([], _) => none
  | (cs, rest) => some (.name (String.ofList cs), rest)

/-- The steps after the first name, `fuel` of them at most. -/
def further? : Nat → List Char → Option (List Step)
  | _, [] => some []
  | fuel + 1, '.' :: cs => do
    let (step, rest) ← name? cs
    return step :: (← further? fuel rest)
  | fuel + 1, '[' :: cs =>
    match cs.span (· != ']') with
    | (index, ']' :: rest) => do return (← position? index) :: (← further? fuel rest)
    | _ => none
  | _, _ => none

def path? (cs : List Char) : Option (List Step) := do
  let (first, rest) ← name? cs
  return first :: (← further? rest.length rest)

/-- **The path of a key**; a key that spells no path is a single name. -/
def ofKey (key : String) : List Step := (path? key.toList).getD [.name key]

end Step

/-! ## Following -/

/-- A list with one item changed.  Items that are missing before it, at either end, are added without a value. -/
def alterAt (change : Entry → Entry) (items : List Entry) : Int → List Entry
  | .ofNat i => (items ++ List.replicate (i + 1 - items.length) Entry.nothing).modify i change
  | .negSucc i =>
    (List.replicate (i + 1 - items.length) Entry.nothing ++ items).modify (items.length - (i + 1)) change

/-- **An entry with `value` put at the end of a path.**  The last name of a path counts without regard to case, and a
table is merged into what stands there. -/
def put (value : Entry) : List Step → Entry → Entry
  | [], _ => value
  | [.name name], entry => .table (overlay entry.entries [(name, value)])
  | .name name :: path, entry =>
    .table (entry.entries.insert name (put value path ((entry.entries.get? name).getD .nothing)))
  | .position i :: path, entry => .list (alterAt (put value path) entry.items i)

/-- **The entries of a source laid over earlier ones**, each at the path that is its key. -/
def lay (earlier source : Fields Entry) : Fields Entry :=
  source.foldl (fun laid e => (put e.2 (Step.ofKey e.1) (.table laid)).entries) earlier

end Entry
end Schemata
