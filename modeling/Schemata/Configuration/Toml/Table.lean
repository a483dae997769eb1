import Schemata.Configuration.Entry
/-!
# Tables of TOML

A table is defined once.  What may still be added to it hangs on how it came about (`Origin`): a header may take over a
table that other headers only passed through, and a dotted key may pass through any table without a header, but ends
only in one that dotted keys have made.

`Item.within?` is the one way into tables: it follows a path, makes the tables that are missing, and changes the one at
the end.
-/
namespace Schemata
namespace Toml

/-- How a table came about. -/
inductive Origin where
  /-- It has a header, or is the whole document or a table between braces. -/
  | defined
  /-- A header of a table inside it passes through. -/
  | implied
  /-- A dotted key passes through. -/
  | dotted
  deriving DecidableEq, Repr

/-- What a key stands for while a document is read. -/
inductive Item where
  /-- A value, to which nothing can be added. -/
  | value (entry : Entry)
  | table (origin : Origin) (items : List (String × Item))
  /-- Tables that each have a header in double brackets: the last one, and those before it, newest first. -/
  | tables (last : List (String × Item)) (earlier : List (List (String × Item)))

namespace Item

mutual
def entry : Item → Entry
  | .value entry => entry
  | .table _ items => .table (entriesOf items)
  | .tables last earlier => .list (listOf [.table (entriesOf last)] earlier)

def entriesOf : List (String × Item) → List (String × Entry)
  | [] => []
  | (name, item) :: rest => (name, entry item) :: entriesOf rest

/-- The entries of tables, newest first, before those of `later`. -/
def listOf (later : List Entry) : List (List (String × Item)) → List Entry
  | [] => later
  | items :: earlier => listOf (.table (entriesOf items) :: later) earlier
end

/-- **The items with the table at the end of a path changed.**  Missing tables are made; of tables with headers in
double brackets the last one counts.  A dotted path passes through no table that is defined. -/
def within? (dotted : Bool) (change : Origin → Fields Item → Option (Fields Item)) :
    List String → Origin → Fields Item → Option (Fields Item)
  | [], origin, items => change origin items
  | name :: path, _, items =>
    match items.get? name with
    | none =>
      let made : Origin := if dotted then .dotted else .implied
      (within? dotted change path made []).map fun inner => items.insert name (.table made inner)
    | some (.value _) => none
    | some (.tables last earlier) =>
      (within? dotted change path .defined last).map fun last => items.insert name (.tables last earlier)
    | some (.table origin inner) =>
      if dotted && origin == .defined then none
      else (within? dotted change path origin inner).map fun inner => items.insert name (.table origin inner)

/-- A table with one more key, at the end of a dotted path. -/
def assign? (path : List String) (entry : Entry) (origin : Origin) (items : Fields Item) : Option (Fields Item) :=
  match path.getLast? with
  | none => none
  | some key =>
    within? true (fun reached items =>
      if (reached == .dotted) == path.dropLast.isEmpty || items.has key then none
      else some (items.insert key (.value entry))) path.dropLast origin items

/-- The items with the table of a header, which may be implied so far. -/
def openTable? (path : List String) (root : Fields Item) : Option (Fields Item) :=
  match path.getLast? with
  | none => none
  | some key =>
    within? false (fun _ items =>
      match items.get? key with
      | none => some (items.insert key (.table .defined []))
      | some (.table .implied inner) => some (items.insert key (.table .defined inner))
      | some _ => none) path.dropLast .defined root

/-- The items with one more table under a header in double brackets. -/
def addTable? (path : List String) (root : Fields Item) : Option (Fields Item) :=
  match path.getLast? with
  | none => none
  | some key =>
    within? false (fun _ items =>
      match items.get? key with
      | none => some (items.insert key (.tables [] []))
      | some (.tables last earlier) => some (items.insert key (.tables [] (last :: earlier)))
      | some _ => none) path.dropLast .defined root

end Item
end Toml
end Schemata
