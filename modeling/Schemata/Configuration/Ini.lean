import Schemata.Configuration.Entry
import Schemata.Configuration.CodePoint
/-!
# INI

Sections with a name in square brackets, and keys with values up to the end of the line.  All values are texts.  A
section that is given twice holds what is given last.
-/
namespace Schemata
namespace Ini

def isSpace (c : Char) : Bool := [' ', '\t', '\n', '\r', '\x0b', '\x0c', '\u0085', '\u00a0', '\u3000'].contains c

def strip (cs : List Char) : List Char := ((cs.dropWhile isSpace).reverse.dropWhile isSpace).reverse

/-- The character that a character after a backslash stands for. -/
def escaped (c : Char) : Char :=
  (([('0', '\x00'), ('a', '\x07'), ('b', '\x08'), ('t', '\t'), ('r', '\r'), ('n', '\n')] : List _).lookup c).getD c

/-- The characters before one that ends them, and those from there on; the end of the text may end them too. -/
def until? (ends : Char → Bool) (toEnd : Bool) : List Char → Option (List Char × List Char)
  | [] => if toEnd then some ([], []) else none
  | '\\' :: 'x' :: a :: b :: c :: d :: cs => do prepend (← codePoint? [a, b, c, d]) (until? ends toEnd cs)
  | '\\' :: c :: cs => prepend (escaped c) (until? ends toEnd cs)
  | c :: cs =>
    if ends c then some ([], c :: cs)
    else if c = '\\' then none
    else prepend c (until? ends toEnd cs)

def endsLine (c : Char) : Bool := c == '\n' || c == '\r'

/-- A value, in quotes or up to the end of the line, and what follows it. -/
def value? (cs : List Char) : Option (String × List Char) :=
  let quoted (quote : Char) (cs : List Char) : Option (String × List Char) := do
    let (text, rest) ← until? (· == quote) false cs
    let (more, rest) ← until? endsLine true (rest.drop 1)
    return (String.ofList (text ++ strip more), rest)
  match cs.dropWhile fun c => isSpace c && !endsLine c with
  | '"' :: cs => quoted '"' cs
  | '\x27' :: cs => quoted '\x27' cs
  | cs => (until? endsLine true cs).map fun (text, rest) => (String.ofList (strip text), rest)

/-- What a text holds. -/
inductive Part where
  | header (name : String)
  | entry (name : String) (value : String)

/-- The parts of a text, `fuel` of them at most; `fresh` tells whether a line has just begun. -/
def parts? (fresh : Bool) : Nat → List Char → Option (List Part)
  | _, [] => some []
  | 0, _ => none
  | fuel + 1, c :: cs =>
    if isSpace c then parts? (c == '\n') fuel cs
    else if c = ';' ∨ c = '#' then if fresh then parts? false fuel (cs.dropWhile (· != '\n')) else none
    else if c = '[' then do
      let (name, rest) ← until? (· == ']') false cs
      return .header (String.ofList (strip name)) :: (← parts? false fuel (rest.drop 1))
    else do
      let (name, rest) ← until? (fun c => c == '=' || c == ':') false (c :: cs)
      if (strip name).isEmpty then none
      let (value, rest) ← value? (rest.drop 1)
      return .entry (String.ofList (strip name)) value :: (← parts? false fuel rest)

/-- What is known while parts are read: the entries before the first header with the sections, and the current
section. -/
structure Sections where
  root : Fields Entry := []
  current : Option (String × Fields Entry) := none

def Sections.close (s : Sections) : Fields Entry :=
  match s.current with
  | some (name, entries) => s.root.insert name (.table entries)
  | none => s.root

def Sections.add (s : Sections) : Part → Sections
  | .header name => ⟨s.close, some (name, [])⟩
  | .entry name value =>
    match s.current with
    | some (header, entries) => { s with current := some (header, entries.insert name (.text value)) }
    | none => { s with root := s.root.insert name (.text value) }

/-- **The entries of an INI text.** -/
def entries? (text : String) : Option (Fields Entry) := do
  let parts ← parts? true text.length text.toList
  return (parts.foldl Sections.add {}).close

end Ini
end Schemata
