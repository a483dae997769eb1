import Schemata.Configuration.Bracketed
import Schemata.Configuration.CodePoint
/-!
# RON

Records between parentheses, with or without a name before them, lists, and maps with texts as names.
-/
namespace Schemata
namespace Ron

def isSpace (c : Char) : Bool :=
  ['\t', '\n', '\x0b', '\x0c', '\r', ' ', '\u0085', '\u200e', '\u200f', '\u2028', '\u2029'].contains c

def isWordChar (c : Char) : Bool := c.isAlphanum || c == '_'

def skip (cs : List Char) : List Char := Gap.skip isSpace (· == '\n') .space cs

/-- The character that a character after a backslash stands for. -/
def escaped? (c : Char) : Option Char :=
  [('\x27', '\x27'), ('"', '"'), ('\\', '\\'), ('n', '\n'), ('r', '\r'), ('t', '\t'), ('0', '\x00')].lookup c

/-- The rest of a text in double quotes, and what follows it. -/
def text? : List Char → Option (List Char × List Char)
  | [] => none
  | '\\' :: 'x' :: a :: b :: cs => do prepend (← codePoint? [a, b]) (text? cs)
  | '\\' :: c :: cs => do prepend (← escaped? c) (text? cs)
  | c :: cs => if c = '"' then some ([], cs) else prepend c (text? cs)

/-- A number; underscores may group digits. -/
def number? (cs : List Char) : Option Entry :=
  let (negative, digits) := splitSign (cs.filter (· != '_'))
  let based (base : Nat) (digits : List Char) : Option Entry := do
    let value ← digits.foldlM (fun value c => (hexValue? c).bind fun d =>
      if d < base then some (value * base + d) else none) 0
    let i : Int := if negative then -(value : Int) else value
    if digits.isEmpty || i < -(Nat.pow 2 63 : Int) || Nat.pow 2 63 ≤ i then none else some (.integer i)
  match digits with
  | ['i', 'n', 'f'] => some (.decimal (.infinite negative))
  | ['N', 'a', 'N'] => some (.decimal .nan)
  | '0' :: 'x' :: hex => based 16 hex
  | '0' :: 'o' :: octal => based 8 octal
  | '0' :: 'b' :: binary => based 2 binary
  | digits =>
    let spelling := String.ofList (if negative then '-' :: digits else digits)
    if !(digits.head?.any fun c => c.isDigit || c == '.') || cs.head? == some '_' then none
    else if isInteger64 spelling then some (Entry.ofText spelling)
    else (Number.ofText? spelling).map .decimal

/-- A value without brackets; a name by itself has no value. -/
def scalar? : List Char → Option (Entry × List Char)
  | '"' :: cs => (text? cs).map fun (text, rest) => (.text (String.ofList text), rest)
  | '\x27' :: '\\' :: c :: '\x27' :: rest => (escaped? c).map fun c => (.text (String.singleton c), rest)
  | '\x27' :: c :: '\x27' :: rest => some (.text (String.singleton c), rest)
  | cs =>
    let (word, rest) := cs.span fun c => isWordChar c || ['.', '+', '-'].contains c
    if word = "true".toList then some (.boolean true, rest)
    else if word = "false".toList then some (.boolean false, rest)
    else
      match number? word with
      | some entry => some (entry, rest)
      | none =>
        if word.isEmpty || word.head?.any Char.isDigit || !word.all isWordChar then none else some (.nothing, rest)

/-- A name: a word in a record, a text in a map. -/
def name? (close : Char) : List Char → Option (String × List Char)
  | '"' :: cs => if close = ')' then none else (text? cs).map fun (text, rest) => (String.ofList text, rest)
  | cs =>
    let (name, rest) := cs.span isWordChar
    if close ≠ ')' || name.isEmpty || name.head?.any Char.isDigit then none else some (String.ofList name, rest)

/-- The characters without the name of a record, which a parenthesis follows. -/
def skipName (cs : List Char) : List Char :=
  let (name, rest) := (skip cs).span isWordChar
  if !name.isEmpty && (skip rest).head? == some '(' then skip rest else skip cs

def brackets : Brackets where
  skip := skipName
  scalar? := scalar?
  name? := name?
  parentheses := true

/-- **The entries of a RON text.** -/
def entries? (text : String) : Option (Fields Entry) := brackets.entries? text

end Ron
end Schemata
