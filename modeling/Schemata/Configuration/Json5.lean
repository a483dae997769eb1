import Schemata.Configuration.Bracketed
import Schemata.Configuration.CodePoint
/-!
# JSON5

JSON with comments, names without quotes, texts in single quotes, commas after the last item, and more ways to write
numbers.
-/
namespace Schemata
namespace Json5

def isLineEnd (c : Char) : Bool := ['\n', '\r', '\u2028', '\u2029'].contains c

def isSpace (c : Char) : Bool :=
  isLineEnd c || ['\t', '\x0b', '\x0c', ' ', '\u00a0', '\uFEFF', '\u1680', '\u202f', '\u205f', '\u3000'].contains c
    || ('\u2000' ≤ c && c ≤ '\u200a')

/-- The character that a character after a backslash stands for. -/
def escaped? (c : Char) : Option Char :=
  if c = '0' then some '\x00'
  else if c = 'v' then some '\x0b'
  else if c.isDigit || c == 'x' || c == 'u' then none
  else some ((Schemata.escaped? c).getD c)

/-- The rest of a text up to the quote that ends it, and what follows it. -/
def text? (quote : Char) : List Char → Option (List Char × List Char)
  | [] => none
  | '\\' :: 'x' :: a :: b :: cs => do prepend (← codePoint? [a, b]) (text? quote cs)
  | '\\' :: 'u' :: a :: b :: c :: d :: cs => do prepend (← codePoint? [a, b, c, d]) (text? quote cs)
  | '\\' :: '\r' :: '\n' :: cs => text? quote cs
  | '\\' :: c :: cs => if isLineEnd c then text? quote cs else do prepend (← escaped? c) (text? quote cs)
  | c :: cs => if c = quote then some ([], cs) else if isLineEnd c then none else prepend c (text? quote cs)

def number? (cs : List Char) : Option Entry :=
  let (negative, digits) := splitSign cs
  if digits = "Infinity".toList then some (.decimal (.infinite negative))
  else if digits = "NaN".toList then some (.decimal .nan)
  else
    match cs with
    | '0' :: x :: hex =>
      if x = 'x' ∨ x = 'X' then do
        let value ← hex.foldlM (fun (value : Nat) c => (hexValue? c).map (value * 16 + ·)) 0
        if hex.isEmpty || Nat.pow 2 32 ≤ value then none else some (.integer value)
      else decimal? negative digits
    | _ => decimal? negative digits
where
  /-- A decimal number without its sign. -/
  decimal? (negative : Bool) (cs : List Char) : Option Entry :=
    let whole := cs.takeWhile Char.isDigit
    let spelling := String.ofList (if negative then '-' :: cs else cs)
    if (1 < whole.length && whole.head? == some '0') || !(cs.head?.any fun c => c.isDigit || c == '.') then none
    else if whole.length = cs.length then if isInteger64 spelling then some (Entry.ofText spelling) else none
    else (Number.ofText? spelling).map .decimal

def isWordChar (c : Char) : Bool := c.isAlphanum || ['.', '+', '-', '_', '$'].contains c

def scalar? : List Char → Option (Entry × List Char)
  | '"' :: cs => (text? '"' cs).map fun (text, rest) => (.text (String.ofList text), rest)
  | '\x27' :: cs => (text? '\x27' cs).map fun (text, rest) => (.text (String.ofList text), rest)
  | cs =>
    let (word, rest) := cs.span isWordChar
    if word = "null".toList then some (.nothing, rest)
    else if word = "true".toList then some (.boolean true, rest)
    else if word = "false".toList then some (.boolean false, rest)
    else (number? word).map (·, rest)

/-- Whether a character may stand in a name without quotes. -/
def isNameChar (c : Char) : Bool := c.isAlphanum || c == '_' || c == '$' || (0x80 ≤ c.toNat && !isSpace c)

/-- A name, with or without quotes. -/
def name? : List Char → Option (String × List Char)
  | '"' :: cs => (text? '"' cs).map fun (text, rest) => (String.ofList text, rest)
  | '\x27' :: cs => (text? '\x27' cs).map fun (text, rest) => (String.ofList text, rest)
  | cs =>
    let (name, rest) := cs.span isNameChar
    if name.isEmpty || name.head?.any Char.isDigit then none else some (String.ofList name, rest)

def brackets : Brackets where
  skip := Gap.skip isSpace isLineEnd .space
  scalar? := scalar?
  name? := fun _ => name?
  parentheses := false

/-- **The entries of a JSON5 text.** -/
def entries? (text : String) : Option (Fields Entry) := brackets.entries? text

end Json5
end Schemata
