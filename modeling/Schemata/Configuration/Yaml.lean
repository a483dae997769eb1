import Schemata.Configuration.Bracketed
import Schemata.Configuration.CodePoint
/-!
# YAML

The part of YAML that settings need: tables and lists by indentation, lists and tables between brackets on one line,
plain and quoted texts on one line, comments, and one document.
-/
namespace Schemata
namespace Yaml

def isBlank (c : Char) : Bool := c == ' ' || c == '\t'

/-! ## Scalars -/

def integer? (cs : List Char) : Option Int :=
  let based (base : Nat) (digits : List Char) : Option Int := do
    let value ← digits.foldlM (fun value c => (hexValue? c).bind fun d =>
      if d < base then some (value * base + d) else none) 0
    if digits.isEmpty || Nat.pow 2 63 ≤ value then none else some (value : Int)
  match cs with
  | '0' :: 'x' :: digits => based 16 digits
  | '0' :: 'o' :: digits => based 8 digits
  | cs =>
    if isInteger64 (String.ofList cs) then
      let (negative, digits) := splitSign cs
      some (if negative then -digitsValue 0 digits else digitsValue 0 digits)
    else none

def plain (cs : List Char) : Entry :=
  let text := String.ofList cs
  if ["", "~", "null"].contains text then .nothing
  else if text = "true" then .boolean true
  else if text = "false" then .boolean false
  else
    match integer? cs with
    | some i => .integer i
    | none =>
      match Number.ofText? text with
      | some x => .decimal x
      | none => .text text

/-- The rest of a text in double quotes, and what follows it. -/
def doubleQuoted? : List Char → Option (List Char × List Char)
  | [] => none
  | '\\' :: 'x' :: a :: b :: cs => do prepend (← codePoint? [a, b]) (doubleQuoted? cs)
  | '\\' :: 'u' :: a :: b :: c :: d :: cs => do prepend (← codePoint? [a, b, c, d]) (doubleQuoted? cs)
  | '\\' :: c :: cs => do
    let known := [('0', '\x00'), ('a', '\x07'), ('v', '\x0b'), ('e', '\x1b'), (' ', ' '), ('\t', '\t')]
    prepend (← (known.lookup c).or (escaped? c)) (doubleQuoted? cs)
  | c :: cs => if c = '"' then some ([], cs) else prepend c (doubleQuoted? cs)

/-- The rest of a text in single quotes, in which a quote is written twice, and what follows it. -/
def singleQuoted? : List Char → Option (List Char × List Char)
  | [] => none
  | '\x27' :: '\x27' :: cs => prepend '\x27' (singleQuoted? cs)
  | c :: cs => if c = '\x27' then some ([], cs) else prepend c (singleQuoted? cs)

/-- A text in quotes, and what follows it. -/
def quoted? : List Char → Option (List Char × List Char)
  | '"' :: cs => doubleQuoted? cs
  | '\x27' :: cs => singleQuoted? cs
  | _ => none

/-- Splits before the first colon that blanks, the end, or one of the given characters follow. -/
def untilColon (ends : List Char) : List Char → List Char × List Char
  | [] => ([], [])
  | ':' :: cs =>
    if cs.head?.all fun c => isBlank c || ends.contains c then ([], ':' :: cs)
    else ((':' :: (untilColon ends cs).1), (untilColon ends cs).2)
  | c :: cs => if ends.contains c then ([], c :: cs) else (c :: (untilColon ends cs).1, (untilColon ends cs).2)

def stripEnd (cs : List Char) : List Char := (cs.reverse.dropWhile isBlank).reverse

/-- Whether a character begins something other than a plain text. -/
def isIndicator (c : Char) : Bool := "-?:,[]\x7b\x7d#&*!|>\x27\"%@".toList.contains c || c.toNat = 0x60

def startsPlain : List Char → Bool
  | c :: d :: _ => !isIndicator c || (['-', '?', ':'].contains c && !isBlank d)
  | [c] => !isIndicator c
  | [] => false

def brackets : Brackets where
  skip := fun cs => cs.dropWhile isBlank
  scalar? := fun cs =>
    match quoted? cs with
    | some (text, rest) => some (.text (String.ofList text), rest)
    | none =>
      let (text, rest) := untilColon [',', '[', ']', '\x7b', '\x7d'] cs
      if startsPlain text then some (plain (stripEnd text), rest) else none
  name? := fun _ cs =>
    match quoted? cs with
    | some (text, rest) => some (String.ofList text, rest)
    | none =>
      let (text, rest) := untilColon [',', '[', ']', '\x7b', '\x7d'] cs
      if startsPlain text then some (String.ofList (stripEnd text), rest) else none
  parentheses := false

/-! ## Lines -/

/-- A line with its indentation. -/
structure Line where
  indent : Nat
  content : List Char

/-- The content of a line up to a comment, which begins the line or follows a blank. -/
def withoutComment : List Char → List Char
  | [] => []
  | c :: '#' :: cs => if isBlank c then [] else c :: withoutComment ('#' :: cs)
  | c :: cs => c :: withoutComment cs

def Line.ofChars? (cs : List Char) : Option Line :=
  let content := cs.dropWhile (· == ' ')
  if (content.dropWhile isBlank).isEmpty || content.head? = some '#' then none
  else some ⟨cs.length - content.length, stripEnd content⟩

/-- Whether only blanks and a comment are left of a line. -/
def isRest (cs : List Char) : Bool :=
  cs.isEmpty || (cs.head?.any isBlank && (withoutComment (' ' :: cs.dropWhile isBlank)).all isBlank)

def inline? (cs : List Char) : Option Entry :=
  match cs.head?, quoted? cs with
  | _, some (text, rest) => if isRest rest then some (.text (String.ofList text)) else none
  | some c, none =>
    if c = '[' ∨ c = '\x7b' then do
      let (entry, rest) ← brackets.value? (cs.length + 1) cs
      if isRest rest then some entry else none
    else
      let text := stripEnd (withoutComment cs)
      if startsPlain text && (untilColon [] text).2.isEmpty then some (plain text) else none
  | none, none => none

/-- A name with the colon behind it, and what follows on the line. -/
def name? (cs : List Char) : Option (String × List Char) :=
  let (name, rest) := match quoted? cs with
    | some (text, rest) => (text, rest)
    | none => if startsPlain cs then untilColon [] cs else ([], [])
  match rest.dropWhile isBlank with
  | ':' :: rest =>
    if rest.head?.all isBlank then
      let rest := rest.dropWhile isBlank
      some (String.ofList (stripEnd name), if rest.head? = some '#' then [] else rest)
    else none
  | _ => none

def Line.isItem (line : Line) : Bool :=
  match line.content with
  | ['-'] => true
  | '-' :: c :: _ => isBlank c
  | _ => false

/-! ## Blocks -/

mutual
/-- The block that begins with the first line, and the lines after it. -/
def block? : Nat → List Line → Option (Entry × List Line)
  | 0, _ => none
  | _, [] => some (.nothing, [])
  | fuel + 1, line :: lines =>
    if line.isItem then (items? fuel line.indent (line :: lines)).map fun (items, rest) => (.list items, rest)
    else if (name? line.content).isSome then
      (members? fuel line.indent (line :: lines)).map fun (members, rest) => (.table (Fields.ofList members), rest)
    else (inline? line.content).map (·, lines)

def items? : Nat → Nat → List Line → Option (List Entry × List Line)
  | 0, _, _ => none
  | _, _, [] => some ([], [])
  | fuel + 1, indent, line :: lines =>
    if line.indent < indent || (line.indent == indent && !line.isItem) then some ([], line :: lines)
    else if line.indent ≠ indent then none
    else do
      let content := (line.content.drop 1).dropWhile isBlank
      let (item, rest) ←
        if content.isEmpty then nested? fuel (indent + 1) lines
        else block? fuel (⟨indent + (line.content.length - content.length), content⟩ :: lines)
      let (items, rest) ← items? fuel indent rest
      return (item :: items, rest)

def members? : Nat → Nat → List Line → Option (List (String × Entry) × List Line)
  | 0, _, _ => none
  | _, _, [] => some ([], [])
  | fuel + 1, indent, line :: lines =>
    if line.indent < indent then some ([], line :: lines)
    else if line.indent ≠ indent || line.isItem then none
    else do
      let (name, content) ← name? line.content
      let (entry, rest) ←
        if !content.isEmpty then (inline? content).map (·, lines)
        else if lines.head?.any fun next => next.indent == indent && next.isItem then block? fuel lines
        else nested? fuel (indent + 1) lines
      let (members, rest) ← members? fuel indent rest
      return ((name, entry) :: members, rest)

/-- The block that is indented at least so far, if there is one. -/
def nested? : Nat → Nat → List Line → Option (Entry × List Line)
  | 0, _, _ => none
  | fuel + 1, indent, lines =>
    if lines.head?.any fun next => indent ≤ next.indent then block? fuel lines else some (.nothing, lines)
end

/-- **The entries of a YAML text.** -/
def entries? (text : String) : Option (Fields Entry) :=
  let lines := (text.splitOn "\n").filterMap fun line =>
    Line.ofChars? (if line.toList.getLast? = some '\r' then line.toList.dropLast else line.toList)
  let lines := match lines with
    | ⟨0, ['-', '-', '-']⟩ :: rest => rest
    | lines => lines
  if lines.isEmpty then some []
  else
    match block? (4 * text.length + 4) lines with
    | some (.table entries, []) => some entries
    | _ => none

end Yaml
end Schemata
