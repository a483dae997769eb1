import Schemata.Configuration.CodePoint
/-!
# Characters of TOML

Blanks, line ends and comments, texts in quotes, and keys.  A reader takes characters and gives what it has read with
the characters that follow.

A line ends with a line feed, which a carriage return may precede.  A carriage return elsewhere is an error, and so is
any other control character but the tab.
-/
namespace Schemata
namespace Toml

/-! ## Between values -/

def isBlank (c : Char) : Bool := c == ' ' || c == '\t'

def skipBlanks (cs : List Char) : List Char := cs.dropWhile isBlank

def isVisible (c : Char) : Bool := (' ' ≤ c && c != '\x7f') || c == '\t'

def lineBreak? : List Char → Option (List Char)
  | '\n' :: cs => some cs
  | '\r' :: '\n' :: cs => some cs
  | _ => none

/-- What follows a line on which nothing but a comment is left. -/
def lineEnd? (cs : List Char) : Option (List Char) :=
  let rest := match skipBlanks cs with
    | '#' :: comment => comment.dropWhile isVisible
    | rest => rest
  if rest.isEmpty then some [] else lineBreak? rest

/-- The characters without leading blanks, line breaks and comments; `inComment` tells whether a comment has begun. -/
def skipSpace (inComment : Bool) : List Char → List Char
  | [] => []
  | '\n' :: cs => skipSpace false cs
  | '\r' :: '\n' :: cs => skipSpace false cs
  | c :: cs =>
    if inComment then if isVisible c then skipSpace true cs else c :: cs
    else if isBlank c then skipSpace false cs
    else if c == '#' then skipSpace true cs
    else c :: cs

/-! ## Texts -/

/-- The end of a text between three quotes: up to two quotes before the last three belong to it. -/
def longEnd? (quote : Char) (cs : List Char) : Option (List Char × List Char) :=
  let inside := min ((cs.takeWhile (· == quote)).length - 3) 2
  if (cs.takeWhile (· == quote)).length < 3 then none
  else some (List.replicate inside quote, cs.drop (inside + 3))

/-- The rest of a text in double quotes, one or three (`long`).  A long text may go on over lines, and a backslash at
the end of a line takes the blanks and line breaks that follow with it, which `trim` keeps in mind. -/
def basicText? (long trim : Bool) : List Char → Option (List Char × List Char)
  | [] => none
  | '"' :: cs =>
    if !long then some ([], cs)
    else match longEnd? '"' ('"' :: cs) with
      | some ending => some ending
      | none => prepend '"' (basicText? long false cs)
  | '\\' :: 'u' :: a :: b :: c :: d :: cs => do prepend (← codePoint? [a, b, c, d]) (basicText? long false cs)
  | '\\' :: 'U' :: a :: b :: c :: d :: e :: f :: g :: h :: cs => do
    prepend (← codePoint? [a, b, c, d, e, f, g, h]) (basicText? long false cs)
  | '\\' :: c :: cs =>
    if long && (lineBreak? (skipBlanks (c :: cs))).isSome then basicText? long true (c :: cs)
    else if c = '/' then none
    else do prepend (← escaped? c) (basicText? long false cs)
  | '\r' :: '\n' :: cs =>
    if !long then none
    else if trim then basicText? long true cs
    else prepend '\n' (basicText? long false cs)
  | c :: cs =>
    if trim && (isBlank c || c == '\n') then basicText? long true cs
    else if isVisible c || (long && c == '\n') then prepend c (basicText? long false cs)
    else none

/-- The rest of a text in single quotes, one or three (`long`). -/
def literalText? (long : Bool) : List Char → Option (List Char × List Char)
  | [] => none
  | '\x27' :: cs =>
    if !long then some ([], cs)
    else match longEnd? '\x27' ('\x27' :: cs) with
      | some ending => some ending
      | none => prepend '\x27' (literalText? long cs)
  | '\r' :: '\n' :: cs => if long then prepend '\n' (literalText? long cs) else none
  | c :: cs => if isVisible c || (long && c == '\n') then prepend c (literalText? long cs) else none

def skipLineBreak (cs : List Char) : List Char := (lineBreak? cs).getD cs

/-- **A text in quotes.** -/
def text? (cs : List Char) : Option (String × List Char) :=
  (match cs with
  | '"' :: '"' :: '"' :: cs => basicText? true false (skipLineBreak cs)
  | '"' :: cs => basicText? false false cs
  | '\x27' :: '\x27' :: '\x27' :: cs => literalText? true (skipLineBreak cs)
  | '\x27' :: cs => literalText? false cs
  | _ => none).map fun (text, rest) => (String.ofList text, rest)

/-! ## Keys -/

/-- A key: a text in quotes on its line, or letters, digits, dashes and underscores. -/
def key? : List Char → Option (String × List Char)
  | '"' :: cs => (basicText? false false cs).map fun (name, rest) => (String.ofList name, rest)
  | '\x27' :: cs => (literalText? false cs).map fun (name, rest) => (String.ofList name, rest)
  | cs =>
    match cs.span fun c => c.isAlphanum || c == '-' || c == '_' with
    | ([], _) => none
    | (name, rest) => some (String.ofList name, rest)

/-- Keys with points between them, `fuel` of them at most, and what follows them and the blanks after them. -/
def keys? : Nat → List Char → Option (List String × List Char)
  | 0, _ => none
  | fuel + 1, cs => do
    let (key, rest) ← key? (skipBlanks cs)
    match skipBlanks rest with
    | '.' :: more =>
      let (keys, rest) ← keys? fuel more
      return (key :: keys, rest)
    | rest => return ([key], rest)

def maxNesting : Nat := 79

/-- **The path that a dotted key is.** -/
def path? (cs : List Char) : Option (List String × List Char) := keys? maxNesting cs

end Toml
end Schemata
