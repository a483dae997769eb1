import Schemata.Json.Value
import Schemata.Number.Decimal
/-!
# Writing JSON

`Json.render format` writes a value, compactly or with one item or member a line.  Text is as it is, but for quotes,
backslashes and control characters.
-/
namespace Schemata

/-- How JSON is laid out. -/
inductive Format where
  /-- One item or member a line, two more blanks for each level. -/
  | pretty
  /-- No blanks. -/
  | compact
  deriving DecidableEq, Repr

namespace Format

def lineStart : Format → Nat → List Char
  | .pretty, level => '\n' :: List.replicate (2 * level) ' '
  | .compact, _ => []

def colon : Format → List Char
  | .pretty => [':', ' ']
  | .compact => [':']

end Format

def escapeChar (c : Char) : List Char :=
  if c = '"' then ['\\', '"']
  else if c = '\\' then ['\\', '\\']
  else if c = '\x08' then ['\\', 'b']
  else if c = '\x0c' then ['\\', 'f']
  else if c = '\n' then ['\\', 'n']
  else if c = '\r' then ['\\', 'r']
  else if c = '\t' then ['\\', 't']
  else if c < ' ' then ['\\', 'u', '0', '0', Nat.digitChar (c.toNat / 16), Nat.digitChar (c.toNat % 16)]
  else [c]

def stringChars (text : String) : List Char := '"' :: (text.toList.flatMap escapeChar ++ ['"'])

namespace Json

mutual
def chars (format : Format) (level : Nat) : Json → List Char
  | .null => ['n', 'u', 'l', 'l']
  | .boolean true => ['t', 'r', 'u', 'e']
  | .boolean false => ['f', 'a', 'l', 's', 'e']
  | .integer i => (toString i.value).toList
  | .number x => x.toStored.toList
  | .string text => stringChars text
  | .array [] => ['[', ']']
  | .array (x :: xs) =>
    '[' :: (format.lineStart (level + 1) ++ chars format (level + 1) x ++ itemsChars format level xs)
  | .object [] => ['\x7b', '\x7d']
  | .object ((name, x) :: rest) =>
    '\x7b' :: (format.lineStart (level + 1) ++ stringChars name ++ format.colon ++ chars format (level + 1) x
      ++ fieldsChars format level rest)

/-- The characters of further items and of the end of an array. -/
def itemsChars (format : Format) (level : Nat) : List Json → List Char
  | [] => format.lineStart level ++ [']']
  | x :: xs => ',' :: (format.lineStart (level + 1) ++ chars format (level + 1) x ++ itemsChars format level xs)

/-- The characters of further fields and of the end of an object. -/
def fieldsChars (format : Format) (level : Nat) : List (String × Json) → List Char
  | [] => format.lineStart level ++ ['\x7d']
  | (name, x) :: rest =>
    ',' :: (format.lineStart (level + 1) ++ stringChars name ++ format.colon ++ chars format (level + 1) x
      ++ fieldsChars format level rest)
end

/-- **The text of a value.** -/
def render (format : Format) (j : Json) : String := String.ofList (j.chars format 0)

end Json
end Schemata
