import Schemata.Text.Unprintable
import Schemata.Text.GraphemeExtend
/-!
# Quoted text

A text between double quotes in which every character can be seen: quotes and backslashes are escaped, and so is what
does not print by itself.
-/
namespace Schemata

/-- Letters without a shape of their own: the fillers of Hangul syllables. -/
def blankLetter : Ranges := [(0x115F, 0x1160), (0x3164, 0x3164), (0xFFA0, 0xFFA0)]

/-- Marks that extend the character before them and still have a cell of their own: the halfwidth voicing marks. -/
def spacedMark : Ranges := [(0xFF9E, 0xFF9F)]

/-- **Whether a character can be seen by itself**: it prints, it has a shape, and it does not run into the one before
it. -/
def standsAlone (c : Char) : Bool :=
  !unprintable.has c && !blankLetter.has c && (!graphemeExtend.has c || spacedMark.has c)

/-- The characters that stand for one character inside quotes. -/
def quoteChar (c : Char) : List Char :=
  if c = '"' then ['\\', '"']
  else if c = '\\' then ['\\', '\\']
  else if c = '\t' then ['\\', 't']
  else if c = '\n' then ['\\', 'n']
  else if c = '\r' then ['\\', 'r']
  else if c.toNat = 0 then ['\\', '0']
  else if (' ' ≤ c && c ≤ '~') || standsAlone c then [c]
  else ['\\', 'u', '\x7b'] ++ Nat.toDigits 16 c.toNat ++ ['\x7d']

/-- **A text in double quotes**, every character of it visible. -/
def quoted (text : String) : String := "\"" ++ String.ofList (text.toList.flatMap quoteChar) ++ "\""

end Schemata
