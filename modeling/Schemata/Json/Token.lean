import Schemata.Json.Numeral
/-!
# Tokens of JSON text

Text is scanned character by character.  The scanner is in one of a few modes, and a character ends tokens or changes
the mode (`Mode.step`); runs of letters, digits and signs are collected and classified when they end.

A string may spell surrogates that do not pair up.  It is then scanned like any other, but it has no text.
-/
namespace Schemata

/-- A token of JSON text. -/
inductive Token where
  | openArray | closeArray | openObject | closeObject | comma | colon
  | null
  | boolean (value : Bool)
  | number (numeral : Numeral)
  /-- A string; none when it spells a lone surrogate. -/
  | string (text : Option String)

/-! ## Strings -/

/-- What stands in a string: a character, or a code unit spelled in hexadecimal. -/
inductive Piece where
  | char (c : Char)
  | unit (value : Nat)

/-- The characters that pieces spell; two units may make one character. -/
def Piece.chars? : List Piece → Option (List Char)
  | [] => some []
  | .char c :: rest => (Piece.chars? rest).map (c :: ·)
  | .unit high :: .unit low :: rest =>
    if 0xD800 ≤ high ∧ high < 0xDC00 then
      if 0xDC00 ≤ low ∧ low < 0xE000 then
        (Piece.chars? rest).map (Char.ofNat (0x10000 + (high - 0xD800) * 0x400 + (low - 0xDC00)) :: ·)
      else none
    else if 0xDC00 ≤ high ∧ high < 0xE000 then none
    else (Piece.chars? (.unit low :: rest)).map (Char.ofNat high :: ·)
  | .unit value :: rest =>
    if 0xD800 ≤ value ∧ value < 0xE000 then none else (Piece.chars? rest).map (Char.ofNat value :: ·)

def Token.ofPieces (pieces : List Piece) : Token := .string ((Piece.chars? pieces).map String.ofList)

/-- The character that a letter after a backslash stands for. -/
def escaped? (c : Char) : Option Char :=
  if c = '"' ∨ c = '\\' ∨ c = '/' then some c
  else if c = 'b' then some '\x08'
  else if c = 'f' then some '\x0c'
  else if c = 'n' then some '\n'
  else if c = 'r' then some '\r'
  else if c = 't' then some '\t'
  else none

def hexValue? (c : Char) : Option Nat :=
  if '0' ≤ c ∧ c ≤ '9' then some (c.toNat - '0'.toNat)
  else if 'a' ≤ c ∧ c ≤ 'f' then some (c.toNat - 'a'.toNat + 10)
  else if 'A' ≤ c ∧ c ≤ 'F' then some (c.toNat - 'A'.toNat + 10)
  else none

/-! ## Scanning -/

/-- What a scanner is in the middle of; what it has collected stands backwards. -/
inductive Mode where
  | between
  /-- A run of letters, digits and signs. -/
  | run (chars : List Char)
  | string (pieces : List Piece)
  | escape (pieces : List Piece)
  /-- A code unit with `count` digits so far. -/
  | hex (pieces : List Piece) (value count : Nat)

def isRunChar (c : Char) : Bool := c.isAlphanum || c == '-' || c == '+' || c == '.'

def Token.ofRun? (cs : List Char) : Option Token :=
  if cs = ['n', 'u', 'l', 'l'] then some .null
  else if cs = ['t', 'r', 'u', 'e'] then some (.boolean true)
  else if cs = ['f', 'a', 'l', 's', 'e'] then some (.boolean false)
  else (Numeral.ofChars? cs).map .number

namespace Mode

/-- A character between tokens: the token that it is, if any, and the mode after it. -/
def start? (c : Char) : Option (List Token × Mode) :=
  if c = ' ' ∨ c = '\n' ∨ c = '\t' ∨ c = '\r' then some ([], .between)
  else if c = '"' then some ([], .string [])
  else if c = '[' then some ([.openArray], .between)
  else if c = ']' then some ([.closeArray], .between)
  else if c = '\x7b' then some ([.openObject], .between)
  else if c = '\x7d' then some ([.closeObject], .between)
  else if c = ',' then some ([.comma], .between)
  else if c = ':' then some ([.colon], .between)
  else if isRunChar c then some ([], .run [c])
  else none

/-- **One character**: the tokens that it ends, and the mode after it. -/
def step? : Mode → Char → Option (List Token × Mode)
  | .between, c => start? c
  | .run chars, c =>
    if isRunChar c then some ([], .run (c :: chars))
    else do
      let token ← Token.ofRun? chars.reverse
      let (tokens, mode) ← start? c
      return (token :: tokens, mode)
  | .string pieces, c =>
    if c = '"' then some ([.ofPieces pieces.reverse], .between)
    else if c = '\\' then some ([], .escape pieces)
    else if c < ' ' then none
    else some ([], .string (.char c :: pieces))
  | .escape pieces, c =>
    if c = 'u' then some ([], .hex pieces 0 0)
    else (escaped? c).map fun e => ([], .string (.char e :: pieces))
  | .hex pieces value count, c =>
    (hexValue? c).map fun digit =>
      let value := value * 16 + digit
      if count = 3 then ([], .string (.unit value :: pieces)) else ([], .hex pieces value (count + 1))

/-- The end of the text: the token that it ends. -/
def finish? : Mode → Option (List Token)
  | .between => some []
  | .run chars => (Token.ofRun? chars.reverse).map ([·])
  | _ => none

def scan? (mode : Mode) : List Char → Option (List Token)
  | [] => mode.finish?
  | c :: cs => do
    let (tokens, next) ← mode.step? c
    return tokens ++ (← next.scan? cs)

end Mode

/-- **The tokens of a text.** -/
def Token.ofText? (text : String) : Option (List Token) := Mode.between.scan? text.toList

end Schemata
