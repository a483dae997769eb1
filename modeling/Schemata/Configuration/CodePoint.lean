import Schemata.Json.Token
/-!
# Characters by code point

What readers of texts with escapes have in common: a character spelled by its code point, and a character put in front
of what the rest of the text reads as.
-/
namespace Schemata

def codePoint? (digits : List Char) : Option Char := do
  let value ← digits.foldlM (fun value c => (hexValue? c).map (value * 16 + ·)) 0
  if value.isValidChar then some (Char.ofNat value) else none

def prepend (c : Char) (reading : Option (List Char × List Char)) : Option (List Char × List Char) :=
  reading.map fun (text, rest) => (c :: text, rest)

end Schemata
