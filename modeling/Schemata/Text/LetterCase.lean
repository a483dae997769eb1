import Schemata.Text.CaseTables
/-!
# Letter case

Upper and lower case of texts in full: a letter may become several, and a capital sigma at the end of a word has a
lower form of its own.  The tables of `CaseTables` give the letters; ASCII is answered by arithmetic.
-/
namespace Schemata

/-! ## Single characters -/

def ShiftRuns.shiftOf? (runs : ShiftRuns) (n : Nat) : Option Int :=
  (runs.find? fun (first, last, step, _) => first ≤ n && n ≤ last && (n - first) % step == 0).map (·.2.2.2)

/-- The image of a character under a table of expansions and a table of runs. -/
def mapCase (expansions : List (Nat × List Nat)) (runs : ShiftRuns) (c : Char) : List Char :=
  match expansions.lookup c.toNat with
  | some image => image.map Char.ofNat
  | none =>
    match runs.shiftOf? c.toNat with
    | some shift => [Char.ofNat (c.toNat + shift).toNat]
    | none => [c]

def upperChar (c : Char) : List Char :=
  if c.toNat < 128 then [c.toUpper] else mapCase upperExpansions upperRuns c

/-- A character in lower case, apart from its neighbours. -/
def lowerChar (c : Char) : List Char :=
  if c.toNat < 128 then [c.toLower] else mapCase lowerExpansions lowerRuns c

/-! ## Texts -/

/-- Whether the first character that case rules do not look through is a letter with case. -/
def startsCased (cs : List Char) : Bool :=
  match cs.dropWhile caseIgnorable.has with
  | [] => false
  | c :: _ => casedLetter.has c

/-- Lower case of the rest of a text; `before` is what stands before it, backwards. -/
def lowerAfter (before : List Char) : List Char → List Char
  | [] => []
  | c :: cs =>
    (if c = 'Σ' then [if startsCased before && !startsCased cs then 'ς' else 'σ'] else lowerChar c)
      ++ lowerAfter (c :: before) cs

/-- How a text changes case. -/
inductive LetterCase where
  | upper
  | lower
  /-- The first character in upper case. -/
  | capital
  /-- The first character in lower case. -/
  | uncapital
  deriving DecidableEq, Repr

namespace LetterCase

def applyChars : LetterCase → List Char → List Char
  | .upper, cs => cs.flatMap upperChar
  | .lower, cs => lowerAfter [] cs
  | _, [] => []
  | .capital, c :: cs => upperChar c ++ cs
  | .uncapital, c :: cs => lowerChar c ++ cs

def apply (letterCase : LetterCase) (text : String) : String := String.ofList (letterCase.applyChars text.toList)

end LetterCase
end Schemata
