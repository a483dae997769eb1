import Schemata.Json.Value
import Schemata.Number.Decimal
/-!
# Numerals

A numeral is a number as a document spells it.  Without a fraction and an exponent it is an integer, as long as 64 bits
hold it.  Otherwise it is read the quick way: as many digits as 64 bits hold, then one multiplication or division of
doubles by a power of ten.  So it may differ in the last bit from the nearest double.
-/
namespace Schemata

/-- **A number as it is spelled.** -/
structure Numeral where
  negative : Bool
  whole : List Char
  fraction : List Char
  /-- The sign and the digits of the exponent. -/
  exponent : Option (Bool × List Char)

namespace Numeral

/-! ## Spelling -/

/-- Whether digits can stand before the point: at least one, and no zero before others. -/
def isWholePart : List Char → Bool
  | [] => false
  | '0' :: _ :: _ => false
  | _ => true

/-- Reads what follows the digits before the point up to the exponent. -/
def fraction? : List Char → Option (List Char × List Char)
  | '.' :: cs =>
    let (digits, rest) := splitDigits cs
    if digits.isEmpty then none else some (digits, rest)
  | cs => some ([], cs)

/-- Reads the exponent, which ends the numeral. -/
def exponent? : List Char → Option (Option (Bool × List Char))
  | [] => some none
  | c :: cs =>
    let (negative, digits) := splitSign cs
    if (c = 'e' ∨ c = 'E') ∧ !digits.isEmpty ∧ digits.all Char.isDigit then some (some (negative, digits)) else none

/-- **Reads a numeral.** -/
def ofChars? (cs : List Char) : Option Numeral := do
  let (negative, cs) := match cs with
    | '-' :: rest => (true, rest)
    | cs => (false, cs)
  let (whole, cs) := splitDigits cs
  if !isWholePart whole then none
  let (fraction, cs) ← fraction? cs
  let exponent ← exponent? cs
  return { negative, whole, fraction, exponent }

/-! ## Doubles the quick way -/

/-- Digits read on after `value` as long as 64 bits hold the result, and the digits left over. -/
def accumulate (value : Nat) : List Char → Nat × List Char
  | [] => (value, [])
  | c :: cs =>
    let next := digitsValue value [c]
    if next < Nat.pow 2 64 then accumulate next cs else (value, c :: cs)

/-- The double nearest to a power of ten, as a quotient. -/
def powerOfTen (k : Nat) : Nat × Nat := ((Magnitude.nearest? (Nat.pow 10 k) 1).getD .zero).ratio

/-- A double divided by a power of ten, by at most `1e308` at a time. -/
def shrink (x : Number) (k : Nat) : Number :=
  if k ≤ 308 then x.scale (powerOfTen k).2 (powerOfTen k).1
  else if x == .finite false .zero then x
  else shrink (x.scale (powerOfTen 308).2 (powerOfTen 308).1) (k - 308)
termination_by k

/-- The double for `± significand * 10 ^ exponent`; none past the greatest. -/
def ofSignificand? (negative : Bool) (significand : Nat) (exponent : Int) : Option Number :=
  let x := Number.ofRatio negative significand 1
  if exponent < 0 then some (shrink x (-exponent).toNat)
  else if significand = 0 then some x
  else if 308 < exponent then none
  else
    let y := x.scale (powerOfTen exponent.toNat).1 (powerOfTen exponent.toNat).2
    if y.isFinite then some y else none

/-- **The double that a numeral stands for.**  An exponent that 32 bits do not hold gives zero, or no double. -/
def toNumber? (n : Numeral) : Option Number :=
  let (value, excess) := accumulate 0 n.whole
  let (significand, dropped) := accumulate value n.fraction
  let point : Int := excess.length + dropped.length - n.fraction.length
  match n.exponent with
  | none => ofSignificand? n.negative significand point
  | some (negative, digits) =>
    let e := digitsValue 0 digits
    if e < Nat.pow 2 31 then ofSignificand? n.negative significand (if negative then point - e else point + e)
    else if negative || significand == 0 then some (.finite n.negative .zero)
    else none

/-! ## Values -/

/-- The integer that a numeral stands for; minus zero is none. -/
def toInteger? (n : Numeral) : Option WideInteger :=
  let value : Int := digitsValue 0 n.whole
  if !n.fraction.isEmpty || n.exponent.isSome || (n.negative && value == 0) then none
  else WideInteger.ofInt? (if n.negative then -value else value)

/-- **The value of a numeral.** -/
def toJson? (n : Numeral) : Option Json :=
  match n.toInteger? with
  | some i => some (.integer i)
  | none => n.toNumber?.map .number

end Numeral
end Schemata
