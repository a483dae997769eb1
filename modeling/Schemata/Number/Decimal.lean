import Schemata.Number.Basic
/-!
# Decimal text of numbers

Reading and writing a number in base ten.

- `Number.ofText?` reads the free form: an optional sign, digits with an optional point, an optional exponent, or the
  names of the infinities and of NaN in any case.  The result is the double nearest to what is written.
- `Decimal.shortest` finds the fewest digits that `Decimal.nearest?` reads back.  Of two such decimals the nearer one
  counts, and where both are as near a `Tie` decides.
- `Layout.render` lays digits out.  `Layout.plain` never uses an exponent; `Layout.stored` keeps a point and changes to
  an exponent outside of `1e-5 ≤ x < 1e16`.
-/
namespace Schemata

/-! ## Decimals -/

/-- The decimal `digits * 10 ^ exponent`. -/
structure Decimal where
  digits : Nat
  exponent : Int
  deriving DecidableEq, Repr

/-- The digits of a natural number in base ten, most significant first. -/
def digitChars (n : Nat) : List Char := Nat.toDigits 10 n

/-- The value of decimal digits read on after `acc`. -/
def digitsValue (acc : Nat) : List Char → Nat
  | [] => acc
  | c :: cs => digitsValue (acc * 10 + (c.toNat - '0'.toNat)) cs

namespace Decimal

def ratio (d : Decimal) : Nat × Nat :=
  if 0 ≤ d.exponent then (d.digits * Nat.pow 10 d.exponent.toNat, 1) else (d.digits, Nat.pow 10 (-d.exponent).toNat)

/-- How far the decimal reaches to the left of the point: below `10 ^ reach`. -/
def reach (d : Decimal) : Int := (digitChars d.digits).length + d.exponent

/-- **The magnitude nearest to a decimal**; none past the greatest.  What lies far outside of the doubles is answered
without computing the power of ten. -/
def nearest? (d : Decimal) : Option Magnitude :=
  if d.digits = 0 ∨ d.reach < -400 then some .zero
  else if 400 < d.reach then none
  else Magnitude.nearest? d.ratio.1 d.ratio.2

/-- The same decimal without trailing zeros, `fuel` of them at most. -/
def strip : Nat → Decimal → Decimal
  | 0, d => d
  | fuel + 1, d =>
    if d.digits ≠ 0 ∧ d.digits % 10 = 0 then strip fuel ⟨d.digits / 10, d.exponent + 1⟩ else d

/-! ## The fewest digits that read back -/

/-- Which of two neighbours a number halfway between them goes to. -/
inductive Tie where
  /-- The one further from zero. -/
  | away
  /-- The one with an even last digit. -/
  | toEven
  deriving DecidableEq, Repr

/-- Whether `n / d`, which is no whole number, goes to the whole number below it rather than to the one above. -/
def Tie.goesDown (tie : Tie) (n d : Nat) : Bool :=
  2 * (n % d) < d || (2 * (n % d) == d && tie == .toEven && n / d % 2 == 0)

/-- The neighbours of `p / q` on the grid of step `10 ^ e`, the one that it goes to first. -/
def neighbours (tie : Tie) (p q : Nat) (e : Int) : List Decimal :=
  let (n, d) := if 0 ≤ e then (p, q * Nat.pow 10 e.toNat) else (p * Nat.pow 10 (-e).toNat, q)
  if n % d = 0 then [⟨n / d, e⟩]
  else if tie.goesDown n d then [⟨n / d, e⟩, ⟨n / d + 1, e⟩]
  else [⟨n / d + 1, e⟩, ⟨n / d, e⟩]

/-- The first decimal that reads back as `m`, on grids that get finer by a digit at a time. -/
def search (tie : Tie) (m : Magnitude) : Nat → Int → Option Decimal
  | 0, _ => none
  | fuel + 1, e =>
    match (neighbours tie m.ratio.1 m.ratio.2 e).find? (fun d => d.nearest? = some m) with
    | some d => some d
    | none => search tie m fuel (e - 1)

/-- The power of ten above a positive magnitude: `10 ^ (k - 1) ≤ m < 10 ^ k`. -/
def scaleOf (m : Magnitude) : Int :=
  let (p, q) := m.ratio
  if q ≤ p then (digitChars (p / q)).length else 1 - (digitChars (q / p)).length

/-- The magnitude written out in full: every double is a decimal. -/
def exact (m : Magnitude) : Decimal :=
  if 0 ≤ m.exponent then ⟨m.ratio.1, 0⟩ else ⟨m.mantissa * Nat.pow 5 (-m.exponent).toNat, m.exponent⟩

/-- **The fewest digits that read back as `m`**, of two such decimals the nearer, of two as near the one that `tie`
takes.  Seventeen always suffice; the decimal written out in full stands behind them. -/
def shortest (tie : Tie) (m : Magnitude) : Decimal :=
  if m.mantissa = 0 then ⟨0, 0⟩
  else strip 400 ((search tie m 17 (scaleOf m - 1)).getD (exact m))

end Decimal

/-! ## Layout -/

/-- How a number becomes text: which digits it has, where positions end and exponents begin, and whether a whole number
keeps a point. -/
structure Layout where
  /-- Which of two shortest decimals is written, if both are as near. -/
  tie : Decimal.Tie
  /-- Whether a number below `10 ^ k` and not below `10 ^ (k - 1)` is written without an exponent. -/
  positional : Int → Bool
  /-- What follows the digits of a whole number. -/
  wholeEnd : String

namespace Layout

/-- As a property name or a piece of text: never an exponent, no point after a whole number; ties go away from zero. -/
def plain : Layout := ⟨.away, fun _ => true, ""⟩

/-- As stored in a document: a point always, an exponent below `1e-5` and from `1e16` on; ties go to the even digit. -/
def stored : Layout := ⟨.toEven, fun k => -4 ≤ k && k ≤ 16, ".0"⟩

/-- Zeros, `n` of them. -/
def zeros (n : Nat) : String := String.ofList (List.replicate n '0')

def renderDecimal (layout : Layout) (d : Decimal) : String :=
  let cs := digitChars d.digits
  let k := d.reach
  if d.digits = 0 then "0" ++ layout.wholeEnd
  else if layout.positional k then
    if 0 ≤ d.exponent then String.ofList cs ++ zeros d.exponent.toNat ++ layout.wholeEnd
    else if 0 < k then String.ofList (cs.take k.toNat) ++ "." ++ String.ofList (cs.drop k.toNat)
    else "0." ++ zeros (-k).toNat ++ String.ofList cs
  else
    let fraction := cs.drop 1
    let mantissa := String.ofList (cs.take 1) ++ if fraction.isEmpty then "" else "." ++ String.ofList fraction
    let power := if k - 1 < 0 then "e-" else "e+"
    mantissa ++ power ++ toString (k - 1).natAbs

def render (layout : Layout) (negative : Bool) (m : Magnitude) : String :=
  (if negative then "-" else "") ++ layout.renderDecimal (Decimal.shortest layout.tie m)

end Layout

/-- **The text of a number as a property name**: the shortest digits that read back, never with an exponent. -/
def Number.toKey : Number → String
  | .nan => "NaN"
  | .infinite false => "Infinity"
  | .infinite true => "-Infinity"
  | .finite negative m => Layout.plain.render negative m

/-- The text of a number in a stored document, which has no word for infinities and NaN. -/
def Number.toStored : Number → String
  | .finite negative m => Layout.stored.render negative m
  | _ => "null"

/-! ## Reading -/

/-- Splits a leading sign off; a minus counts as negative. -/
def splitSign : List Char → Bool × List Char
  | '-' :: cs => (true, cs)
  | '+' :: cs => (false, cs)
  | cs => (false, cs)

def splitDigits (cs : List Char) : List Char × List Char := (cs.takeWhile Char.isDigit, cs.dropWhile Char.isDigit)

/-- Reads an exponent at the very end: nothing, or `e` or `E`, a sign and digits. -/
def readExponent? : List Char → Option Int
  | [] => some 0
  | c :: cs =>
    if c = 'e' ∨ c = 'E' then
      let (negative, rest) := splitSign cs
      if rest.isEmpty || !rest.all Char.isDigit then none
      else some (if negative then -(digitsValue 0 rest : Int) else digitsValue 0 rest)
    else none

/-- Reads digits with an optional point and an optional exponent; some digit has to stand. -/
def Decimal.ofChars? (cs : List Char) : Option Decimal :=
  let (whole, rest) := splitDigits cs
  let (fraction, rest) := match rest with
    | '.' :: more => splitDigits more
    | rest => ([], rest)
  if whole.isEmpty && fraction.isEmpty then none
  else (readExponent? rest).map fun e => ⟨digitsValue 0 (whole ++ fraction), e - fraction.length⟩

/-- **Reads a number in the free form**: a sign, then `inf`, `infinity` or `nan` in any case, or a decimal, which
stands for the double nearest to it. -/
def Number.ofText? (text : String) : Option Number :=
  let (negative, cs) := splitSign text.toList
  let word := String.ofList (cs.map Char.toLower)
  if word = "inf" ∨ word = "infinity" then some (.infinite negative)
  else if word = "nan" then some .nan
  else (Decimal.ofChars? cs).map fun d =>
    match d.nearest? with
    | some m => .finite negative m
    | none => .infinite negative

/-- Whether a text is a whole number of 64 bits: an optional sign and digits, from `-2 ^ 63` to `2 ^ 63 - 1`. -/
def isInteger64 (text : String) : Bool :=
  let (negative, cs) := splitSign text.toList
  !cs.isEmpty && cs.all Char.isDigit &&
    (if negative then digitsValue 0 cs ≤ Nat.pow 2 63 else digitsValue 0 cs < Nat.pow 2 63)

end Schemata
