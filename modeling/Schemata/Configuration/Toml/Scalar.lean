import Schemata.Configuration.Entry
import Schemata.Configuration.Toml.Text
/-!
# Numbers, truth values and dates of TOML

What stands without quotes: truth values, integers in four bases, numbers with a fraction or an exponent, dates and
times.  Underscores may group digits.  Dates and times are checked and kept as they are spelled.
-/
namespace Schemata
namespace Toml

/-! ## Numbers -/

def ungroup? (isDigit : Char → Bool) : List Char → Option (List Char)
  | [] => none
  | [c] => if isDigit c then some [c] else none
  | c :: '_' :: cs => if isDigit c then (ungroup? isDigit cs).map (c :: ·) else none
  | c :: cs => if isDigit c then (ungroup? isDigit cs).map (c :: ·) else none

/-- An integer, if 64 bits hold it. -/
def integer? (i : Int) : Option Entry := if -(Nat.pow 2 63 : Int) ≤ i ∧ i < Nat.pow 2 63 then some (.integer i) else none

def based? (base : Nat) (cs : List Char) : Option Entry := do
  let digits ← ungroup? (fun c => (hexValue? c).any (· < base)) cs
  integer? (digits.foldl (fun value c => value * base + (hexValue? c).getD 0) 0 : Nat)

/-- A decimal integer without a sign, as digits; no zero stands before others. -/
def whole? (cs : List Char) : Option (List Char) := do
  let digits ← ungroup? Char.isDigit cs
  if digits.length ≠ 1 ∧ digits.head? = some '0' then none else some digits

/-- A number with a fraction or an exponent, without a sign; it may be too small but not too large for a double. -/
def decimal? (negative : Bool) (cs : List Char) : Option Entry := do
  let (whole, rest) := cs.span fun c => c.isDigit || c == '_'
  let whole ← whole? whole
  let (fraction, rest) ← match rest with
    | '.' :: rest =>
      let (fraction, rest) := rest.span fun c => c.isDigit || c == '_'
      (ungroup? Char.isDigit fraction).map fun digits => ('.' :: digits, rest)
    | rest => some ([], rest)
  let exponent ← match rest with
    | [] => some []
    | c :: rest =>
      let (below, digits) := splitSign rest
      if c = 'e' ∨ c = 'E' then
        (ungroup? Char.isDigit digits).map fun digits => 'e' :: (if below then '-' :: digits else digits)
      else none
  let x ← Number.ofText? (String.ofList ((if negative then ['-'] else []) ++ whole ++ fraction ++ exponent))
  if x = .infinite false then none else some (.decimal x)

def plain? (cs : List Char) : Option Entry :=
  match cs with
  | ['t', 'r', 'u', 'e'] => some (.boolean true)
  | ['f', 'a', 'l', 's', 'e'] => some (.boolean false)
  | '0' :: 'x' :: digits => based? 16 digits
  | '0' :: 'o' :: digits => based? 8 digits
  | '0' :: 'b' :: digits => based? 2 digits
  | cs =>
    let (negative, digits) := splitSign cs
    if digits = ['i', 'n', 'f'] then some (.decimal (.infinite negative))
    else if digits = ['n', 'a', 'n'] then some (.decimal .nan)
    else
      match whole? digits with
      | some digits => integer? (if negative then -digitsValue 0 digits else digitsValue 0 digits)
      | none => decimal? negative digits

/-! ## Dates and times -/

/-- A number of exactly `width` digits from `low` to `high`, and what follows it. -/
def field? (width low high : Nat) (cs : List Char) : Option (Nat × List Char) :=
  let digits := cs.take width
  let value := digitsValue 0 digits
  if digits.length = width ∧ digits.all Char.isDigit ∧ low ≤ value ∧ value ≤ high then some (value, cs.drop width)
  else none

def daysIn (year month : Nat) : Nat :=
  if month = 2 then if year % 4 = 0 ∧ (year % 100 ≠ 0 ∨ year % 400 = 0) then 29 else 28
  else if [4, 6, 9, 11].contains month then 30
  else 31

def after? (wanted : Char) : List Char → Option (List Char)
  | c :: cs => if c = wanted then some cs else none
  | [] => none

def date? (cs : List Char) : Option (List Char) := do
  let (year, cs) ← field? 4 0 9999 cs
  let (month, cs) ← field? 2 1 12 (← after? '-' cs)
  let (_, cs) ← field? 2 1 (daysIn year month) (← after? '-' cs)
  return cs

/-- What follows a time of day; a minute may have a leap second. -/
def time? (cs : List Char) : Option (List Char) := do
  let (_, cs) ← field? 2 0 23 cs
  let (_, cs) ← field? 2 0 59 (← after? ':' cs)
  let (_, cs) ← field? 2 0 60 (← after? ':' cs)
  match cs with
  | '.' :: cs => if (cs.takeWhile Char.isDigit).isEmpty then none else some (cs.dropWhile Char.isDigit)
  | cs => some cs

/-- Whether characters are the offset of a time, or nothing. -/
def isOffset : List Char → Bool
  | [] | ['Z'] | ['z'] => true
  | sign :: cs =>
    (sign == '+' || sign == '-') && ((do
      let (_, cs) ← field? 2 0 23 cs
      let (_, cs) ← field? 2 0 59 (← after? ':' cs)
      return cs.isEmpty) == some true)

/-- Whether characters are a time with an offset, if any. -/
def isZonedTime (cs : List Char) : Bool := (time? cs).any isOffset

/-! ## Scalars -/

def endsScalar (c : Char) : Bool := isBlank c || [',', ']', '\x7d', '#', '\n', '\r'].contains c

/-- **What stands without quotes.**  Between a date and a time may be one space. -/
def scalar? (cs : List Char) : Option (Entry × List Char) :=
  let (spelling, rest) := cs.span fun c => !endsScalar c
  let moment := (Entry.text (String.ofList spelling), rest)
  match plain? spelling with
  | some entry => some (entry, rest)
  | none =>
    if time? spelling = some [] then some moment
    else
      match date? spelling, rest with
      | some [], ' ' :: more =>
        let (time, rest) := more.span fun c => !endsScalar c
        some (if isZonedTime time then (.text (String.ofList (spelling ++ ' ' :: time)), rest) else moment)
      | some [], _ => some moment
      | some (mark :: time), _ => if (mark = 'T' ∨ mark = 't') ∧ isZonedTime time then some moment else none
      | none, _ => none

end Toml
end Schemata
