/-!
# Numbers

A number is an IEEE 754 double, kept as a sign, a mantissa and a power of two: comparing, rounding and printing are
exact arithmetic on `Nat` and `Int`, and no machine float occurs.

- `Magnitude.nearest?` rounds a quotient to the nearest double, ties to even.  It is the only place where precision is
  lost; `none` means that the quotient lies beyond the finite doubles.
- `Number.sameAs` is IEEE equality: the two zeros agree, and NaN differs from itself.
-/
namespace Schemata

/-! ## Magnitudes -/

/-- **The doubles have one form each**: 53 significant bits, fewer only at the least exponent. -/
def Canonical (mantissa : Nat) (exponent : Int) : Prop :=
  mantissa < Nat.pow 2 53 ∧ -1074 ≤ exponent ∧ exponent ≤ 971 ∧ (Nat.pow 2 52 ≤ mantissa ∨ exponent = -1074)

instance (mantissa : Nat) (exponent : Int) : Decidable (Canonical mantissa exponent) := by
  unfold Canonical; infer_instance

/-- **A finite nonnegative double**, `mantissa * 2 ^ exponent`. -/
structure Magnitude where
  mantissa : Nat
  exponent : Int
  canonical : Canonical mantissa exponent
  deriving DecidableEq

/-- `n / d` to the nearest whole number, a half to the even neighbour. -/
def roundDiv (n d : Nat) : Nat :=
  if 2 * (n % d) < d ∨ (2 * (n % d) = d ∧ n / d % 2 = 0) then n / d else n / d + 1

/-- The quotient `n / d` divided by `2 ^ e`, again as a quotient of naturals. -/
def scaleDown (n d : Nat) (e : Int) : Nat × Nat :=
  if 0 ≤ e then (n, d * Nat.pow 2 e.toNat) else (n * Nat.pow 2 (-e).toNat, d)

/-- The greatest `k` with `2 ^ k ≤ n / d`, for positive `n` and `d`. -/
def log2Ratio (n d : Nat) : Int :=
  let k : Int := (n.log2 : Int) - d.log2
  let (p, q) := scaleDown n d k
  if p < q then k - 1 else k

namespace Magnitude

def zero : Magnitude := ⟨0, -1074, by decide⟩

/-- The magnitude of a mantissa and an exponent in the one form that doubles have. -/
def ofParts? (mantissa : Nat) (exponent : Int) : Option Magnitude :=
  if h : Canonical mantissa exponent then some ⟨mantissa, exponent, h⟩ else none

/-- **The double nearest to `n / d`**, ties to the one with an even last bit; none past the greatest. -/
def nearest? (n d : Nat) : Option Magnitude :=
  if n = 0 then some zero
  else
    let exponent := max (log2Ratio n d - 52) (-1074)
    let (p, q) := scaleDown n d exponent
    let mantissa := roundDiv p q
    if mantissa = Nat.pow 2 53 then ofParts? (Nat.pow 2 52) (exponent + 1) else ofParts? mantissa exponent

def ratio (m : Magnitude) : Nat × Nat := scaleDown m.mantissa 1 (-m.exponent)

end Magnitude

/-! ## Numbers -/

/-- An IEEE 754 double. -/
inductive Number where
  | nan
  | infinite (negative : Bool)
  | finite (negative : Bool) (magnitude : Magnitude)
  deriving DecidableEq

namespace Number

/-- The number nearest to `± n / d`; an infinity past the greatest finite one. -/
def ofRatio (negative : Bool) (n d : Nat) : Number :=
  match Magnitude.nearest? n d with
  | some m => .finite negative m
  | none => .infinite negative

def ofNat (n : Nat) : Number := ofRatio false n 1

def ofInt (i : Int) : Number := ofRatio (decide (i < 0)) i.natAbs 1

/-- **IEEE equality**: `0` equals `-0`, and NaN equals nothing. -/
def sameAs : Number → Number → Bool
  | .infinite s, .infinite t => s == t
  | .finite s m, .finite t n =>
    m.mantissa == n.mantissa && m.exponent == n.exponent && (s == t || m.mantissa == 0)
  | _, _ => false

instance : BEq Number := ⟨sameAs⟩

def isFinite : Number → Bool
  | .finite .. => true
  | _ => false

def isWhole : Number → Bool
  | .finite _ m => m.mantissa == 0 || 0 ≤ m.exponent || m.mantissa % Nat.pow 2 (-m.exponent).toNat == 0
  | _ => false

/-- The natural number that a whole number stands for, unless it is below zero. -/
def toNat? (x : Number) : Option Nat :=
  match x with
  | .finite negative m =>
    if x.isWhole && (!negative || m.mantissa == 0) then some (m.ratio.1 / m.ratio.2) else none
  | _ => none

/-- The quotient of `x` by `d`, or its product with `n`, rounded once: `x * n / d`.  Infinities and NaN stay. -/
def scale (x : Number) (n d : Nat) : Number :=
  match x with
  | .finite negative m => ofRatio negative (m.ratio.1 * n) (m.ratio.2 * d)
  | x => x

end Number
end Schemata
