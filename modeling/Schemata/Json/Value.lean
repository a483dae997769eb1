import Schemata.Number.Basic
/-!
# JSON values

The values that annotations hold and that documents are written from.  Numbers without a fraction or exponent are
kept as integers of 64 bits, all others as doubles, and the two kinds are never equal.  `Annotations` are kept in the
order of their names, so equal annotations are equal lists.
-/
namespace Schemata

/-- An integer that fits 64 bits, with or without a sign. -/
structure WideInteger where
  value : Int
  fits : -(Nat.pow 2 63 : Int) ≤ value ∧ value < Nat.pow 2 64
  deriving DecidableEq

/-- The integer, if it fits. -/
def WideInteger.ofInt? (i : Int) : Option WideInteger :=
  if h : -(Nat.pow 2 63 : Int) ≤ i ∧ i < Nat.pow 2 64 then some ⟨i, h⟩ else none

/-- A JSON value. -/
inductive Json where
  | null
  | boolean (value : Bool)
  | integer (value : WideInteger)
  | number (value : Number)
  | string (text : String)
  | array (items : List Json)
  | object (fields : List (String × Json))
  deriving Inhabited

namespace Json

mutual
/-- Equality of values; numbers compare as doubles do. -/
def sameAs : Json → Json → Bool
  | .null, .null => true
  | .boolean a, .boolean b => a == b
  | .integer a, .integer b => a == b
  | .number a, .number b => a == b
  | .string a, .string b => a == b
  | .array xs, .array ys => sameItems xs ys
  | .object fs, .object gs => sameFields fs gs
  | _, _ => false

def sameItems : List Json → List Json → Bool
  | [], [] => true
  | x :: xs, y :: ys => sameAs x y && sameItems xs ys
  | _, _ => false

/-- Equality field by field, in order. -/
def sameFields : List (String × Json) → List (String × Json) → Bool
  | [], [] => true
  | (n, x) :: xs, (m, y) :: ys => n == m && sameAs x y && sameFields xs ys
  | _, _ => false
end

instance : BEq Json := ⟨sameAs⟩

end Json

/-! ## Annotations -/

/-- Metadata of a node: values by name, in the order of the names. -/
abbrev Annotations := List (String × Json)

namespace Annotations

/-- Binds a name, at its place in the order. -/
def insert : Annotations → String → Json → Annotations
  | [], name, value => [(name, value)]
  | (old, kept) :: rest, name, value =>
    if name = old then (name, value) :: rest
    else if name < old then (name, value) :: (old, kept) :: rest
    else (old, kept) :: insert rest name value

/-- Every annotation of `upper` bound over those of `annotations`. -/
def override (annotations upper : Annotations) : Annotations :=
  upper.foldl (fun acc e => insert acc e.1 e.2) annotations

/-- The annotations of a list in any order, a repeated name with its last value. -/
def ofList (entries : List (String × Json)) : Annotations := override [] entries

def Sorted (annotations : Annotations) : Prop := (annotations.map Prod.fst).Pairwise (· < ·)

def sameAs (a b : Annotations) : Bool := Json.sameFields a b

end Annotations
end Schemata
