import Schemata.Proofs.Node.Equality
import Schemata.Proofs.Node.Parts
import Schemata.Template.Pattern
/-!
# The values of a node

`Node.Describes` gives a node the set of values that it stands for.  Only some forms have one here (`Kind.hasValues`):
primitives other than `any`, literals that are told apart as texts are, arrays, tuples, objects whose properties are all
required, unions, intersections of something, wrappers and template patterns.

Main statement: of two equal nodes, the one describes what the other does (`Node.within_of_sameKind`).
-/
namespace Schemata

open List (Forall₂)

/-! ## Values -/

/-- **What a node may describe.** -/
inductive Value where
  | null | undefined
  | string (text : String)
  | number (value : Number)
  | boolean (value : Bool)
  | bigInt (value : Int)
  | symbol (identity : Nat)
  | list (items : List Value)
  /-- A promise or an iterator, with all that it may give. -/
  | wrapped (wrapper : Wrapper) (items : List Value)
  | record (fields : List (String × Value))
  /-- Anything else: a function, say, or a value that contains itself. -/
  | other (identity : Nat)

/-- What a property of a value holds.  Records say so themselves; what others have (the length of a text, say) is given
from outside. -/
def Value.property? (builtin : Value → String → Option Value) : Value → String → Option Value
  | .record fields, name => Fields.get? fields name
  | value, name => builtin value name

/-! ## Forms with values -/

/-- Neither NaN, which equals nothing, nor minus zero, which equals another number. -/
def Number.isPlain : Number → Bool
  | .nan => false
  | .infinite _ => true
  | .finite negative m => !negative || m.mantissa != 0

def Literal.isPlain : Literal → Bool
  | .number x => x.isPlain
  | _ => true

def Node.isArray (n : Node) : Bool :=
  match n.kind with
  | .array _ => true
  | _ => false

theorem Node.isArray_iff {n : Node} : n.isArray = true ↔ ∃ item, n.kind = .array item := by
  unfold isArray
  cases n.kind <;> simp

/-- **The forms that have values here.**  The names of an object are distinct, and its properties required. -/
def Kind.hasValues : Kind Node → Bool
  | .primitive p => p != .any
  | .literal l => l.isPlain
  | .array _ | .union _ | .wrapper .. | .templatePattern _ => true
  | .tuple items rest => !rest || items.getLast?.all Node.isArray
  | .object properties => decide (properties.map Prod.fst).Nodup && properties.all fun e => !e.2.modifiers.optional
  | .intersect members => !members.isEmpty
  | _ => false

/-! ## Meaning -/

namespace Primitive

/-- The values of a primitive type; `any` is no type of values. -/
def Describes : Primitive → Value → Prop
  | .unknown, _ => True
  | .string, v => ∃ text, v = .string text
  | .number, v => ∃ x, v = .number x
  | .integer, v => ∃ x : Number, v = .number x ∧ x.isWhole = true
  | .boolean, v => ∃ b, v = .boolean b
  | .bigInt, v => ∃ i, v = .bigInt i
  | .null, v => v = .null
  | .undefined, v | .void, v => v = .undefined
  | .symbol, v => ∃ identity, v = .symbol identity
  | .any, _ | .never, _ => False

end Primitive

/-- The values that equal a literal. -/
def Literal.Describes : Literal → Value → Prop
  | .string text, v => v = .string text
  | .number x, v => ∃ y : Number, v = .number y ∧ (y == x) = true
  | .boolean b, v => v = .boolean b

namespace Node

section
variable (builtin : Value → String → Option Value)

mutual
/-- **The values that a node describes.** -/
def Describes : Node → Value → Prop
  | ⟨kind, _, _⟩, v => KindDescribes kind v

def KindDescribes : Kind Node → Value → Prop
  | .primitive p, v => p.Describes v
  | .literal l, v => l.Describes v
  | .array item, v => ∃ vs, v = .list vs ∧ ∀ x ∈ vs, Describes item x
  | .tuple items rest, v => ∃ vs, v = .list vs ∧ DescribeItems rest items vs
  | .object properties, v => v ≠ .null ∧ v ≠ .undefined ∧ DescribeProperties properties v
  | .union variants, v => SomeDescribes variants v
  | .intersect members, v => AllDescribe members v
  | .wrapper w item, v => ∃ vs, v = .wrapped w vs ∧ ∀ x ∈ vs, Describes item x
  | .templatePattern fragments, v => ∃ text, v = .string text ∧ (Pattern.ofFragments fragments).accepts text = true
  | _, _ => False

/-- Each item describes the value at its place; a rest item describes the list of all that is left. -/
def DescribeItems (rest : Bool) : List Node → List Value → Prop
  | [], vs => vs = []
  | item :: items, vs =>
    if rest = true ∧ items = [] then Describes item (.list vs)
    else ∃ x others, vs = x :: others ∧ Describes item x ∧ DescribeItems rest items others

/-- Each property is there, and is described. -/
def DescribeProperties : List (String × Node) → Value → Prop
  | [], _ => True
  | (name, n) :: rest, v => (∃ x, v.property? builtin name = some x ∧ Describes n x) ∧ DescribeProperties rest v

def SomeDescribes : List Node → Value → Prop
  | [], _ => False
  | n :: ns, v => Describes n v ∨ SomeDescribes ns v

def AllDescribe : List Node → Value → Prop
  | [], _ => True
  | n :: ns, v => Describes n v ∧ AllDescribe ns v
end
end

variable {builtin : Value → String → Option Value}

theorem describes_iff {n : Node} {v : Value} : Describes builtin n v ↔ KindDescribes builtin n.kind v := by
  obtain ⟨kind, modifiers, annotations⟩ := n
  rw [Describes]

theorem someDescribes_iff {ns : List Node} {v : Value} :
    SomeDescribes builtin ns v ↔ ∃ n ∈ ns, Describes builtin n v := by
  induction ns with
  | nil => simp [SomeDescribes]
  | cons n ns ih => simp [SomeDescribes, ih]

theorem allDescribe_iff {ns : List Node} {v : Value} :
    AllDescribe builtin ns v ↔ ∀ n ∈ ns, Describes builtin n v := by
  induction ns with
  | nil => simp [AllDescribe]
  | cons n ns ih => simp [AllDescribe, ih]

theorem describeProperties_iff {properties : Fields Node} {v : Value} :
    DescribeProperties builtin properties v ↔
      ∀ e ∈ properties, ∃ x, v.property? builtin e.1 = some x ∧ Describes builtin e.2 x := by
  induction properties with
  | nil => simp [DescribeProperties]
  | cons e properties ih => simp [DescribeProperties, ih]

/-! ## Equal nodes -/

end Node

/-- Plain numbers are equal only as one and the same. -/
theorem Number.eq_of_same {x y : Number} (hx : x.isPlain = true) (hy : y.isPlain = true) (h : (x == y) = true) :
    x = y := by
  change x.sameAs y = true at h
  cases x <;> cases y <;> first | cases h | skip
  case infinite.infinite s t => rw [eq_of_beq h]
  case finite.finite s m t n =>
    obtain ⟨mantissa, exponent, canonical⟩ := m
    obtain ⟨mantissa', exponent', canonical'⟩ := n
    simp only [sameAs, Bool.and_eq_true, Bool.or_eq_true, beq_iff_eq] at h
    obtain ⟨⟨rfl, rfl⟩, rfl | rfl⟩ := h
    · rfl
    -- A zero is plain only without the minus.
    · simp only [isPlain, bne_self_eq_false, Bool.or_false, Bool.not_eq_true'] at hx hy
      rw [hx, hy]

theorem Literal.eq_of_same {l l' : Literal} (hl : l.isPlain = true) (hl' : l'.isPlain = true) (h : (l == l') = true) :
    l = l' := by
  change l.sameAs l' = true at h
  cases l <;> cases l' <;> first | cases h | skip
  case string => rw [eq_of_beq h]
  case number => rw [Number.eq_of_same hl hl' h]
  case boolean => rw [eq_of_beq h]

namespace Node

/-- **Whether all nodes of a tree have values**, its own and those of its parts. -/
def hasValues (n : Node) : Bool := n.everywhere Kind.hasValues

theorem hasValues_iff {n : Node} :
    n.hasValues = true ↔ n.kind.hasValues = true ∧ ∀ c ∈ n.kind.parts, c.hasValues = true :=
  everywhere_iff

theorem map_eq_of_forall₂ {α β : Type} {f : α → β} {xs ys : List α} (h : Forall₂ (fun x y => f x = f y) xs ys) :
    xs.map f = ys.map f := by
  induction h with
  | nil => rfl
  | cons hxy _ ih => rw [List.map_cons, List.map_cons, hxy, ih]

/-- What holds of two equal nodes with values, part by part, holds of lists of them. -/
theorem forall₂_of_sameAll {R : Node → Node → Prop} {xs ys : List Node}
    (ih : ∀ x ∈ xs, ∀ {y : Node}, x.hasValues = true → y.hasValues = true → sameAs x y = true → R x y)
    (hx : ∀ x ∈ xs, x.hasValues = true) (hy : ∀ y ∈ ys, y.hasValues = true)
    (h : Forall₂ (fun x y => sameAs x y = true) xs ys) : Forall₂ R xs ys := by
  induction h with
  | nil => exact .nil
  | cons hs _ more =>
    rw [List.forall_mem_cons] at ih hx hy
    exact .cons (ih.1 hx.1 hy.1 hs) (more ih.2 hx.2 hy.2)

/-- Equal nodes have one pattern. -/
theorem ofNode_eq_of_sameAs {x y : Node} (hx : x.hasValues = true) (hy : y.hasValues = true)
    (h : sameAs x y = true) : Pattern.ofNode x = Pattern.ofNode y := by
  induction x using Node.induction_on_parts generalizing y with
  | node x ih =>
    rw [hasValues_iff] at hx hy
    have hk := (sameAs_iff.1 h).1
    obtain ⟨kind, modifiers, annotations⟩ := x
    obtain ⟨kind', modifiers', annotations'⟩ := y
    cases hk with
    | literal hl =>
      cases Literal.eq_of_same hx.1 hy.1 hl
      simp only [Pattern.ofNode]
    | primitive p => cases p <;> simp only [Pattern.ofNode]
    | union hs =>
      simp only [Pattern.ofNode, Pattern.ofNodes_eq_map]
      exact congrArg Pattern.choice (map_eq_of_forall₂ (forall₂_of_sameAll ih hx.2 hy.2 hs))
    | templatePattern hs =>
      simp only [Pattern.ofNode, Pattern.ofNodes_eq_map]
      exact congrArg Pattern.sequence (map_eq_of_forall₂ (forall₂_of_sameAll ih hx.2 hy.2 hs))
    | _ => simp only [Pattern.ofNode]

theorem ofFragments_eq_of_same {xs ys : List Node} (h : Forall₂ (fun x y => sameAs x y = true) xs ys)
    (hx : ∀ x ∈ xs, x.hasValues = true) (hy : ∀ y ∈ ys, y.hasValues = true) :
    Pattern.ofFragments xs = Pattern.ofFragments ys := by
  have hall := forall₂_of_sameAll (fun _ _ _ hx hy hs => ofNode_eq_of_sameAs hx hy hs) hx hy h
  rw [Pattern.ofFragments, Pattern.ofFragments, Pattern.ofNodes_eq_map, Pattern.ofNodes_eq_map, map_eq_of_forall₂ hall]

/-- **All values of one node are values of another.** -/
def Within (builtin : Value → String → Option Value) (x y : Node) : Prop :=
  ∀ v, Describes builtin x v → Describes builtin y v

theorem describeItems_of_within {rest : Bool} {xs ys : List Node} (h : Forall₂ (Within builtin) xs ys)
    {vs : List Value} (hvs : DescribeItems builtin rest xs vs) : DescribeItems builtin rest ys vs := by
  induction h generalizing vs with
  | nil => exact hvs
  | cons hxy hall ih =>
    rw [DescribeItems] at hvs ⊢
    have hnil := hall.length_eq
    split at hvs
    · rename_i hlast
      rw [if_pos ⟨hlast.1, List.eq_nil_of_length_eq_zero (by rw [← hnil, hlast.2]; rfl)⟩]
      exact hxy _ hvs
    · rename_i hlast
      obtain ⟨x, others, rfl, hx, hothers⟩ := hvs
      rw [if_neg fun hr => hlast ⟨hr.1, List.eq_nil_of_length_eq_zero (by rw [hnil, hr.2]; rfl)⟩]
      exact ⟨x, others, rfl, hxy _ hx, ih hothers⟩

/-- **Of two nodes of equal kinds, the one describes what the other does.** -/
theorem within_of_sameKind {x y : Node} (hx : x.hasValues = true) (hy : y.hasValues = true)
    (h : sameKind x.kind y.kind = true) : Within builtin x y := by
  induction x using Node.induction_on_parts generalizing y with
  | node x ih =>
    intro v hv
    rw [hasValues_iff] at hx hy
    have hk := sameKind_iff.1 h
    replace ih : ∀ c ∈ x.kind.parts, ∀ {y : Node}, c.hasValues = true → y.hasValues = true → sameAs c y = true →
        Within builtin c y :=
      fun c hc _ hcv hyv hs => ih c hc hcv hyv (sameKind_iff.2 (sameAs_iff.1 hs).1)
    obtain ⟨kind, modifiers, annotations⟩ := x
    obtain ⟨kind', modifiers', annotations'⟩ := y
    cases hk with
    | primitive p => simpa only [Describes, KindDescribes] using hv
    | literal hl =>
      cases Literal.eq_of_same hx.1 hy.1 hl
      simpa only [Describes, KindDescribes] using hv
    | array hs | wrapper w hs =>
      have hitem := ih _ List.mem_cons_self (hx.2 _ List.mem_cons_self) (hy.2 _ List.mem_cons_self) hs
      simp only [Describes, KindDescribes] at hv ⊢
      obtain ⟨vs, rfl, hvs⟩ := hv
      exact ⟨vs, rfl, fun x hx => hitem x (hvs x hx)⟩
    | tuple hs rest =>
      have hall := forall₂_of_sameAll ih hx.2 hy.2 hs
      simp only [Describes, KindDescribes] at hv ⊢
      obtain ⟨vs, rfl, hvs⟩ := hv
      exact ⟨vs, rfl, describeItems_of_within hall hvs⟩
    | object hs =>
      simp only [Kind.hasValues, Bool.and_eq_true, decide_eq_true_eq] at hx hy
      simp only [Describes, KindDescribes, describeProperties_iff] at hv ⊢
      refine ⟨hv.1, hv.2.1, fun (name, m) hm => ?_⟩
      obtain ⟨n, hn, hs⟩ := hs.exists_left hx.1.1 hy.1.1 hm
      obtain ⟨x, hp, hd⟩ := hv.2.2 _ hn
      have hnp := List.mem_map_of_mem (f := Prod.snd) hn
      exact ⟨x, hp, ih n hnp (hx.2 n hnp) (hy.2 m (List.mem_map_of_mem (f := Prod.snd) hm)) hs x hd⟩
    | union hs =>
      have hall := forall₂_of_sameAll ih hx.2 hy.2 hs
      simp only [Describes, KindDescribes, someDescribes_iff] at hv ⊢
      obtain ⟨n, hn, hd⟩ := hv
      obtain ⟨m, hm, hw⟩ := exists_of_mem_right (Forall₂.flip hall) hn
      exact ⟨m, hm, hw v hd⟩
    | intersect hs =>
      have hall := forall₂_of_sameAll ih hx.2 hy.2 hs
      simp only [Describes, KindDescribes, allDescribe_iff] at hv ⊢
      intro m hm
      obtain ⟨n, hn, hw⟩ := exists_of_mem_right hall hm
      exact hw v (hv n hn)
    | templatePattern hs =>
      simp only [Describes, KindDescribes] at hv ⊢
      rwa [← ofFragments_eq_of_same hs hx.2 hy.2]
    | _ => cases hx.1

end Node
end Schemata
