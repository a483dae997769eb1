import Schemata.Node.Kind
/-!
# Schema nodes

A node is a kind whose parts are nodes, with flags and annotations.  Nodes are finite trees; what looks recursive goes
through references, which a context or a cyclic bundle resolves.

- `size` counts every node below, those inside bundles included; recursion on parts ends because of
  `size_lt_of_mem_parts`.
- `height` counts the nodes on the longest path downward, where a bundle is a leaf.
- `isConcrete` says that nothing is left to instantiate outside of bundles.
- `sameAs` is equality of nodes: the order of properties and of definitions does not count, and literals compare as
  their values do.
-/
namespace Schemata

/-- **A schema node.** -/
structure Node where
  kind : Kind Node
  modifiers : Modifiers
  annotations : Annotations

abbrev Context := Fields Node

namespace Node

def of (kind : Kind Node) : Node := ⟨kind, .plain, []⟩

instance : Inhabited Node := ⟨of (.primitive .never)⟩

def children (n : Node) : List Node := n.kind.children

/-! ## Size -/

mutual
def size : Node → Nat
  | ⟨kind, _, _⟩ => sizeKind kind + 1

def sizeKind : Kind Node → Nat
  | .primitive _ | .literal _ | .ref _ => 0
  | .array item => item.size
  | .tuple items _ => sizeAll items
  | .object properties => sizeFields properties
  | .union variants => sizeAll variants
  | .intersect members => sizeAll members
  | .function parameters returns => sizeAll parameters + returns.size
  | .constructor parameters created => sizeAll parameters + created.size
  | .wrapper _ item => item.size
  | .dictionary key value => key.size + value.size
  | .parameter p => sizeParameter p
  | .generic parameters body => sizeParameters parameters + body.size
  | .call target arguments => target.size + sizeAll arguments
  | .deferred _ operands _ => sizeAll operands
  | .cyclic definitions _ => sizeFields definitions
  | .templatePattern fragments => sizeAll fragments

def sizeAll : List Node → Nat
  | [] => 0
  | n :: ns => n.size + sizeAll ns

def sizeFields : List (String × Node) → Nat
  | [] => 0
  | (_, n) :: rest => n.size + sizeFields rest

def sizeParameter : Parameter Node → Nat
  | ⟨_, constraint, default⟩ => constraint.size + default.size

def sizeParameters : List (Parameter Node) → Nat
  | [] => 0
  | p :: ps => sizeParameter p + sizeParameters ps
end

theorem size_le_sizeAll {c : Node} : ∀ {ns : List Node}, c ∈ ns → c.size ≤ sizeAll ns
  | n :: ns, h => by
    rcases List.mem_cons.1 h with rfl | h
    · simp [sizeAll]
    · have := size_le_sizeAll h; simp [sizeAll]; omega

theorem size_le_sizeFields {c : Node} : ∀ {fs : List (String × Node)}, c ∈ fs.map Prod.snd → c.size ≤ sizeFields fs
  | (_, n) :: rest, h => by
    rcases List.mem_cons.1 h with rfl | h
    · simp [sizeFields]
    · have := size_le_sizeFields h; simp [sizeFields]; omega

theorem size_le_sizeParameter {c : Node} {p : Parameter Node} (h : c ∈ p.parts) : c.size ≤ sizeParameter p := by
  obtain ⟨name, constraint, default⟩ := p
  simp only [Parameter.parts, List.mem_cons, List.not_mem_nil, or_false] at h
  rcases h with rfl | rfl <;> simp [sizeParameter]

theorem size_le_sizeParameters {c : Node} :
    ∀ {ps : List (Parameter Node)}, c ∈ ps.flatMap Parameter.parts → c.size ≤ sizeParameters ps
  | p :: ps, h => by
    rw [List.flatMap_cons] at h
    rcases List.mem_append.1 h with h | h
    · have := size_le_sizeParameter h; simp [sizeParameters]; omega
    · have := size_le_sizeParameters h; simp [sizeParameters]; omega

theorem size_le_sizeKind {c : Node} {kind : Kind Node} (h : c ∈ kind.parts) : c.size ≤ sizeKind kind := by
  cases kind <;> simp only [Kind.parts, List.mem_append, List.mem_cons, List.not_mem_nil, or_false] at h <;>
    simp only [sizeKind]
  case array => subst h; exact Nat.le_refl _
  case wrapper => subst h; exact Nat.le_refl _
  case tuple | union | intersect | deferred | templatePattern => exact size_le_sizeAll h
  case object | cyclic => exact size_le_sizeFields h
  case function | constructor =>
    rcases h with h | rfl
    · have := size_le_sizeAll h; omega
    · omega
  case dictionary => rcases h with rfl | rfl <;> omega
  case parameter => exact size_le_sizeParameter h
  case generic =>
    rcases h with h | rfl
    · have := size_le_sizeParameters h; omega
    · omega
  case call =>
    rcases h with rfl | h
    · omega
    · have := size_le_sizeAll h; omega

/-- **A part is smaller than the whole.** -/
theorem size_lt_of_mem_parts {c n : Node} (h : c ∈ n.kind.parts) : c.size < n.size := by
  obtain ⟨kind, modifiers, annotations⟩ := n
  exact Nat.lt_succ_of_le (size_le_sizeKind h)

theorem size_lt_of_mem_children {c n : Node} (h : c ∈ n.children) : c.size < n.size :=
  size_lt_of_mem_parts (Kind.mem_parts_of_mem_children h)

/-- **Induction on parts**: what holds of a node whenever it holds of its parts holds of every node. -/
@[elab_as_elim]
theorem induction_on_parts {motive : Node → Prop} (n : Node)
    (node : ∀ n : Node, (∀ c ∈ n.kind.parts, motive c) → motive n) : motive n :=
  node n fun c _ => induction_on_parts c node
termination_by n.size
decreasing_by exact size_lt_of_mem_parts ‹_›

/-- **The number of nodes on the longest path downward**; a bundle is a leaf. -/
def height (n : Node) : Nat :=
  1 + (n.children.attach.map fun ⟨c, _⟩ => c.height).foldr max 0
termination_by n.size
decreasing_by exact size_lt_of_mem_children ‹_›

theorem height_eq (n : Node) : n.height = 1 + (n.children.map height).foldr max 0 := by
  rw [height]; simp

/-! ## Predicates -/

def primitive? (n : Node) : Option Primitive :=
  match n.kind with
  | .primitive p => some p
  | _ => none

def literal? (n : Node) : Option Literal :=
  match n.kind with
  | .literal l => some l
  | _ => none

def properties? (n : Node) : Option (Fields Node) :=
  match n.kind with
  | .object properties => some properties
  | _ => none

def isPrimitive (n : Node) (p : Primitive) : Bool := n.primitive? == some p

def isNever (n : Node) : Bool := n.isPrimitive .never

/-- Whether a node may become something else once names are known: a reference, call, deferred operator or
parameter. -/
def isUnresolved (n : Node) : Bool :=
  match n.kind with
  | .ref _ | .call .. | .deferred .. | .parameter _ => true
  | _ => false

/-- **Whether nothing is left to instantiate**: no reference, call, deferred operator, parameter or generic outside of
bundles. -/
def isConcrete (n : Node) : Bool :=
  match n.kind with
  | .ref _ | .call .. | .deferred .. | .parameter _ | .generic .. => false
  | _ => n.children.attach.all fun ⟨c, _⟩ => c.isConcrete
termination_by n.size
decreasing_by exact size_lt_of_mem_children ‹_›

theorem isConcrete_eq (n : Node) : n.isConcrete =
    match n.kind with
    | .ref _ | .call .. | .deferred .. | .parameter _ | .generic .. => false
    | _ => n.children.all isConcrete := by
  rw [isConcrete]; split <;> simp_all

/-! ## Flags and annotations -/

def rebuild (n : Node) (kind : Kind Node) : Node := { n with kind }

def withModifiers (n : Node) (modifiers : Modifiers) : Node := { n with modifiers }

def bare (n : Node) : Node := n.withModifiers .plain

/-- **What takes the place of `origin`** keeps its flags and annotations; of two annotations of one name, that of
`origin` stays. -/
def inherit (n origin : Node) : Node :=
  { n with
    modifiers := n.modifiers.merge origin.modifiers
    annotations := n.annotations.override origin.annotations }

/-! ## Equality -/

mutual
/-- Equality of nodes, flags and annotations included. -/
def sameAs : Node → Node → Bool
  | ⟨k, m, a⟩, ⟨k', m', a'⟩ => sameKind k k' && m == m' && Annotations.sameAs a a'

/-- Equality of kinds.  Fields are equal when they are as many and each has its equal under the same name. -/
def sameKind : Kind Node → Kind Node → Bool
  | .primitive p, .primitive q => p == q
  | .literal l, .literal l' => l == l'
  | .array x, .array y => sameAs x y
  | .tuple xs r, .tuple ys r' => sameAll xs ys && r == r'
  | .object fs, .object gs => fs.length == gs.length && sameFields fs gs
  | .union xs, .union ys => sameAll xs ys
  | .intersect xs, .intersect ys => sameAll xs ys
  | .function xs x, .function ys y => sameAll xs ys && sameAs x y
  | .constructor xs x, .constructor ys y => sameAll xs ys && sameAs x y
  | .wrapper w x, .wrapper w' y => w == w' && sameAs x y
  | .dictionary x v, .dictionary y w => sameAs x y && sameAs v w
  | .ref a, .ref b => a == b
  | .parameter p, .parameter q => sameParameter p q
  | .generic ps x, .generic qs y => sameParameters ps qs && sameAs x y
  | .call x xs, .call y ys => sameAs x y && sameAll xs ys
  | .deferred o xs a, .deferred o' ys a' => o == o' && sameAll xs ys && Annotations.sameAs a a'
  | .cyclic ds r, .cyclic es r' => ds.length == es.length && sameFields ds es && r == r'
  | .templatePattern xs, .templatePattern ys => sameAll xs ys
  | _, _ => false

def sameAll : List Node → List Node → Bool
  | [], [] => true
  | x :: xs, y :: ys => sameAs x y && sameAll xs ys
  | _, _ => false

/-- Whether each field has its equal among `gs` under the same name. -/
def sameFields : List (String × Node) → Fields Node → Bool
  | [], _ => true
  | (name, x) :: rest, gs =>
    (match gs.get? name with
      | some y => sameAs x y
      | none => false) && sameFields rest gs

def sameParameter : Parameter Node → Parameter Node → Bool
  | ⟨n, c, d⟩, ⟨n', c', d'⟩ => n == n' && sameAs c c' && sameAs d d'

def sameParameters : List (Parameter Node) → List (Parameter Node) → Bool
  | [], [] => true
  | p :: ps, q :: qs => sameParameter p q && sameParameters ps qs
  | _, _ => false
end

instance : BEq Node := ⟨sameAs⟩

end Node
end Schemata
