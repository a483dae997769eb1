import Mathlib.Logic.Relation
import Schemata.Proofs.Comparison.Steps
import Schemata.Proofs.Node.Equality
import Schemata.Proofs.Node.Names
/-!
# What a comparison opens

A comparison opens both sides on its way down: a bundle to its root, a reference to its definition, a set to its parts.

- `Focus.Opens` is one such step, for the parts that are listed, with the bundles around the node at hand.
- `Surroundings.Sees` ties these bundles to the surroundings of a comparison.
- `Focus.Throughout`: what bundles hand on to their definitions, and nodes to their parts, holds of all that is opened.
  So does being closed, and what is closed comes to no dead end (`Focus.isDeadEnd_of_closed`).
-/
namespace Schemata

open Relation (ReflTransGen)

/-! ## What is opened -/

/-- **A node at hand**, with the bundles that have been entered, innermost first. -/
structure Focus where
  scopes : List (Fields Node)
  node : Node

namespace Focus

/-- The definition of a name in the innermost bundle that has one. -/
def lookup (c : Focus) (name : String) : Option Node := c.scopes.findSome? fun scope => scope.get? name

/-- **One step into a node**: from a bundle to its root, from a reference to its definition, and to the parts that `parts`
lists. -/
inductive Opens (parts : Kind Node → List Node) : Focus → Focus → Prop
  | bundle {c : Focus} {definitions : Fields Node} {root : String} {target : Node}
    (hk : c.node.kind = .cyclic definitions root) (ht : definitions.get? root = some target) :
    Opens parts c ⟨definitions :: c.scopes, target⟩
  | reference {c : Focus} {name : String} {target : Node} (hk : c.node.kind = .ref name)
    (ht : c.lookup name = some target) : Opens parts c ⟨c.scopes, target⟩
  | part {c : Focus} {n : Node} (hn : n ∈ parts c.node.kind) : Opens parts c ⟨c.scopes, n⟩

/-- Whether there is nothing behind a bundle or a reference: no root, or no definition. -/
def isDeadEnd (c : Focus) : Bool :=
  match c.node.kind with
  | .cyclic definitions root => (Fields.get? definitions root).isNone
  | .ref name => (c.lookup name).isNone
  | _ => false

end Focus

namespace Kind

/-- The variants of a union. -/
def variants : Kind Node → List Node
  | .union variants => variants
  | _ => []

/-- The members of an intersection, and the variant of a union of one. -/
def members : Kind Node → List Node
  | .intersect members => members
  | .union [variant] => [variant]
  | _ => []

theorem mem_variants {kind : Kind Node} {n : Node} : n ∈ kind.variants ↔ ∃ ns, kind = .union ns ∧ n ∈ ns := by
  cases kind <;> simp [variants]

theorem mem_members {kind : Kind Node} {n : Node} :
    n ∈ kind.members ↔ (∃ ns, kind = .intersect ns ∧ n ∈ ns) ∨ kind = .union [n] := by
  unfold members
  split
  · simp
  · simp [eq_comm]
  · simp_all

/-- No part at all: only bundles and references are opened. -/
def unopened (_ : Kind Node) : List Node := []

/-- Whether there is nothing to open, and something left: no bundle, no reference, no union and not `never`. -/
def isForm : Kind Node → Bool
  | .cyclic .. | .ref _ | .union _ | .primitive .never => false
  | _ => true

theorem isIndirect_of_isForm {kind : Kind Node} (h : kind.isForm = true) : kind.isIndirect = false := by
  cases kind <;> first | rfl | exact Bool.noConfusion h

theorem ne_union_of_isForm {kind : Kind Node} (h : kind.isForm = true) (ns : List Node) : kind ≠ .union ns := by
  rintro rfl
  cases h

/-- Whether the root of a bundle is one of its definitions. -/
def hasRoot : Kind Node → Bool
  | .cyclic definitions root => (Fields.get? definitions root).isSome
  | _ => true

/-- Whether a union has no variants, or several. -/
def isBranching : Kind Node → Bool
  | .union [_] => false
  | .union _ => true
  | _ => false

theorem exists_of_not_isBranching {ns : List Node} (h : (Kind.union ns).isBranching = false) : ∃ n, ns = [n] := by
  match ns, h with
  | [n], _ => exact ⟨n, rfl⟩

end Kind

/-- **What a node opens to** by itself, in any number of steps. -/
def Node.Reaches (parts : Kind Node → List Node) (n : Node) (c : Focus) : Prop :=
  ReflTransGen (Focus.Opens parts) ⟨[], n⟩ c

theorem Node.Reaches.mono {parts more : Kind Node → List Node} (hparts : ∀ kind, parts kind ⊆ more kind) {n : Node}
    {c : Focus} (h : n.Reaches parts c) : n.Reaches more c := by
  refine Relation.ReflTransGen.mono (fun c d (hstep : Focus.Opens parts c d) => ?_) _ _ h
  cases hstep with
  | bundle hk ht => exact .bundle hk ht
  | reference hk ht => exact .reference hk ht
  | part hm => exact .part (hparts _ hm)

/-- **Surroundings that know all names of some bundles**, and know them as these do. -/
def Surroundings.Sees (s : Surroundings) (scopes : List (Fields Node)) : Prop :=
  ∀ name target, (scopes.findSome? fun scope => scope.get? name) = some target →
    ∃ place, s.lookup name = some ⟨target, place⟩

theorem Surroundings.sees_nil (s : Surroundings) : s.Sees [] := by
  intro name target h
  cases h

/-- A bundle is entered on both sides. -/
theorem Surroundings.Sees.enter {s : Surroundings} {scopes : List (Fields Node)} (h : s.Sees scopes) (p : Placed)
    (definitions : Fields Node) :
    ({ s with scopes := p.definitions definitions :: s.scopes } : Surroundings).Sees (definitions :: scopes) := by
  intro name target ht
  rw [List.findSome?_cons] at ht
  rw [Surroundings.lookup, List.findSome?_cons, p.get?_definitions]
  cases hd : definitions.get? name with
  | some n =>
    rw [hd] at ht
    cases ht
    exact ⟨_, rfl⟩
  | none =>
    rw [hd] at ht
    exact h name target ht

/-! ## What holds of all that is opened -/

namespace Focus

variable {parts : Kind Node → List Node} {c d : Focus}

/-- What holds of a node at hand and of all definitions around it. -/
def Throughout (P : Node → Prop) (c : Focus) : Prop :=
  P c.node ∧ ∀ scope ∈ c.scopes, ∀ name n, scope.get? name = some n → P n

/-- What bundles hand on to their definitions, and nodes to the parts that are listed, holds of all that is opened. -/
theorem Throughout.of_opens {P : Node → Prop}
    (hbundle : ∀ (definitions : Fields Node) root modifiers annotations, P ⟨.cyclic definitions root, modifiers, annotations⟩ →
      ∀ name n, definitions.get? name = some n → P n)
    (hparts : ∀ n, P n → ∀ m ∈ parts n.kind, P m) (hc : c.Throughout P) (h : ReflTransGen (Opens parts) c d) :
    d.Throughout P := by
  induction h with
  | refl => exact hc
  | @tail d e _ hstep ih =>
    cases hstep with
    | bundle hk ht =>
      obtain ⟨scopes, kind, modifiers, annotations⟩ := d
      cases hk
      exact ⟨hbundle _ _ _ _ ih.1 _ _ ht, List.forall_mem_cons.2 ⟨hbundle _ _ _ _ ih.1, ih.2⟩⟩
    | reference hk ht =>
      obtain ⟨scope, hscope, hn⟩ := List.exists_of_findSome?_eq_some ht
      exact ⟨ih.2 scope hscope _ _ hn, ih.2⟩
    | part hm => exact ⟨hparts _ ih.1 _ hm, ih.2⟩

/-- What the forms of all nodes of a tree have to be, they are of all that is opened. -/
theorem Throughout.of_everywhere {allowed : Kind Node → Bool} {n : Node}
    (hparts : ∀ n : Node, ∀ m ∈ parts n.kind, m ∈ n.kind.parts) (hn : n.everywhere allowed = true)
    (h : ReflTransGen (Opens parts) ⟨[], n⟩ c) : c.Throughout fun n => n.everywhere allowed = true :=
  Throughout.of_opens
    (fun _ _ _ _ hb _ m hm => (Node.everywhere_iff.1 hb).2 m (List.mem_map_of_mem (Fields.mem_of_get? hm)))
    (fun n hn m hm => (Node.everywhere_iff.1 hn).2 m (hparts n m hm)) ⟨hn, by simp⟩ h

/-- **Names that are bound around a node**, and around all definitions that it may come to. -/
def IsClosed (c : Focus) : Prop := c.Throughout fun n => ∀ x ∈ n.loose, (c.lookup x).isSome = true

theorem lookup_enter {scopes : List (Fields Node)} {n target : Node} {definitions : Fields Node} {x : String}
    (h : definitions.has x = true ∨ (lookup ⟨scopes, n⟩ x).isSome = true) :
    (lookup ⟨definitions :: scopes, target⟩ x).isSome = true := by
  rw [lookup, List.findSome?_cons]
  cases hd : definitions.get? x with
  | some m => rfl
  | none => exact h.resolve_left (by simp [Fields.has, hd])

theorem IsClosed.of_opens
    (hparts : ∀ n : Node, ∀ m ∈ parts n.kind, m ∈ n.kind.parts ∧ n.kind.binds = [] ∧ ∀ name, n.kind ≠ .ref name)
    (hc : c.IsClosed) (h : ReflTransGen (Opens parts) c d) : d.IsClosed := by
  induction h with
  | refl => exact hc
  | @tail d e _ hstep ih =>
    cases hstep with
    | @bundle definitions root target hk ht =>
      have hdefinition : ∀ name n, definitions.get? name = some n → ∀ x ∈ n.loose,
          (lookup ⟨definitions :: d.scopes, target⟩ x).isSome = true := by
        intro name n hn x hx
        refine lookup_enter (n := d.node) ?_
        by_cases hb : x ∈ definitions.names
        · exact .inl (Fields.mem_names_iff.1 hb)
        · refine .inr (ih.1 x ((Node.mem_loose_iff (by simp [hk])).2 ⟨n, ?_, hx, by rwa [hk]⟩))
          rw [hk]
          exact List.mem_map_of_mem (Fields.mem_of_get? hn)
      exact ⟨hdefinition _ _ ht, List.forall_mem_cons.2 ⟨hdefinition, fun scope hscope name n hn x hx =>
        lookup_enter (n := d.node) (.inr (ih.2 scope hscope name n hn x hx))⟩⟩
    | reference hk ht =>
      obtain ⟨scope, hscope, hn⟩ := List.exists_of_findSome?_eq_some ht
      exact ⟨ih.2 scope hscope _ _ hn, ih.2⟩
    | part hm =>
      obtain ⟨hp, hb, href⟩ := hparts _ _ hm
      exact ⟨fun x hx => ih.1 x ((Node.mem_loose_iff href).2 ⟨_, hp, hx, by simp [hb]⟩), ih.2⟩

/-- **A closed node whose bundles have their roots comes to no dead end.** -/
theorem isDeadEnd_of_closed {n : Node}
    (hparts : ∀ n : Node, ∀ m ∈ parts n.kind, m ∈ n.kind.parts ∧ n.kind.binds = [] ∧ ∀ name, n.kind ≠ .ref name)
    (hloose : n.loose = []) (hroots : n.everywhere Kind.hasRoot = true) (h : ReflTransGen (Opens parts) ⟨[], n⟩ c) :
    c.isDeadEnd = false := by
  have hclosed : c.IsClosed := IsClosed.of_opens hparts ⟨by simp [hloose], by simp⟩ h
  have hroot : c.Throughout fun n => n.everywhere Kind.hasRoot = true :=
    Throughout.of_everywhere (fun n m hm => (hparts n m hm).1) hroots h
  unfold isDeadEnd
  split
  · rename_i hk
    have hsome := (Node.everywhere_iff.1 hroot.1).1
    rw [hk] at hsome
    exact Option.isNone_eq_false_iff.2 hsome
  · rename_i name hk
    refine Option.isNone_eq_false_iff.2 (hclosed.1 name ?_)
    rw [Node.loose, Node.mem_looseUnder_iff]
    exact .inl ⟨hk, List.not_mem_nil⟩
  · rfl

end Focus
end Schemata
