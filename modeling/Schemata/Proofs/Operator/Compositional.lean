import Schemata.Proofs.Instantiation.Concrete
/-!
# What reducers build has what it is built of

Reducers take nodes apart and put their parts together again.  A property of nodes that is one of their parts, as far as
they apply and bind nothing, is so handed on to what reducers make of them: to the branches of a union, to unions in normal
form, and to the properties of an object or an intersection.  Being concrete is such a property (`compositional_isConcrete`).
-/
namespace Schemata

/-- **A property that a node has when its parts have it**, whatever its flags and annotations are. -/
structure Compositional (P : Node → Prop) : Prop where
  of_kind {m n : Node} (h : P n) (hk : m.kind = n.kind) : P m
  iff_parts {n : Node} (hstructural : n.kind.isStructural = true) (hplain : n.kind.isPlain = true) :
    P n ↔ ∀ c ∈ n.kind.parts, P c

theorem compositional_isConcrete : Compositional fun n => n.isConcrete = true where
  of_kind h hk := by
    rwa [Node.isConcrete_eq, Node.children, hk, ← Node.children, ← Node.isConcrete_eq]
  iff_parts {n} hstructural hplain := by
    obtain ⟨hchildren, -, href⟩ := Node.form_of_isStructural hstructural
    refine ⟨fun h => ?_, fun h => Node.isConcrete_of_parts hplain href (hchildren ▸ h)⟩
    rcases Node.isConcrete_cases h with ⟨definitions, root, hk⟩ | ⟨-, -, -, hparts⟩
    · rw [hk] at hstructural
      cases hstructural
    · exact hparts

namespace Compositional

open Node

variable {P : Node → Prop} (hP : Compositional P)
include hP

/-- A node without parts, apart from references, has the property. -/
theorem of_parts_nil {n : Node} (hstructural : n.kind.isStructural = true) (hplain : n.kind.isPlain = true)
    (hparts : n.kind.parts = []) : P n := by
  rw [hP.iff_parts hstructural hplain, hparts]
  exact fun c hc => absurd hc List.not_mem_nil

theorem primitive (p : Primitive) : P (.primitive p) := hP.of_parts_nil rfl rfl rfl

theorem literal (l : Literal) : P (.literal l) := hP.of_parts_nil rfl rfl rfl

/-! ## Unions -/

theorem union {ns : List Node} (h : ∀ n ∈ ns, P n) : P (.union ns) := (hP.iff_parts rfl rfl).2 h

theorem variants {n : Node} (h : P n) {ns : List Node} (hk : n.kind = .union ns) : ∀ m ∈ ns, P m := by
  have hparts := (hP.iff_parts (by rw [hk]; rfl) (by rw [hk]; rfl)).1 h
  rwa [hk] at hparts

theorem leaves {n : Node} (h : P n) : ∀ m ∈ n.leaves, P m := by
  induction n using Node.induction_on_parts with
  | node n ih =>
    obtain ⟨kind, modifiers, annotations⟩ := n
    have hself : ∀ m ∈ [Node.mk kind modifiers annotations], P m := List.forall_mem_singleton.2 h
    cases kind with
    | union variants =>
      match modifiers, annotations with
      | ⟨false, false⟩, [] =>
        simp only [Node.leaves, leavesAll_eq_flatMap]
        intro m hm
        obtain ⟨c, hc, hm⟩ := List.mem_flatMap.1 hm
        exact ih c hc (hP.variants h rfl c hc) m hm
      | ⟨false, false⟩, _ :: _ | ⟨true, _⟩, _ | ⟨false, true⟩, _ => exact hself
    | primitive p => cases p <;> first | exact hself | exact fun m hm => absurd hm List.not_mem_nil
    | _ => exact hself

/-- **A union in normal form** has the property where its variants do. -/
theorem unionOf {ns : List Node} (h : ∀ n ∈ ns, P n) : P (.unionOf ns) := by
  have hleaves : ∀ m ∈ distinct (leavesAll ns), P m := by
    intro m hm
    have hm := mem_of_mem_distinct hm
    rw [leavesAll_eq_flatMap] at hm
    obtain ⟨n, hn, hm⟩ := List.mem_flatMap.1 hm
    exact hP.leaves (h n hn) m hm
  rw [Node.unionOf]
  split
  · exact hP.primitive .never
  · rename_i n heq
    exact hleaves n (heq ▸ List.mem_singleton_self n)
  · exact hP.union hleaves

theorem branchesOpened {n : Node} (h : P n) : ∀ m ∈ branchesOpened n, P m := by
  induction n using Node.induction_on_parts with
  | node n ih =>
    obtain ⟨kind, modifiers, annotations⟩ := n
    have hself : ∀ m ∈ [Node.mk kind modifiers annotations], P m := List.forall_mem_singleton.2 h
    cases kind with
    | union variants =>
      simp only [Schemata.branchesOpened, branchesOpenedAll_eq_flatMap]
      intro m hm
      obtain ⟨c, hc, hm⟩ := List.mem_flatMap.1 hm
      exact ih c hc (hP.variants h rfl c hc) m hm
    | primitive p => cases p <;> first | exact hself | exact fun m hm => absurd hm List.not_mem_nil
    | _ => exact hself

/-! ## Properties -/

theorem iff_properties {n : Node} {properties : Fields Node} (hk : n.kind = .object properties) :
    P n ↔ ∀ e ∈ properties, P e.2 := by
  rw [hP.iff_parts (by rw [hk]; rfl) (by rw [hk]; rfl), hk, Kind.parts, List.forall_mem_map]

theorem ofObject {properties : Fields Node} (h : ∀ e ∈ properties, P e.2) : P (.of (.object properties)) :=
  (hP.iff_properties rfl).2 h

theorem intersectProperty {left right : Node} (hl : P left) (hr : P right) : P (intersectProperty left right) := by
  rw [Schemata.intersectProperty]
  split
  · exact hl
  · have hboth : P (.intersect [left.bare, right.bare]) := by
      refine (hP.iff_parts rfl rfl).2 ?_
      show ∀ c ∈ [left.bare, right.bare], P c
      rw [List.forall_mem_cons, List.forall_mem_singleton]
      exact ⟨hP.of_kind hl rfl, hP.of_kind hr rfl⟩
    exact hP.of_kind hboth rfl

theorem mergeProperties {merged more : Fields Node} (hmerged : ∀ e ∈ merged, P e.2) (hmore : ∀ e ∈ more, P e.2) :
    ∀ e ∈ mergeProperties merged more, P e.2 := by
  induction more generalizing merged with
  | nil => exact hmerged
  | cons e rest ih =>
    rw [List.forall_mem_cons] at hmore
    refine ih ?_ hmore.2
    dsimp only
    split
    · rename_i previous hprevious
      exact Fields.forall_insert hmerged (hP.intersectProperty (hmerged _ (Fields.mem_of_get? hprevious)) hmore.1) e.1
    · exact Fields.forall_insert hmerged hmore.1 e.1

theorem collapseAll {ns : List Node}
    (h : ∀ n ∈ ns, ∀ properties, collapse n = .properties properties → ∀ e ∈ properties, P e.2)
    {merged properties : Fields Node} (hmerged : ∀ e ∈ merged, P e.2)
    (hcollapse : collapseAll merged ns = .properties properties) : ∀ e ∈ properties, P e.2 := by
  induction ns generalizing merged with
  | nil =>
    cases hcollapse
    exact hmerged
  | cons n ns ih =>
    rw [Schemata.collapseAll] at hcollapse
    split at hcollapse
    · rename_i more hmore
      refine ih (fun m hm => h m (List.mem_cons_of_mem n hm)) (hP.mergeProperties hmerged ?_) hcollapse
      exact h n List.mem_cons_self more hmore
    · rename_i hother
      exact absurd hcollapse (hother properties)

/-- **The properties of a node** have the property where the node does. -/
theorem collapse {n : Node} (h : P n) {properties : Fields Node}
    (hcollapse : Schemata.collapse n = .properties properties) : ∀ e ∈ properties, P e.2 := by
  induction n using Node.induction_on_parts generalizing properties with
  | node n ih =>
    obtain ⟨kind, modifiers, annotations⟩ := n
    cases kind with
    | object own =>
      cases hcollapse
      exact (hP.iff_properties rfl).1 h
    | intersect members =>
      have hparts : ∀ c ∈ members, P c := (hP.iff_parts rfl rfl).1 h
      rw [Schemata.collapse] at hcollapse
      refine hP.collapseAll (fun m hm more hmore => ih m hm (hparts m hm) hmore) ?_ hcollapse
      exact fun e he => absurd he List.not_mem_nil
    | _ =>
      simp only [Schemata.collapse] at hcollapse
      split at hcollapse <;> cases hcollapse

end Compositional
end Schemata
