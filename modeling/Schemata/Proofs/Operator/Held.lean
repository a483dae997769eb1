import Schemata.Proofs.Node.Bundles
import Schemata.Proofs.Operator.Compositional
/-!
# What reducers build is held

Reducers take nodes apart and put their parts together again.  What they make of nodes that are held by some names is held
by the same names; and what was taken out of a bundle is held by nothing once it is in a bundle of its own
(`Setting.bundled_heldBy`).
-/
namespace Schemata

open Node

variable {names : List String}

namespace Node

theorem HeldBy.mono {n : Node} {more : List String} (h : n.HeldBy names) (hn : ∀ x ∈ names, x ∈ more) : n.HeldBy more :=
  ⟨h.isAnchored, fun x hx => hn x (h.references x hx), h.isSealed⟩

/-- **Being held is handed on** to what is built of nodes that are held. -/
theorem compositional_heldBy (names : List String) : Compositional (HeldBy names) := ⟨HeldBy.of_kind, heldBy_iff_parts⟩

theorem heldBy_primitive (p : Primitive) : (Node.primitive p).HeldBy names := (compositional_heldBy names).primitive p

theorem heldBy_literal (l : Literal) : (Node.literal l).HeldBy names := (compositional_heldBy names).literal l

/-! ## Unions -/

theorem heldBy_union {ns : List Node} (h : ∀ n ∈ ns, n.HeldBy names) : (Node.union ns).HeldBy names :=
  (compositional_heldBy names).union h

/-- **A union in normal form is held** where its variants are. -/
theorem heldBy_unionOf {ns : List Node} (h : ∀ n ∈ ns, n.HeldBy names) : (Node.unionOf ns).HeldBy names :=
  (compositional_heldBy names).unionOf h

theorem HeldBy.branches {n : Node} (h : n.HeldBy names) : ∀ m ∈ branches n, m.HeldBy names := by
  induction n using Node.induction_on_parts with
  | node n ih =>
    obtain ⟨kind, modifiers, annotations⟩ := n
    have hself : ∀ m ∈ [Node.mk kind modifiers annotations], m.HeldBy names := fun m hm => List.mem_singleton.1 hm ▸ h
    cases kind with
    | union variants =>
      have hparts : ∀ c ∈ variants, c.HeldBy names := (heldBy_iff_parts rfl rfl).1 h
      simp only [Schemata.branches, branchesAll_eq_flatMap]
      intro m hm
      obtain ⟨c, hc, hm⟩ := List.mem_flatMap.1 hm
      exact ih c hc (hparts c hc) m hm
    | primitive p =>
      cases p with
      | boolean =>
        simp only [Schemata.branches, List.forall_mem_cons]
        exact ⟨heldBy_literal _, heldBy_literal _, fun m hm => absurd hm List.not_mem_nil⟩
      | never => exact fun m hm => absurd hm List.not_mem_nil
      | _ => exact hself
    | _ => exact hself

theorem heldBy_commonKeys {ns : List Node} (h : ∀ n ∈ ns, n.HeldBy names) : (commonKeys ns).HeldBy names := by
  match ns with
  | [] => exact heldBy_primitive .never
  | first :: rest =>
    refine heldBy_unionOf fun n hn => ?_
    exact (compositional_heldBy names).branchesOpened (h first List.mem_cons_self) n (List.mem_filter.1 hn).1

/-! ## Properties -/

/-- **The properties of a node are held** where the node is. -/
theorem HeldBy.collapse {n : Node} (h : n.HeldBy names) {properties : Fields Node}
    (hcollapse : Schemata.collapse n = .properties properties) : ∀ e ∈ properties, e.2.HeldBy names :=
  (compositional_heldBy names).collapse h hcollapse

theorem heldBy_ofObject {properties : Fields Node} (h : ∀ e ∈ properties, e.2.HeldBy names) :
    (Node.of (.object properties)).HeldBy names := (compositional_heldBy names).ofObject h

theorem heldBy_object {properties : List (String × Node)} (h : ∀ e ∈ properties, e.2.HeldBy names) :
    (Node.object properties).HeldBy names :=
  heldBy_ofObject (Fields.forall_extend (fun _ he => absurd he List.not_mem_nil) h)

/-! ## Items, texts and signatures -/

theorem heldBy_elementType {item : Node} (h : item.HeldBy names) (isRest : Bool) :
    (elementType isRest item).HeldBy names := by
  unfold elementType
  split
  · rename_i inner hk
    exact (heldBy_iff_parts (by rw [hk]; rfl) (by rw [hk]; rfl)).1 h inner (by rw [hk]; exact List.mem_singleton_self _)
  · exact h.of_kind rfl

theorem heldBy_elementTypes {items : List Node} (h : ∀ item ∈ items, item.HeldBy names) (rest : Bool) :
    ∀ n ∈ elementTypes rest items, n.HeldBy names := by
  induction items with
  | nil => exact fun n hn => absurd hn List.not_mem_nil
  | cons item items ih =>
    rw [List.forall_mem_cons] at h
    cases items with
    | nil =>
      intro n hn
      rw [elementTypes, List.mem_singleton] at hn
      exact hn ▸ heldBy_elementType h.1 rest
    | cons next items =>
      rw [elementTypes, List.forall_mem_cons]
      exact ⟨heldBy_elementType h.1 false, ih h.2⟩
      simp

theorem heldBy_elementAt? {items : List Node} (h : ∀ item ∈ items, item.HeldBy names) {rest : Bool} {index : UInt64} {n : Node}
    (hn : elementAt? items rest index = some n) : n.HeldBy names := by
  rw [elementAt?] at hn
  split at hn
  · obtain ⟨item, hitem, rfl⟩ := Option.map_eq_some_iff.1 hn
    exact heldBy_elementType (h item (List.mem_of_getLast? hitem)) true
  · obtain ⟨item, hitem, rfl⟩ := Option.map_eq_some_iff.1 hn
    exact heldBy_elementType (h item (List.mem_of_getElem? hitem)) false

theorem heldBy_inFragment {n : Node} (h : n.HeldBy names) (letterCase : LetterCase) :
    (letterCase.inFragment n).HeldBy names := by
  induction n using Node.induction_on_parts with
  | node n ih =>
    obtain ⟨kind, modifiers, annotations⟩ := n
    cases kind with
    | literal l => cases l <;> first | exact h | exact (compositional_heldBy names).of_parts_nil rfl rfl rfl
    | union variants =>
      have hparts : ∀ c ∈ variants, c.HeldBy names := (heldBy_iff_parts rfl rfl).1 h
      rw [LetterCase.inFragment, LetterCase.inFragments_eq_map]
      refine (heldBy_iff_parts rfl rfl).2 fun c hc => ?_
      obtain ⟨d, hd, rfl⟩ := List.mem_map.1 hc
      exact ih d hd (hparts d hd)
    | _ => exact h

theorem heldBy_inPattern {fragments : List Node} (h : ∀ n ∈ fragments, n.HeldBy names) (letterCase : LetterCase) :
    ∀ n ∈ letterCase.inPattern fragments, n.HeldBy names := by
  have hall : ∀ n ∈ letterCase.inFragments fragments, n.HeldBy names := by
    rw [LetterCase.inFragments_eq_map, List.forall_mem_map]
    exact fun n hn => heldBy_inFragment (h n hn) letterCase
  cases letterCase with
  | upper | lower => exact hall
  | capital | uncapital =>
    cases fragments with
    | nil => exact h
    | cons first rest =>
      rw [List.forall_mem_cons] at h
      simp only [LetterCase.inPattern, List.forall_mem_cons]
      exact ⟨heldBy_inFragment h.1 _, h.2⟩

theorem HeldBy.of? {n found : Node} (h : n.HeldBy names) {part : SignaturePart} (hfound : part.of? n.kind = some found) :
    found.HeldBy names := by
  cases hk : n.kind with
  | function parameters returns | constructor parameters returns =>
    have hparts := (heldBy_iff_parts (by rw [hk]; rfl) (by rw [hk]; rfl)).1 h
    rw [hk] at hparts hfound
    have htuple : (Node.tuple parameters).HeldBy names :=
      (heldBy_iff_parts rfl rfl).2 fun c hc => hparts c (List.mem_append_left _ hc)
    have hlast : returns.HeldBy names := hparts returns (List.mem_append_right _ (List.mem_singleton_self _))
    cases part <;> cases hfound <;> first | exact htuple | exact hlast
  | _ =>
    rw [hk] at hfound
    cases part <;> cases hfound

end Node

/-! ## Bundles -/

/-- **What was taken out of a closed bundle is concrete**, once it is closed again. -/
theorem Setting.bundled_heldBy {s : Setting} {definitions : Fields Node} {root : String} {result : Node}
    (hdefinitions : ∀ e ∈ definitions, e.2.isSealed = true ∧ ∀ x ∈ e.2.references, x ∈ definitions.names)
    (hresult : result.HeldBy definitions.names) : (s.bundled definitions root result).HeldBy [] := by
  rw [bundled]
  split
  · -- The new bundle has the old definitions and the result.
    let name := s.operator.word ++ "<" ++ root ++ ">"
    have hhas : ∀ x ∈ definitions.names, (definitions.insert name result).has x = true := fun x hx =>
      Fields.has_insert_iff.2 (.inr (Fields.mem_names_iff.1 hx))
    have hall : ∀ e ∈ definitions.insert name result, e.2.isSealed = true ∧
        ∀ x ∈ e.2.references, (definitions.insert name result).has x = true := by
      intro e he
      rcases Fields.mem_insert he with rfl | he
      · exact ⟨hresult.isSealed, fun x hx => hhas x (hresult.references x hx)⟩
      · exact ⟨(hdefinitions e he).1, fun x hx => hhas x ((hdefinitions e he).2 x hx)⟩
    refine heldBy_bundle rfl (isSealed_iff.2 ⟨?_, ?_⟩) []
    · rw [cyclic, Node.of, Kind.isSealed, Bool.and_eq_true, List.all_eq_true]
      exact ⟨Fields.has_insert_iff.2 (.inl rfl), fun e he => List.all_eq_true.2 (hall e he).2⟩
    · exact List.forall_mem_map.2 fun e he => (hall e he).1
  · rename_i hnone
    refine ⟨hresult.isAnchored, fun x hx => absurd ?_ hnone, hresult.isSealed⟩
    exact List.any_eq_true.2 ⟨x, hx, Fields.mem_names_iff.1 (hresult.references x hx)⟩

end Schemata
