import Schemata.Comparison
import Schemata.Proofs.Node.Parts
/-!
# One comparison at a time

- `compareOver` is the comparison for which all that is nested too deep holds.  A comparison that does not come to the
  limit (`Node.WithinDepth`) answers as it does, so that it is enough to follow comparisons of every depth.
- What one comparison looks at: first the bundles, the one on the right before the one on the left, then the references,
  the one on the left before the one on the right (`fitsStep_of_bundle_right` and its companions), and only then what the
  two sides are made of (`fitsStep_of_direct`).
-/
namespace Schemata

/-! ## Comparisons that hold beyond the limit -/

/-- Comparisons nested `fuel` deep at most; what is nested deeper is taken to hold. -/
def compareOver : Nat → Comparison
  | 0 => fun _ _ _ => true
  | fuel + 1 => fitsStep (compareOver fuel)

namespace Node

/-- **The comparison of two nodes does not come to the limit**: it makes no difference whether comparisons nested deeper
hold or not. -/
def WithinDepth (left right : Node) : Prop :=
  compareOver maxComparisonDepth {} ⟨left, .left, []⟩ ⟨right, .right, []⟩ = left.fits right

instance (left right : Node) : Decidable (WithinDepth left right) := by
  unfold WithinDepth
  infer_instance

end Node

/-! ## Parts at their places -/

namespace Placed

variable (p : Placed)

theorem get?_definitions (definitions : Fields Node) (name : String) :
    (p.definitions definitions).get? name = (definitions.get? name).map (p.definition name) := by
  induction definitions with
  | nil => rfl
  | cons e rest ih =>
    rw [definitions, List.map_cons, Fields.get?_cons, Fields.get?_cons, ← definitions, ih]
    split
    · rename_i h
      rw [← h]
      rfl
    · rfl

theorem get?_properties (fields : Fields Node) (name : String) :
    (p.properties fields).get? name = (fields.get? name).map (p.property name) := by
  induction fields with
  | nil => rfl
  | cons e rest ih =>
    rw [properties, List.map_cons, Fields.get?_cons, Fields.get?_cons, ← properties, ih]
    split
    · rename_i h
      rw [← h]
      rfl
    · rfl

/-- The parts are numbered in order. -/
theorem mem_items {q : Placed} {first : Nat} {ns : List Node} :
    q ∈ p.items first ns ↔ ∃ i n, ns[i]? = some n ∧ q = p.item (first + i) n := by
  induction ns generalizing first with
  | nil => simp [items]
  | cons n ns ih =>
    rw [items, List.mem_cons, ih]
    constructor
    · rintro (rfl | ⟨i, m, hm, rfl⟩)
      · exact ⟨0, n, rfl, rfl⟩
      · exact ⟨i + 1, m, hm, by rw [Nat.add_assoc, Nat.add_comm 1]⟩
    · rintro ⟨i, m, hm, rfl⟩
      cases i with
      | zero =>
        cases hm
        exact .inl rfl
      | succ i => exact .inr ⟨i, m, hm, by rw [Nat.add_assoc, Nat.add_comm 1]⟩

end Placed

/-! ## What one comparison looks at -/

/-- Whether a node stands for another one: a bundle for its root, a reference for its definition. -/
def Kind.isIndirect {α : Type} : Kind α → Bool
  | .cyclic .. | .ref _ => true
  | _ => false

section
variable {check : Comparison} {s : Surroundings} {left right : Placed} {definitions : Fields Node} {root name : String}

theorem fitsStep_of_sameKind (h : Node.sameKind left.node.kind right.node.kind = true) :
    fitsStep check s left right = true := by
  rw [fitsStep, show Node.sameKind left.kind right.kind = true from h]
  rfl

theorem fitsStep_of_never (h : left.node.kind = .primitive .never) : fitsStep check s left right = true := by
  rw [fitsStep, Node.isNever, Node.isPrimitive_iff.2 h, Bool.or_true]
  rfl

/-- A bundle on the right is opened. -/
theorem fitsStep_of_bundle_right (hk : right.node.kind = .cyclic definitions root) :
    fitsStep check s left right =
      (Node.sameKind left.node.kind right.node.kind || left.node.isNever ||
        match definitions.get? root with
        | some target =>
          check { s with scopes := right.definitions definitions :: s.scopes } left (right.definition root target)
        | none => false) := by
  have hkind : right.kind = .cyclic definitions root := hk
  have hprimitive : ∀ p, right.node.isPrimitive p = false := fun p => by simp [Node.isPrimitive, Node.primitive?, hk]
  rw [fitsStep, hprimitive, hprimitive, Bool.or_false, Bool.or_false]
  refine congrArg _ ?_
  unfold fitsBundles
  rw [hkind]
  dsimp only
  rw [right.get?_definitions]
  cases definitions.get? root <;> rfl

/-- Then a bundle on the left. -/
theorem fitsStep_of_bundle_left (hk : left.node.kind = .cyclic definitions root)
    (hright : ∀ ds r, right.node.kind ≠ .cyclic ds r) :
    fitsStep check s left right =
      (Node.sameKind left.node.kind right.node.kind || right.node.isPrimitive .any || right.node.isPrimitive .unknown ||
        match definitions.get? root with
        | some target =>
          check { s with scopes := left.definitions definitions :: s.scopes } (left.definition root target) right
        | none => false) := by
  have hkind : left.kind = .cyclic definitions root := hk
  have hnever : left.node.isNever = false := by simp [Node.isNever, Node.isPrimitive, Node.primitive?, hk]
  rw [fitsStep, hnever, Bool.or_false]
  refine congrArg _ ?_
  unfold fitsBundles
  split
  · rename_i ds r h
    exact absurd h (hright ds r)
  · rename_i ds r h _
    cases hkind.symm.trans h
    dsimp only
    rw [left.get?_definitions]
    cases definitions.get? root <;> rfl
  · rename_i hnot _
    exact absurd hkind (hnot _ _)

/-- A reference on the left, once no bundle is to be opened. -/
theorem fitsStep_of_reference_left (hk : left.node.kind = .ref name)
    (hright : ∀ ds r, right.node.kind ≠ .cyclic ds r) :
    fitsStep check s left right =
      (Node.sameKind left.node.kind right.node.kind || right.node.isPrimitive .any || right.node.isPrimitive .unknown ||
        match s.lookup name with
        | some target => assuming check s left right target right
        | none => false) := by
  have hnever : left.node.isNever = false := by simp [Node.isNever, Node.isPrimitive, Node.primitive?, hk]
  rw [fitsStep, hnever, Bool.or_false]
  refine congrArg _ ?_
  simp only [fitsBundles, fitsReferences, Placed.kind]
  generalize left.node.kind = lkind, right.node.kind = rkind at *
  subst hk
  cases rkind <;> first | rfl | exact absurd rfl (hright _ _)

/-- A reference on the right, once neither a bundle nor a reference on the left is to be opened. -/
theorem fitsStep_of_reference_right (hk : right.node.kind = .ref name) (hleft : left.node.kind.isIndirect = false) :
    fitsStep check s left right =
      (left.node.isNever ||
        match s.lookup name with
        | some target => assuming check s left right left target
        | none => false) := by
  have hprimitive : ∀ p, right.node.isPrimitive p = false := fun p => by simp [Node.isPrimitive, Node.primitive?, hk]
  have hsame : Node.sameKind left.node.kind (.ref name) = false := by
    cases hl : left.node.kind <;> rw [hl] at hleft <;> first | exact Bool.noConfusion hleft | simp only [Node.sameKind]
  rw [fitsStep, hprimitive, hprimitive]
  simp only [fitsBundles, fitsReferences, Placed.kind, hk, hsame, Bool.false_or]
  refine congrArg _ ?_
  cases hl : left.node.kind <;> rw [hl] at hleft <;> first | rfl | exact Bool.noConfusion hleft

/-- **What the sides are made of**, once nothing is to be opened. -/
theorem fitsStep_of_direct (hleft : left.node.kind.isIndirect = false) (hright : right.node.kind.isIndirect = false) :
    fitsStep check s left right =
      (Node.sameKind left.node.kind right.node.kind || right.node.isPrimitive .any || right.node.isPrimitive .unknown ||
        left.node.isNever || left.node.isPrimitive .any || (!right.node.isNever && fitsSets check s left right)) := by
  rw [fitsStep, Bool.or_assoc _ (left.node.isPrimitive .any)]
  refine congrArg _ ?_
  have hsides : fitsBundles check s left right =
      if left.node.isPrimitive .any then true
      else if right.node.isNever then false
      else fitsSets check s left right := by
    simp only [fitsBundles, fitsReferences, Placed.kind]
    generalize left.node.kind = lkind, right.node.kind = rkind at *
    cases lkind <;> cases rkind <;> first | rfl | exact Bool.noConfusion hleft | exact Bool.noConfusion hright
  rw [hsides]
  cases left.node.isPrimitive .any <;> cases right.node.isNever <;> simp

/-! ### Unions and intersections -/

variable {ns : List Node}

/-- Every variant on the left has to fit. -/
theorem fitsSets_of_union_left (hk : left.node.kind = .union ns) :
    fitsSets check s left right = (left.items 0 ns).all fun v => check s v right := by
  simp only [fitsSets, Placed.kind, hk]

/-- Then some variant on the right has to be fit. -/
theorem fitsSets_of_union_right (hk : right.node.kind = .union ns) (hleft : ∀ vs, left.node.kind ≠ .union vs) :
    fitsSets check s left right = ((left.node.isPrimitive .boolean && coversBoolean ns) ||
      (right.items 0 ns).any fun v => check s left v) := by
  simp only [fitsSets, Placed.kind, hk]

/-- Then every member on the right. -/
theorem fitsSets_of_intersect_right (hk : right.node.kind = .intersect ns) (hleft : ∀ vs, left.node.kind ≠ .union vs) :
    fitsSets check s left right = (right.items 0 ns).all fun m => check s left m := by
  simp only [fitsSets, Placed.kind, hk]

/-- Then some member on the left has to fit, or all of them as one object. -/
theorem fitsSets_of_intersect_left (hk : left.node.kind = .intersect ns) (hunion : ∀ vs, right.node.kind ≠ .union vs)
    (hintersect : ∀ ms, right.node.kind ≠ .intersect ms) :
    fitsSets check s left right = ((left.items 0 ns).any (fun m => check s m right) ||
      match right.node.kind, gatherProperties left.place left.node with
      | .object properties, some gathered => fitsProperties check s gathered (right.properties properties)
      | _, _ => false) := by
  simp only [fitsSets, Placed.kind]
  generalize left.node.kind = lkind, right.node.kind = rkind at *
  subst hk
  cases rkind <;> first | rfl | exact absurd rfl (hunion _) | exact absurd rfl (hintersect _)

end
end Schemata
