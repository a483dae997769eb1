import Schemata.Proofs.Json.Tree
import Schemata.Proofs.Node.Parts
/-!
# Nodes that can be built

`Node.isProper`: what the fields of a record guarantee, names held once and annotations in order, all through a node.
-/
namespace Schemata

/-- Whether a form holds every name once, and its options in order. -/
def Kind.isProper {α : Type} : Kind α → Bool
  | .object properties => decide (properties.map Prod.fst).Nodup
  | .cyclic definitions _ => decide (definitions.map Prod.fst).Nodup
  | .deferred _ _ options => Json.isOrdered (.object options)
  | _ => true

/-- **Whether all fields of a node are distinct** and all its annotations and options in order, throughout. -/
def Node.isProper (n : Node) : Bool :=
  n.kind.isProper && Json.isOrdered (.object n.annotations) && n.kind.parts.attach.all fun ⟨c, _⟩ => c.isProper
termination_by n.size
decreasing_by exact size_lt_of_mem_parts ‹_›

theorem Node.isProper_iff {n : Node} : n.isProper = true ↔ n.kind.isProper = true ∧
    Json.isOrdered (.object n.annotations) = true ∧ ∀ c ∈ n.kind.parts, c.isProper = true := by
  rw [isProper]
  simp [and_assoc]

theorem Kind.distinct_of_object {α : Type} {fields : Fields α} (h : (Kind.object fields).isProper = true) :
    fields.Distinct := by
  simpa only [Fields.Distinct, isProper, decide_eq_true_eq] using h

theorem Kind.distinct_of_cyclic {α : Type} {fields : Fields α} {root : String}
    (h : (Kind.cyclic fields root).isProper = true) : fields.Distinct := by
  simpa only [Fields.Distinct, isProper, decide_eq_true_eq] using h

end Schemata
