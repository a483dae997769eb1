import Schemata.Comparison
import Schemata.Proofs.Node.Proper
import Schemata.Proofs.Operator.Lists
/-!
# Unions in normal form

The leaves of a node are what is nested in it when plain unions are opened, unions included that are plain no longer
(`Node.mem_leaves_iff`).  A union in normal form has the leaves that it is made of, once each (`Node.leaves_unionOf`).
-/
namespace Schemata
namespace Node

/-! ## Leaves -/

/-- **Whether a node stays as it is where unions are opened**: it is neither a plain union nor `never`. -/
def isLeaf : Node → Bool
  | ⟨.union _, ⟨false, false⟩, []⟩ => false
  | ⟨.primitive .never, _, _⟩ => false
  | _ => true

/-- **A node and what is nested in it**, as variants of plain unions. -/
inductive Nests : Node → Node → Prop
  | refl (n : Node) : Nests n n
  | inside {ns : List Node} {m n : Node} (hm : m ∈ ns) (h : Nests m n) : Nests (.union ns) n

variable {n m x : Node} {ns : List Node}

theorem isLeaf_or (n : Node) : n.isLeaf = true ∨ n.isNever = true ∨ ∃ ns, n = union ns := by
  obtain ⟨kind, modifiers, annotations⟩ := n
  cases kind with
  | union ns =>
    match modifiers, annotations with
    | ⟨false, false⟩, [] => exact .inr (.inr ⟨ns, rfl⟩)
    | ⟨false, false⟩, _ :: _ | ⟨true, _⟩, _ | ⟨false, true⟩, _ => exact .inl rfl
  | primitive p => cases p <;> first | exact .inl rfl | exact .inr (.inl rfl)
  | _ => exact .inl rfl

theorem isLeaf_of_ne_union (hnever : n.isNever = false) (hunion : ∀ ns, n.kind ≠ .union ns) : n.isLeaf = true := by
  rcases n.isLeaf_or with h | h | ⟨ns, rfl⟩
  · exact h
  · exact absurd h (by simp [hnever])
  · exact absurd rfl (hunion ns)

theorem isNever_of_isLeaf (h : n.isLeaf = true) : n.isNever = false := by
  cases hn : n.isNever
  · rfl
  · obtain ⟨kind, modifiers, annotations⟩ := n
    cases isPrimitive_iff.1 hn
    cases h

theorem leaves_union (ns : List Node) : (union ns).leaves = ns.flatMap leaves := by
  simp only [union, of, Modifiers.plain, leaves, leavesAll_eq_flatMap]

theorem leaves_of_isNever (h : n.isNever = true) : n.leaves = [] := by
  obtain ⟨kind, modifiers, annotations⟩ := n
  cases isPrimitive_iff.1 h
  rw [leaves]

theorem leaves_of_isLeaf (h : n.isLeaf = true) : n.leaves = [n] := by
  unfold isLeaf at h
  split at h
  · cases h
  · cases h
  · rename_i hunion hnever
    rw [leaves]
    · exact hunion
    · exact hnever

theorem mem_leaves_self (h : n.isLeaf = true) : n ∈ n.leaves := by rw [leaves_of_isLeaf h, List.mem_singleton]

theorem mem_leaves_union (hm : m ∈ ns) (hx : x ∈ m.leaves) : x ∈ (union ns).leaves := by
  rw [leaves_union]
  exact List.mem_flatMap.2 ⟨m, hm, hx⟩

/-- **The leaves of a node** are the leaves nested in it. -/
theorem mem_leaves_iff : x ∈ n.leaves ↔ n.Nests x ∧ x.isLeaf = true := by
  constructor
  · intro hx
    induction n using induction_on_parts with
    | node n ih =>
      rcases n.isLeaf_or with hleaf | hnever | ⟨ns, rfl⟩
      · rw [leaves_of_isLeaf hleaf] at hx
        cases List.mem_singleton.1 hx
        exact ⟨.refl x, hleaf⟩
      · rw [leaves_of_isNever hnever] at hx
        cases hx
      · rw [leaves_union] at hx
        obtain ⟨m, hm, hx⟩ := List.mem_flatMap.1 hx
        obtain ⟨hnests, hleaf⟩ := ih m hm hx
        exact ⟨.inside hm hnests, hleaf⟩
  · rintro ⟨h, hleaf⟩
    induction h with
    | refl n => exact mem_leaves_self hleaf
    | inside hm _ ih => exact mem_leaves_union hm (ih hleaf)

theorem Nests.trans (h : n.Nests m) (h' : m.Nests x) : n.Nests x := by
  induction h with
  | refl => exact h'
  | inside hm _ ih => exact .inside hm (ih h')

/-- What nodes hand on to their parts, they hand on to their leaves. -/
theorem Nests.induct {P : Node → Prop} (hparts : ∀ n, P n → ∀ m ∈ n.kind.parts, P m) (h : n.Nests x) (hn : P n) : P x := by
  induction h with
  | refl => exact hn
  | inside hm _ ih => exact ih (hparts _ hn _ hm)

theorem isProper_of_mem_leaves (hn : n.isProper = true) (hx : x ∈ n.leaves) : x.isProper = true :=
  (mem_leaves_iff.1 hx).1.induct (fun _ h => (isProper_iff.1 h).2.2) hn

/-! ## Unions in normal form -/

/-- **What the normal form of a node is** depends on how many leaves are left: none, one or several. -/
theorem unionOf_cases (n : Node) :
    (distinct n.leaves = [] ∧ unionOf [n] = never) ∨ (∃ x ∈ n.leaves, distinct n.leaves = [x] ∧ unionOf [n] = x) ∨
      (2 ≤ (distinct n.leaves).length ∧ unionOf [n] = union (distinct n.leaves)) := by
  have hall : leavesAll [n] = n.leaves := by rw [leavesAll, leavesAll, List.append_nil]
  rw [unionOf, hall]
  split
  · rename_i h
    exact .inl ⟨h, rfl⟩
  · rename_i x h
    exact .inr (.inl ⟨x, mem_of_mem_distinct (h ▸ List.mem_cons_self), h, rfl⟩)
  · rename_i hnil hone
    refine .inr (.inr ⟨?_, rfl⟩)
    generalize distinct n.leaves = xs at hnil hone
    cases xs with
    | nil => exact absurd rfl hnil
    | cons x xs =>
      cases xs with
      | nil => exact absurd rfl (hone x)
      | cons => exact Nat.le_add_left 2 _

theorem flatMap_leaves {xs : List Node} (h : ∀ x ∈ xs, x.isLeaf = true) : xs.flatMap leaves = xs := by
  induction xs with
  | nil => rfl
  | cons x xs ih =>
    rw [List.forall_mem_cons] at h
    rw [List.flatMap_cons, leaves_of_isLeaf h.1, ih h.2]
    rfl

/-- **A union in normal form has the leaves of its variants**, once each. -/
theorem leaves_unionOf (n : Node) : (unionOf [n]).leaves = distinct n.leaves := by
  rcases n.unionOf_cases with ⟨hd, h⟩ | ⟨x, hx, hd, h⟩ | ⟨-, h⟩ <;> rw [h]
  · rw [hd, leaves_of_isNever rfl]
  · rw [hd, leaves_of_isLeaf (mem_leaves_iff.1 hx).2]
  · rw [leaves_union, flatMap_leaves fun x hx => (mem_leaves_iff.1 (mem_of_mem_distinct hx)).2]

/-- A leaf is its own normal form. -/
theorem unionOf_of_isLeaf (h : n.isLeaf = true) : unionOf [n] = n := by
  rw [unionOf, leavesAll, leavesAll, List.append_nil, leaves_of_isLeaf h]
  rfl

theorem unionOf_of_isNever (h : n.isNever = true) : unionOf [n] = never := by
  rw [unionOf, leavesAll, leavesAll, List.append_nil, leaves_of_isNever h]
  rfl

theorem isProper_unionOf (hn : n.isProper = true) : (unionOf [n]).isProper = true := by
  rcases n.unionOf_cases with ⟨-, h⟩ | ⟨x, hx, -, h⟩ | ⟨-, h⟩ <;> rw [h]
  · exact isProper_iff.2 ⟨rfl, rfl, fun _ h => (by cases h)⟩
  · exact isProper_of_mem_leaves hn hx
  · exact isProper_iff.2 ⟨rfl, rfl, fun x hx => isProper_of_mem_leaves hn (mem_of_mem_distinct hx)⟩

end Node
end Schemata
