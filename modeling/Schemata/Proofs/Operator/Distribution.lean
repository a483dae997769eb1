import Schemata.Proofs.Node.Normal
import Schemata.Proofs.Operator.Branches
import Schemata.Proofs.Operator.Compositional
import Schemata.Proofs.Operator.Opening
/-!
# Operators that distribute over unions

Opening a subject reduces every branch by itself and joins what comes of them in normal form.  Nested unions are joined on
every level, which makes no difference: the result is the normal form of all changed branches (`Node.onBranches`).

- `Setting.openNode_eq_onBranches`: what opening gives, where each branch is changed by one function.
- `Node.onBranches_onBranches`: one change after the other is both changes at once, though variants may become equal by the
  first change and not before.
-/
namespace Schemata

namespace Node

/-! ## Changed branches -/

/-- **A node with each of its branches changed**, in normal form if it is a union. -/
def onBranches (f : Node → Node) (n : Node) : Node :=
  if n.isUnion then unionOf ((branchesOpened n).map f) else f n

/-- **A change of branches**: it makes no unions, leaves `never` as it is, and makes it of nothing else. -/
structure KeepsBranches (f : Node → Node) : Prop where
  isUnion {b : Node} (h : b.isUnion = false) : (f b).isUnion = false
  isNever {b : Node} (h : b.isNever = false) : (f b).isNever = false
  never {b : Node} (h : b.isNever = true) : f b = b

theorem KeepsBranches.comp {f g : Node → Node} (hf : KeepsBranches f) (hg : KeepsBranches g) :
    KeepsBranches fun b => f (g b) where
  isUnion h := hf.isUnion (hg.isUnion h)
  isNever h := hf.isNever (hg.isNever h)
  never h := by rw [hg.never h, hf.never h]

variable {f g : Node → Node} {n : Node} {ns : List Node}

theorem KeepsBranches.mem_map (hf : KeepsBranches f) {x : Node} (hx : x ∈ (branchesOpened n).map f) :
    x.isUnion = false ∧ x.isNever = false := by
  obtain ⟨b, hb, rfl⟩ := List.mem_map.1 hx
  obtain ⟨hunion, hnever⟩ := isUnion_of_mem_branchesOpened hb
  exact ⟨hf.isUnion hunion, hf.isNever hnever⟩

theorem leavesAll_of_forall (h : ∀ x ∈ ns, x.isUnion = false ∧ x.isNever = false) : leavesAll ns = ns := by
  rw [leavesAll_eq_flatMap, flatMap_leaves fun x hx => isLeaf_of_isUnion (h x hx).1 (h x hx).2]

theorem leaves_onBranches (hf : KeepsBranches f) (n : Node) : (n.onBranches f).leaves = distinct ((branchesOpened n).map f) := by
  rw [onBranches]
  split
  · have h := leavesAll_unionOf ((branchesOpened n).map f)
    rwa [leavesAll_of_forall fun _ => hf.mem_map, leavesAll, leavesAll, List.append_nil] at h
  · rename_i hunion
    rw [Bool.not_eq_true] at hunion
    cases hnever : n.isNever with
    | true =>
      rw [hf.never hnever, leaves_of_isNever hnever, branchesOpened_of_isUnion hunion, hnever]
      rfl
    | false =>
      rw [branchesOpened_self hunion hnever, leaves_of_isLeaf (isLeaf_of_isUnion (hf.isUnion hunion) (hf.isNever hnever))]
      rfl

/-- **The branches of the result** are the changed branches, once each. -/
theorem branchesOpened_onBranches (hf : KeepsBranches f) (n : Node) :
    branchesOpened (n.onBranches f) = distinct ((branchesOpened n).map f) := by
  rw [onBranches]
  split
  · rw [branchesOpened_unionOf_of_isPlainlyNested fun x hx => isPlainlyNested_of_isUnion (hf.mem_map hx).1,
      flatMap_branchesOpened fun _ => hf.mem_map]
  · rename_i hunion
    rw [Bool.not_eq_true] at hunion
    cases hnever : n.isNever with
    | true =>
      rw [hf.never hnever, branchesOpened_of_isUnion hunion, hnever]
      rfl
    | false =>
      rw [branchesOpened_self hunion hnever, branchesOpened_self (hf.isUnion hunion) (hf.isNever hnever)]
      rfl

/-- Changed variants are joined as their changed branches are. -/
theorem unionOf_map_onBranches (hf : KeepsBranches f) (ns : List Node) :
    unionOf (ns.map (onBranches f)) = unionOf ((ns.flatMap branchesOpened).map f) := by
  have hall : ∀ x ∈ (ns.flatMap branchesOpened).map f, x.isUnion = false ∧ x.isNever = false := fun x hx => by
    rw [List.map_flatMap] at hx
    obtain ⟨n, -, hx⟩ := List.mem_flatMap.1 hx
    exact hf.mem_map hx
  refine unionOf_congr ?_
  rw [leavesAll_of_forall hall, leavesAll_eq_flatMap, List.flatMap_map, List.flatMap_congr fun n _ => leaves_onBranches hf n,
    distinct_flatMap_distinct fun _ _ _ => sameAs_trans, List.map_flatMap]

/-! ## One change after the other -/

/-- A change of a union in normal form is one of what it is made of. -/
theorem onBranches_unionOf (hf : KeepsBranches f) (h : ∀ x ∈ ns, x.isUnion = false ∧ x.isNever = false) :
    (unionOf ns).onBranches f = unionOf ((distinct ns).map f) := by
  have hdistinct : ∀ x ∈ distinct ns, x.isUnion = false ∧ x.isNever = false := fun x hx => h x (mem_of_mem_distinct hx)
  rw [unionOf, leavesAll_of_forall h]
  generalize distinct ns = xs at hdistinct
  rcases xs with _ | ⟨x, _ | ⟨y, more⟩⟩
  · exact hf.never rfl
  · obtain ⟨hunion, hnever⟩ := hdistinct x (List.mem_singleton_self x)
    have hone := unionOf_of_isLeaf (isLeaf_of_isUnion (hf.isUnion hunion) (hf.isNever hnever))
    show onBranches f x = unionOf [f x]
    rw [hone, onBranches, if_neg (by rw [hunion]; exact Bool.false_ne_true)]
  · have hbranches : branchesOpened (union (x :: y :: more)) = x :: y :: more :=
      (branchesOpenedAll_eq_flatMap _).trans (flatMap_branchesOpened hdistinct)
    exact congrArg (fun xs => unionOf (xs.map f)) hbranches

/-- **One change after the other is both changes at once**, where the later one makes equal nodes of what the earlier one
made equal. -/
theorem onBranches_onBranches (hf : KeepsBranches f) (hg : KeepsBranches g)
    (hequal : ∀ x ∈ (branchesOpened n).map g, ∀ y ∈ (branchesOpened n).map g, (x == y) = true → (f x == f y) = true) :
    (n.onBranches g).onBranches f = n.onBranches fun b => f (g b) := by
  cases hunion : n.isUnion with
  | false =>
    have hchanged := hg.isUnion hunion
    simp only [onBranches, hunion, hchanged, Bool.false_eq_true, if_false]
  | true =>
    have hself : leavesAll ((branchesOpened n).map fun b => f (g b)) = (branchesOpened n).map fun b => f (g b) :=
      leavesAll_of_forall fun _ => (hf.comp hg).mem_map
    have hdistinct : ∀ x ∈ (distinct ((branchesOpened n).map g)).map f, x.isUnion = false ∧ x.isNever = false := fun x hx => by
      obtain ⟨b, hb, rfl⟩ := List.mem_map.1 hx
      obtain ⟨hunion, hnever⟩ := hg.mem_map (mem_of_mem_distinct hb)
      exact ⟨hf.isUnion hunion, hf.isNever hnever⟩
    simp only [onBranches.eq_def _ n, hunion, if_true]
    rw [onBranches_unionOf hf fun _ => hg.mem_map]
    refine unionOf_congr ?_
    rw [leavesAll_of_forall hdistinct, distinct_map_distinct (fun _ _ _ => sameAs_trans) hequal, List.map_map, hself]
    rfl

/-! ## Nodes without bundles on the way -/

def isBundle (n : Node) : Bool :=
  match n.kind with
  | .cyclic .. => true
  | _ => false

/-- **Whether no bundle is reached through unions.** -/
def opensNoBundle (n : Node) : Bool := (branchesOpened n).all fun b => !b.isBundle

theorem opensNoBundle_iff : n.opensNoBundle = true ↔ ∀ b ∈ branchesOpened n, b.isBundle = false := by
  simp [opensNoBundle]

theorem opensNoBundle_variant {m : Modifiers} {a : Annotations} (h : opensNoBundle ⟨.union ns, m, a⟩ = true) {c : Node}
    (hc : c ∈ ns) : c.opensNoBundle = true := by
  rw [opensNoBundle_iff, branchesOpened, branchesOpenedAll_eq_flatMap] at h
  exact opensNoBundle_iff.2 fun b hb => h b (List.mem_flatMap.2 ⟨c, hc, hb⟩)

/-- A concrete node comes to no reference but through a bundle. -/
theorem namesShown_of_isConcrete (hn : n.isConcrete = true) (hbundle : n.opensNoBundle = true) : n.namesShown = [] := by
  induction n using induction_on_parts with
  | node n ih =>
    obtain ⟨kind, modifiers, annotations⟩ := n
    rw [namesShown_eq]
    cases kind with
    | union variants =>
      refine List.flatMap_eq_nil_iff.2 fun c hc => ?_
      exact ih c hc (compositional_isConcrete.variants hn rfl c hc) (opensNoBundle_variant hbundle hc)
    | cyclic => cases hbundle
    | ref name =>
      rw [isConcrete_eq] at hn
      cases hn
    | _ => rfl

theorem onBranches_isConcrete (hf : ∀ b, b.isConcrete = true → (f b).isConcrete = true) (hn : n.isConcrete = true) :
    (n.onBranches f).isConcrete = true := by
  rw [onBranches]
  split
  · refine compositional_isConcrete.unionOf (List.forall_mem_map.2 fun b hb => hf b ?_)
    exact compositional_isConcrete.branchesOpened hn b hb
  · exact hf n hn

end Node

/-! ## Opening -/

namespace Setting

variable {checked : Bool} {s : Setting} {leaf : Node → Outcome (Option Node)} {n : Node}

/-- **Opening gives the changed branches**, where every branch is changed by one function. -/
theorem openNode_eq_onBranches {f : Node → Node} (hf : Node.KeepsBranches f) (hbundle : n.opensNoBundle = true)
    (hleaf : ∀ b ∈ branchesOpened n, leaf b = .done (some (f b))) (hnever : ∀ b, b.isNever = true → leaf b = .done (some (f b))) :
    s.openNode Node.unionOf leaf leaf n = .done (some (n.onBranches f)) := by
  induction n using Node.induction_on_parts with
  | node n ih =>
    obtain ⟨kind, modifiers, annotations⟩ := n
    have hself : ∀ b : Node, b.isUnion = false → (∀ c ∈ branchesOpened b, leaf c = .done (some (f c))) →
        leaf b = .done (some (b.onBranches f)) := fun b hunion hb => by
      have hchanged : b.onBranches f = f b := if_neg (by rw [hunion]; exact Bool.false_ne_true)
      rw [hchanged]
      cases hn : b.isNever with
      | true => exact hnever b hn
      | false => exact hb b (Node.branchesOpened_self hunion hn ▸ List.mem_singleton_self b)
    cases kind with
    | union variants =>
      rw [branchesOpened, branchesOpenedAll_eq_flatMap] at hleaf
      have heach : ∀ c ∈ variants, s.openNode Node.unionOf leaf leaf c = .done (some (c.onBranches f)) := fun c hc =>
        ih c hc (Node.opensNoBundle_variant hbundle hc) fun b hb => hleaf b (List.mem_flatMap.2 ⟨c, hc, hb⟩)
      have hcollect := Outcome.collect?_eq_some_iff.2 (List.forall₂_map_right_iff.2 (List.forall₂_same.2 heach))
      rw [openNode, openEach_eq_collect?, hcollect, Outcome.done_bind, Option.map_some, Node.unionOf_map_onBranches hf,
        ← branchesOpenedAll_eq_flatMap]
      rfl
    | cyclic => cases hbundle
    | ref name => exact hself _ rfl hleaf
    | _ => rw [openNode] <;> first | exact hself _ rfl hleaf | simp

/-- Nothing waits where no concrete node does. -/
theorem openNode_yields_any {join : List Node → Node} (hn : n.isConcrete = true) (hbundle : n.opensNoBundle = true)
    (hleaf : ∀ b, b.isConcrete = true → (leaf b).Yields checked fun _ => True) :
    (s.openNode join leaf leaf n).Yields checked fun _ => True := by
  induction n using Node.induction_on_parts with
  | node n ih =>
    obtain ⟨kind, modifiers, annotations⟩ := n
    cases kind with
    | union variants =>
      have heach : ∀ c ∈ variants, (s.openNode join leaf leaf c).Yields checked fun _ => True := fun c hc =>
        ih c hc (compositional_isConcrete.variants hn rfl c hc) (Node.opensNoBundle_variant hbundle hc)
      rw [openNode, openEach_eq_collect?]
      exact (Outcome.yields_collect? heach).map fun _ _ => trivial
    | cyclic => cases hbundle
    | ref name => exact hleaf _ hn
    | _ => rw [openNode] <;> first | exact hleaf _ hn | simp

/-- **What is done is done for every branch.** -/
theorem leaf_of_openNode {join : List Node → Node} {out : Node} (hbundle : n.opensNoBundle = true)
    (h : s.openNode join leaf leaf n = .done (some out)) : ∀ b ∈ branchesOpened n, ∃ r, leaf b = .done (some r) := by
  induction n using Node.induction_on_parts generalizing out with
  | node n ih =>
    obtain ⟨kind, modifiers, annotations⟩ := n
    cases kind with
    | union variants =>
      rw [branchesOpened, branchesOpenedAll_eq_flatMap]
      rw [openNode, openEach_eq_collect?] at h
      obtain ⟨results, hcollect, h⟩ := Outcome.bind_eq_done.1 h
      obtain ⟨results, rfl, -⟩ := Option.map_eq_some_iff.1 (Outcome.done.inj h)
      intro b hb
      obtain ⟨c, hc, hb⟩ := List.mem_flatMap.1 hb
      obtain ⟨r, -, hr⟩ := exists_of_mem_left (Outcome.collect?_eq_some_iff.1 hcollect) hc
      exact ih c hc (Node.opensNoBundle_variant hbundle hc) hr b hb
    | cyclic => cases hbundle
    | ref name =>
      intro b hb
      cases List.mem_singleton.1 hb
      exact ⟨out, h⟩
    | _ =>
      rw [openNode] at h
      · intro b hb
        rw [Node.eq_of_mem_branchesOpened rfl hb]
        exact ⟨out, h⟩
      all_goals simp

end Setting
end Schemata
