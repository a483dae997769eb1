import Schemata.Proofs.Node.Normal
import Schemata.Proofs.Operator.Branches
import Schemata.Proofs.Operator.Compositional
/-!
# Awaited values

Promises nest in promises and unions without bound, and each union on the way is put in normal form.

- `Node.Holds`: what a node holds, through promises and unions.
- `Node.settled`: what is neither a promise nor a union of it, in order.
- `Node.unwrapPromise_cases`: what is unwrapped is the normal form of all that, or one thing that is held.

Main statement: `awaited_settles`.
-/
namespace Schemata

namespace Node

/-! ## What is held -/

/-- **What a node holds**: itself, what the item of a promise holds, and what the variants of a union hold. -/
inductive Holds : Node → Node → Prop
  | refl (n : Node) : Holds n n
  | promised {item x : Node} (m : Modifiers) (a : Annotations) (h : Holds item x) : Holds ⟨.wrapper .promise item, m, a⟩ x
  | variant {ns : List Node} {c x : Node} (m : Modifiers) (a : Annotations) (hc : c ∈ ns) (h : Holds c x) :
    Holds ⟨.union ns, m, a⟩ x

/-- **Whether a node is neither a promise nor a union.** -/
def isSettled : Node → Bool
  | ⟨.wrapper .promise _, _, _⟩ | ⟨.union _, _, _⟩ => false
  | _ => true

mutual
/-- **What promises and unions are opened to**, in order, without `never`. -/
def settled : Node → List Node
  | ⟨.wrapper .promise item, _, _⟩ => settled item
  | ⟨.union variants, _, _⟩ => settledAll variants
  | ⟨.primitive .never, _, _⟩ => []
  | n => [n]

def settledAll : List Node → List Node
  | [] => []
  | n :: ns => settled n ++ settledAll ns
end

variable {n x : Node} {ns : List Node} {m : Modifiers} {a : Annotations}

theorem settledAll_eq_flatMap (ns : List Node) : settledAll ns = ns.flatMap settled := by
  induction ns with
  | nil => rfl
  | cons n ns ih => rw [settledAll, ih, List.flatMap_cons]

theorem isSettled_or (n : Node) :
    n.isSettled = true ∨ (∃ item m a, n = ⟨.wrapper .promise item, m, a⟩) ∨ ∃ ns m a, n = ⟨.union ns, m, a⟩ := by
  obtain ⟨kind, m, a⟩ := n
  cases kind with
  | wrapper w item => cases w <;> first | exact .inl rfl | exact .inr (.inl ⟨item, m, a, rfl⟩)
  | union ns => exact .inr (.inr ⟨ns, m, a, rfl⟩)
  | _ => exact .inl rfl

theorem isUnion_of_isSettled (h : n.isSettled = true) : n.isUnion = false := by
  obtain ⟨kind, m, a⟩ := n
  cases kind <;> first | rfl | cases h

theorem settled_of_isSettled (h : n.isSettled = true) : n.settled = if n.isNever then [] else [n] := by
  obtain ⟨kind, m, a⟩ := n
  cases kind with
  | wrapper w => cases w <;> first | rfl | cases h
  | union => cases h
  | primitive p => cases p <;> rfl
  | _ => rfl

theorem settled_union (ns : List Node) (m : Modifiers) (a : Annotations) :
    settled ⟨.union ns, m, a⟩ = ns.flatMap settled := settledAll_eq_flatMap ns

/-- **What is settled of a node** is all it holds that is neither a promise nor a union, apart from `never`. -/
theorem mem_settled_iff : x ∈ n.settled ↔ n.Holds x ∧ x.isSettled = true ∧ x.isNever = false := by
  constructor
  · intro hx
    induction n using induction_on_parts with
    | node n ih =>
      rcases n.isSettled_or with hsettled | ⟨item, m, a, rfl⟩ | ⟨ns, m, a, rfl⟩
      · rw [settled_of_isSettled hsettled] at hx
        split at hx
        · cases hx
        · rename_i hnever
          cases List.mem_singleton.1 hx
          exact ⟨.refl x, hsettled, Bool.eq_false_iff.2 hnever⟩
      · exact (ih item (List.mem_singleton_self item) hx).imp_left (.promised m a)
      · rw [settled_union] at hx
        obtain ⟨c, hc, hx⟩ := List.mem_flatMap.1 hx
        exact (ih c hc hx).imp_left (.variant m a hc)
  · rintro ⟨h, hsettled, hnever⟩
    induction h with
    | refl n =>
      rw [settled_of_isSettled hsettled, hnever]
      exact List.mem_singleton_self n
    | promised m a _ ih => exact ih hsettled hnever
    | variant m a hc _ ih =>
      rw [settled_union]
      exact List.mem_flatMap.2 ⟨_, hc, ih hsettled hnever⟩

theorem Holds.isConcrete (h : n.Holds x) (hn : n.isConcrete = true) : x.isConcrete = true := by
  induction h with
  | refl => exact hn
  | promised m a _ ih => exact ih ((compositional_isConcrete.iff_parts rfl rfl).1 hn _ (List.mem_singleton_self _))
  | variant m a hc _ ih => exact ih ((compositional_isConcrete.iff_parts rfl rfl).1 hn _ hc)

theorem Holds.height_le (h : n.Holds x) : x.height ≤ n.height := by
  induction h with
  | refl => exact Nat.le_refl _
  | @promised item _ m a _ ih =>
    exact Nat.le_trans ih (Nat.le_of_lt (height_lt_of_mem_children (List.mem_singleton_self item)))
  | variant m a hc _ ih => exact Nat.le_trans ih (Nat.le_of_lt (height_lt_of_mem_children hc))

/-- A normal form is no higher than its leaves ask for. -/
theorem height_unionOf_le {k : Nat} (h : ∀ x ∈ leavesAll ns, x.height < k) (hk : 0 < k) : (unionOf ns).height ≤ k := by
  have hleaves : ∀ x ∈ distinct (leavesAll ns), x.height < k := fun x hx => h x (mem_of_mem_distinct hx)
  rw [unionOf]
  generalize distinct (leavesAll ns) = leaves at hleaves
  rcases leaves with _ | ⟨x, _ | ⟨y, more⟩⟩
  · exact height_le_of_forall (fun _ hc => absurd hc List.not_mem_nil) hk
  · exact Nat.le_of_lt (hleaves x (List.mem_singleton_self x))
  · exact height_le_of_forall hleaves hk

/-! ## Normal forms of what is settled -/

theorem isUnion_of_mem_settled (h : x ∈ n.settled) : x.isUnion = false ∧ x.isNever = false :=
  ⟨isUnion_of_isSettled (mem_settled_iff.1 h).2.1, (mem_settled_iff.1 h).2.2⟩

theorem isLeaf_of_mem_settled (h : x ∈ n.settled) : x.isLeaf = true :=
  isLeaf_of_isUnion (isUnion_of_mem_settled h).1 (isUnion_of_mem_settled h).2

theorem leavesAll_settled (n : Node) : leavesAll n.settled = n.settled := by
  rw [leavesAll_eq_flatMap, flatMap_leaves fun _ hx => isLeaf_of_mem_settled hx]

theorem branchesOpened_unionOf_settled (n : Node) : branchesOpened (unionOf n.settled) = distinct n.settled := by
  rw [branchesOpened_unionOf_of_isPlainlyNested fun x hx => isPlainlyNested_of_isUnion (isUnion_of_mem_settled hx).1,
    flatMap_branchesOpened fun _ => isUnion_of_mem_settled]

/-! ## Unwrapping -/

theorem unwrapPromiseEach_of_some {f : Node → Node} (h : ∀ c ∈ ns, unwrapPromise c = some (f c)) :
    unwrapPromiseEach ns = some (ns.map f) := by
  induction ns with
  | nil => rfl
  | cons c ns ih =>
    rw [List.forall_mem_cons] at h
    rw [unwrapPromiseEach, h.1, ih h.2]
    rfl

/-- What is neither a promise nor a union holds itself. -/
theorem unwrapPromise_of_isSettled (hn : n.isConcrete = true) (h : n.isSettled = true) : unwrapPromise n = some n := by
  have hresolved : n.isUnresolved = false := isUnresolved_of_isConcrete hn
  obtain ⟨kind, m, a⟩ := n
  cases kind with
  | wrapper w => cases w <;> first | rfl | cases h
  | union => cases h
  | _ => simp [unwrapPromise, hresolved]

/-- **Unions are joined in normal form**, whatever was put in normal form inside of them. -/
theorem unwrapPromise_union {f : Node → Node} (m : Modifiers) (a : Annotations)
    (h : ∀ c ∈ ns, unwrapPromise c = some (f c) ∧ (f c).leaves = distinct c.settled) :
    unwrapPromise ⟨.union ns, m, a⟩ = some (unionOf (settled ⟨.union ns, m, a⟩)) := by
  have hleaves : distinct (leavesAll (ns.map f)) = distinct (leavesAll (settled ⟨.union ns, m, a⟩)) := by
    rw [leavesAll_settled, settled_union, leavesAll_eq_flatMap, List.flatMap_map, List.flatMap_congr fun c hc => (h c hc).2]
    exact distinct_flatMap_distinct (fun _ _ _ => sameAs_trans) settled ns
  rw [unwrapPromise, unwrapPromiseEach_of_some fun c hc => (h c hc).1, Option.map_some, unionOf_congr hleaves]

/-- **What is unwrapped of a concrete node**, and which leaves it has: the normal form of all that is settled of it, where a
union is on the way, and otherwise the only thing that is left. -/
theorem unwrapPromise_cases (hn : n.isConcrete = true) :
    ∃ held, unwrapPromise n = some held ∧ held.leaves = distinct n.settled ∧ held.height ≤ n.height ∧
      (held = unionOf n.settled ∨ n.Holds held ∧ held.isSettled = true) := by
  induction n using induction_on_parts with
  | node n ih =>
    rcases n.isSettled_or with hsettled | ⟨item, m, a, rfl⟩ | ⟨ns, m, a, rfl⟩
    · refine ⟨n, unwrapPromise_of_isSettled hn hsettled, ?_, Nat.le_refl _, .inr ⟨.refl n, hsettled⟩⟩
      rw [leaves_of_isPlainlyNested (isPlainlyNested_of_isUnion (isUnion_of_isSettled hsettled)),
        branchesOpened_of_isUnion (isUnion_of_isSettled hsettled), settled_of_isSettled hsettled]
      split <;> rfl
    · have hitem : item ∈ (Kind.wrapper .promise item).parts := List.mem_singleton_self item
      have hconcrete := (compositional_isConcrete.iff_parts rfl rfl).1 hn item hitem
      obtain ⟨held, hunwrap, hleaves, hheight, hcases⟩ := ih item hitem hconcrete
      refine ⟨held, hunwrap, hleaves, ?_, hcases.imp_right fun h => ⟨.promised m a h.1, h.2⟩⟩
      exact Nat.le_trans hheight (Nat.le_of_lt (height_lt_of_mem_children hitem))
    · have hvariants : ∀ c ∈ ns, c.isConcrete = true := compositional_isConcrete.variants hn rfl
      choose! f hf using fun c hc => ih c hc (hvariants c hc)
      refine ⟨_, unwrapPromise_union m a fun c hc => ⟨(hf c hc).1, (hf c hc).2.1⟩, ?_, ?_, .inl rfl⟩
      · have hone := leavesAll_unionOf (settled ⟨.union ns, m, a⟩)
        rwa [leavesAll_settled, leavesAll, leavesAll, List.append_nil] at hone
      · refine height_unionOf_le (fun x hx => ?_) (height_pos _)
        rw [leavesAll_settled, settled_union] at hx
        obtain ⟨c, hc, hx⟩ := List.mem_flatMap.1 hx
        exact Nat.lt_of_le_of_lt (mem_settled_iff.1 hx).1.height_le (height_lt_of_mem_children hc)

/-- What is settled is left as it is, in normal form too. -/
theorem unwrapPromise_unionOf_settled (hn : n.isConcrete = true) :
    unwrapPromise (unionOf n.settled) = some (unionOf n.settled) := by
  have hself : ∀ x ∈ n.settled, unwrapPromise x = some x := fun x hx =>
    unwrapPromise_of_isSettled ((mem_settled_iff.1 hx).1.isConcrete hn) (mem_settled_iff.1 hx).2.1
  have hsettled : ∀ x ∈ n.settled, x.settled = [x] := fun x hx => by
    rw [settled_of_isSettled (mem_settled_iff.1 hx).2.1, (mem_settled_iff.1 hx).2.2]
    rfl
  rw [unionOf, leavesAll_settled]
  rcases hdistinct : distinct n.settled with _ | ⟨x, _ | ⟨y, more⟩⟩
  · rfl
  · exact hself x (mem_of_mem_distinct (hdistinct ▸ List.mem_singleton_self x))
  · have hmem : ∀ z ∈ x :: y :: more, z ∈ n.settled := fun z hz => mem_of_mem_distinct (hdistinct ▸ hz)
    have hunwrap := unwrapPromise_union (f := id) .plain [] fun z hz =>
      ⟨hself z (hmem z hz), by rw [hsettled z (hmem z hz), id, leaves_of_isLeaf (isLeaf_of_mem_settled (hmem z hz))]; rfl⟩
    have hnormal : unionOf (x :: y :: more) = union (x :: y :: more) := by
      rw [unionOf, leavesAll_eq_flatMap, flatMap_leaves fun z hz => isLeaf_of_mem_settled (hmem z hz), ← hdistinct,
        distinct_distinct fun _ _ _ => sameAs_trans, hdistinct]
    rw [settled_union, List.flatMap_congr fun z hz => hsettled z (hmem z hz), List.flatMap_singleton', hnormal] at hunwrap
    exact hunwrap

/-- **What is unwrapped** of a concrete node, its branches, and that it is left as it is. -/
theorem exists_unwrapPromise (hn : n.isConcrete = true) :
    ∃ held, unwrapPromise n = some held ∧ unwrapPromise held = some held ∧ branchesOpened held = distinct n.settled ∧
      held.isConcrete = true ∧ held.height ≤ n.height := by
  obtain ⟨held, hunwrap, hleaves, hheight, rfl | ⟨hholds, hsettled⟩⟩ := unwrapPromise_cases hn
  · refine ⟨_, hunwrap, unwrapPromise_unionOf_settled hn, branchesOpened_unionOf_settled n, ?_, hheight⟩
    exact compositional_isConcrete.unionOf fun x hx => (mem_settled_iff.1 hx).1.isConcrete hn
  · have hconcrete := hholds.isConcrete hn
    refine ⟨held, hunwrap, unwrapPromise_of_isSettled hconcrete hsettled, ?_, hconcrete, hheight⟩
    rw [← leaves_of_isPlainlyNested (isPlainlyNested_of_isUnion (isUnion_of_isSettled hsettled)), hleaves]

end Node

/-! ## Through the engine -/

section
variable {n held : Node}

theorem reduceEager_awaited {s : Setting} (hs : s.operator = .awaited) (n : Node) :
    reduceEager s [n] = .done (unwrapPromise n) := by
  rw [reduceEager, hs]
  rfl

theorem instantiateWith_awaited (hn : n.isConcrete = true) (hunwrap : unwrapPromise n = some held) (limits : Limits)
    (context : Context) (s : State) : instantiateWith limits context s (.awaited n) =
      if s.depth + (Node.awaited n).height ≤ limits.maxDepth then .done held
      else .failed (.depthExceeded limits.maxDepth) :=
  instantiateWith_of_reduceEager rfl (List.forall_mem_singleton.2 hn) fun t ht _ => by rw [reduceEager_awaited ht, hunwrap]

/-- **Awaiting strips every promise, and awaiting again changes nothing.**  The branches of the result are what promises and
unions lead to, all of it and nothing else, once each in order of first occurrence; none of them is a promise or a union. -/
theorem awaited_settles (hn : n.isConcrete = true) :
    ∃ out, branchesOpened out = distinct n.settled ∧
      (branchesOpened out).Pairwise (fun b c => (b == c) = false) ∧
      (∀ b ∈ branchesOpened out, n.Holds b ∧ b.isSettled = true) ∧
      (∀ x, n.Holds x → x.isSettled = true → x.isNever = false → ∃ b ∈ branchesOpened out, b = x ∨ (b == x) = true) ∧
      (∀ s : Setting, s.operator = .awaited →
        reduceEager s [n] = .done (some out) ∧ reduceEager s [out] = .done (some out)) ∧
      ∀ limits context s,
        instantiateWith limits context s (.awaited n) =
          (if s.depth + (Node.awaited n).height ≤ limits.maxDepth then .done out
            else .failed (.depthExceeded limits.maxDepth)) ∧
        (s.depth + (Node.awaited n).height ≤ limits.maxDepth →
          instantiateWith limits context s (.awaited out) = .done out) := by
  obtain ⟨out, hunwrap, hagain, hbranches, hconcrete, hheight⟩ := Node.exists_unwrapPromise hn
  refine ⟨out, hbranches, hbranches ▸ pairwise_distinct _, fun b hb => ?_, fun x hholds hsettled hnever => ?_,
    fun s hs => ?_, fun limits context s => ⟨instantiateWith_awaited hn hunwrap limits context s, fun hroom => ?_⟩⟩
  · obtain ⟨hholds, hsettled, -⟩ := Node.mem_settled_iff.1 (mem_of_mem_distinct (hbranches ▸ hb))
    exact ⟨hholds, hsettled⟩
  · rw [hbranches]
    exact exists_mem_distinct (Node.mem_settled_iff.2 ⟨hholds, hsettled, hnever⟩)
  · rw [reduceEager_awaited hs, reduceEager_awaited hs, hunwrap, hagain]
    exact ⟨rfl, rfl⟩
  · rw [Node.awaited, Node.height_deferred_singleton] at hroom
    rw [instantiateWith_awaited hconcrete hagain, if_pos (by rw [Node.awaited, Node.height_deferred_singleton]; omega)]

end

/-- Promises of unions of promises, with flags on the way, repetitions on different levels and a promise of `never`; a promise
inside of an array stays. -/
theorem awaited_settles_nested :
    let inner : Node := ⟨.wrapper .promise (.union [.number, .promise .string, .promise .never]), ⟨true, false⟩, []⟩
    let n : Node := .promise (.union [.string, .promise (.promise inner), .array (.promise .string), .promise .number])
    n.isConcrete = true ∧
      ∃ out, out = .union [.string, .number, .array (.promise .string)] ∧
        instantiateWith {} [] .initial (.awaited n) = .done out ∧
        instantiateWith {} [] .initial (.awaited out) = .done out := by
  intro inner n
  have hn : n.isConcrete = true := by decide +kernel
  have hroom : State.initial.depth + (Node.awaited n).height ≤ 512 := by decide +kernel
  have hunwrap : unwrapPromise n = some (.union [.string, .number, .array (.promise .string)]) := by with_unfolding_all rfl
  obtain ⟨out, -, -, -, -, hreduce, hinstantiate⟩ := awaited_settles hn
  obtain ⟨hdone, hagain⟩ := hinstantiate {} [] .initial
  have hout := (hreduce ⟨1, fun _ _ n => .done n, [], {}, .awaited⟩ rfl).1
  rw [reduceEager_awaited rfl, hunwrap] at hout
  cases hout
  exact ⟨hn, _, rfl, hdone.trans (if_pos hroom), hagain hroom⟩

end Schemata
