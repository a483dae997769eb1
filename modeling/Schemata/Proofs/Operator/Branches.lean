import Schemata.Proofs.Comparison.Relocation
import Schemata.Proofs.Node.Leaves
import Schemata.Proofs.Operator.Yields
/-!
# Filtered unions

What operators on unions keep is a union in normal form, and its branches are those that were kept, once each.

- `exclude_extract_partition`: excluding and extracting part the branches of the left operand among them, in order; a
  comparison answers alike for equal branches, so that no branch is on both sides under another order of properties.
- `nonNullable_branches`: leaving `null` and `undefined` out goes one level deep.  Those inside of a nested union stay
  (`nested_null_stays`); where there are none, and nested unions are plain, all other branches are left, once each.
-/
namespace Schemata

/-! ## Lists -/

/-- A choice before each element is opened, or among what it opens to. -/
theorem flatMap_filter {α β : Type} {p : α → Bool} {f g : α → List β} {xs : List α}
    (hkept : ∀ x ∈ xs, p x = true → f x = g x) (hdropped : ∀ x ∈ xs, p x = false → g x = []) :
    (xs.filter p).flatMap f = xs.flatMap g := by
  induction xs with
  | nil => rfl
  | cons x xs ih =>
    rw [List.forall_mem_cons] at hkept hdropped
    cases hx : p x with
    | true => rw [List.filter_cons_of_pos hx, List.flatMap_cons, List.flatMap_cons, hkept.1 hx, ih hkept.2 hdropped.2]
    | false =>
      rw [List.filter_cons_of_neg (by simp [hx]), List.flatMap_cons, hdropped.1 hx, ih hkept.2 hdropped.2]
      rfl

/-- **Leaving repetitions out before or after a choice** makes no difference where equal elements are chosen alike. -/
theorem distinct_filter {α : Type} [BEq α] {p : α → Bool} {xs : List α}
    (hp : ∀ x ∈ xs, ∀ y ∈ xs, (x == y) = true → p x = p y) : distinct (xs.filter p) = (distinct xs).filter p := by
  suffices h : ∀ seen, (∀ x ∈ seen, ∀ y ∈ xs, (x == y) = true → p x = p y) →
      distinctFrom (seen.filter p) (xs.filter p) = (distinctFrom seen xs).filter p from h [] fun _ hx => by cases hx
  induction xs with
  | nil => exact fun _ _ => rfl
  | cons x xs ih =>
    intro seen hseen
    have hrest := ih fun y hy z hz => hp y (List.mem_cons_of_mem x hy) z (List.mem_cons_of_mem x hz)
    have hseen' : ∀ y ∈ seen, ∀ z ∈ xs, (y == z) = true → p y = p z :=
      fun y hy z hz => hseen y hy z (List.mem_cons_of_mem x hz)
    have hadded : ∀ y ∈ x :: seen, ∀ z ∈ xs, (y == z) = true → p y = p z := fun y hy z hz => by
      rcases List.mem_cons.1 hy with rfl | hy
      · exact hp y List.mem_cons_self z (List.mem_cons_of_mem y hz)
      · exact hseen' y hy z hz
    have hany : p x = true → (seen.filter p).any (· == x) = seen.any (· == x) := fun hx => by
      rw [Bool.eq_iff_iff, List.any_eq_true, List.any_eq_true]
      refine exists_congr fun y => ?_
      rw [List.mem_filter, and_assoc]
      refine and_congr_right fun hy => and_iff_right_of_imp fun hyx => ?_
      rw [hseen y hy x List.mem_cons_self hyx, hx]
    cases hx : p x with
    | true =>
      rw [List.filter_cons_of_pos hx, distinctFrom, distinctFrom, hany hx]
      split
      · exact hrest seen hseen'
      · rw [List.filter_cons_of_pos hx, ← hrest (x :: seen) hadded, List.filter_cons_of_pos hx]
    | false =>
      rw [List.filter_cons_of_neg (by simp [hx]), distinctFrom]
      split
      · exact hrest seen hseen'
      · rw [List.filter_cons_of_neg (by simp [hx]), ← hrest (x :: seen) hadded, List.filter_cons_of_neg (by simp [hx])]

/-- What opens unions opens one in normal form to its leaves. -/
theorem flatMap_unionOf {f : Node → List Node} (hnever : f .never = []) (hunion : ∀ ns, f (.union ns) = ns.flatMap f)
    (variants : List Node) : f (.unionOf variants) = (distinct (Node.leavesAll variants)).flatMap f := by
  rw [Node.unionOf]
  generalize distinct (Node.leavesAll variants) = leaves
  rcases leaves with _ | ⟨n, _ | ⟨m, more⟩⟩
  · exact hnever
  · exact (List.flatMap_singleton f n).symm
  · exact hunion _

/-! ## Parting the branches -/

namespace Node

/-- Whether a node is its only branch: no union, no `boolean` and no `never`. -/
def isBranch (n : Node) : Bool :=
  match n.kind with
  | .union _ | .primitive .boolean | .primitive .never => false
  | _ => true

variable {n m : Node}

theorem branches_of_isBranch (h : n.isBranch = true) : branches n = [n] := by
  obtain ⟨kind, modifiers, annotations⟩ := n
  cases kind with
  | union => cases h
  | primitive p => cases p <;> first | rfl | cases h
  | _ => rfl

theorem leaves_of_isBranch (h : n.isBranch = true) : n.leaves = [n] := by
  obtain ⟨kind, modifiers, annotations⟩ := n
  refine leaves_of_isLeaf ?_
  cases kind with
  | union => cases h
  | primitive p => cases p <;> first | rfl | cases h
  | _ => rfl

/-- **Every branch is its only branch**, and what nodes hand on to their parts, they hand on to their branches. -/
theorem isBranch_of_mem_branches {P : Node → Prop} (htruth : ∀ b, P (.truth b))
    (hparts : ∀ n, P n → ∀ m ∈ n.children, P m) (hn : P n) (hm : m ∈ branches n) : m.isBranch = true ∧ P m := by
  induction n using induction_on_parts with
  | node n ih =>
    obtain ⟨kind, modifiers, annotations⟩ := n
    cases kind with
    | union variants =>
      rw [branches, branchesAll_eq_flatMap] at hm
      obtain ⟨c, hc, hm⟩ := List.mem_flatMap.1 hm
      exact ih c hc (hparts _ hn c hc) hm
    | primitive p =>
      cases p with
      | boolean =>
        rw [branches, List.mem_cons, List.mem_singleton] at hm
        rcases hm with rfl | rfl <;> exact ⟨rfl, htruth _⟩
      | never => cases hm
      | _ => cases List.mem_singleton.1 hm; exact ⟨rfl, hn⟩
    | _ => cases List.mem_singleton.1 hm; exact ⟨rfl, hn⟩

/-- **The branches of a normal form** are the branches that it is made of, once each. -/
theorem branches_unionOf {ns : List Node} (h : ∀ n ∈ ns, n.isBranch = true) : branches (.unionOf ns) = distinct ns := by
  have hone : ∀ {f : Node → List Node} {ms : List Node}, (∀ m ∈ ms, f m = [m]) → ms.flatMap f = ms := fun hf => by
    rw [List.flatMap_congr hf, List.flatMap_singleton']
  rw [flatMap_unionOf (f := branches) rfl branchesAll_eq_flatMap, leavesAll_eq_flatMap,
    hone fun n hn => leaves_of_isBranch (h n hn), hone fun n hn => branches_of_isBranch (h n (mem_of_mem_distinct hn))]

end Node

section
variable {s : Setting} {left right : Node}

theorem isConcrete_of_mem_branches {b : Node} (hl : left.isConcrete = true) (hb : b ∈ branches left) :
    b.isConcrete = true :=
  (Node.isBranch_of_mem_branches (P := fun n => n.isConcrete = true) (fun b => by cases b <;> decide +kernel)
    (fun _ h _ hm => isConcrete_of_mem_parts h hm) hl hb).2

/-- Equal branches fit alike, whatever the order of their properties. -/
theorem fits_eq_of_mem_branches (hl : left.isProper = true) (hexact : left.isExact = true) (hr : right.isProper = true)
    {x y : Node} (hx : x ∈ branches left) (hy : y ∈ branches left) (hxy : (x == y) = true) :
    x.fits right = y.fits right := by
  have hbranch : ∀ b ∈ branches left, b.isProper = true ∧ b.isExact = true := fun b hb => by
    refine (Node.isBranch_of_mem_branches (P := fun n => n.isProper = true ∧ n.isExact = true)
      (fun b => by cases b <;> decide +kernel) ?_ ⟨hl, hexact⟩ hb).2
    rintro n ⟨hproper, hexact⟩ m hm
    have hpart := Kind.mem_parts_of_mem_children hm
    exact ⟨(Node.isProper_iff.1 hproper).2.2 m hpart, (Node.isExact_iff.1 hexact).2 m hpart⟩
  obtain ⟨hxp, hxe⟩ := hbranch x hx
  obtain ⟨hyp, hye⟩ := hbranch y hy
  exact (Node.MatchesPart.of_sameAs hxp hyp hxe hye hxy).1.fits_eq (.refl hr)

/-- **Filtering keeps the branches that fit, or those that do not**: always, once each and in order. -/
theorem branches_filterBranches (keep : Bool) (hl : left.isConcrete = true) (hr : right.isConcrete = true)
    (hlp : left.isProper = true) (hrp : right.isProper = true) (hexact : left.isExact = true) :
    ∃ out, filterBranches s keep [left, right] = .done (some out) ∧
      branches out = (distinct (branches left)).filter fun b => b.fits right == keep := by
  refine ⟨_, if_pos ?_, ?_⟩
  · rw [Bool.and_eq_true, List.all_eq_true]
    exact ⟨hr, fun b hb => isConcrete_of_mem_branches hl hb⟩
  · have hbranch : ∀ b ∈ branches left, b.isBranch = true := fun b hb =>
      (Node.isBranch_of_mem_branches (P := fun _ => True) (fun _ => trivial) (fun _ _ _ _ => trivial) trivial hb).1
    rw [Node.branches_unionOf fun b hb => hbranch b (List.mem_filter.1 hb).1]
    exact distinct_filter fun x hx y hy hxy => by rw [fits_eq_of_mem_branches hlp hexact hrp hx hy hxy]

/-- **Excluding and extracting part the branches** of the left operand among them: both are always done, each branch is
in one of the results and not in the other, in order, and no branch of the one equals one of the other. -/
theorem exclude_extract_partition (hl : left.isConcrete = true) (hr : right.isConcrete = true)
    (hlp : left.isProper = true) (hrp : right.isProper = true) (hexact : left.isExact = true) :
    ∃ excluded extracted, reduceEager { s with operator := .exclude } [left, right] = .done (some excluded) ∧
      reduceEager { s with operator := .extract } [left, right] = .done (some extracted) ∧
      branches excluded = (distinct (branches left)).filter (fun b => !b.fits right) ∧
      branches extracted = (distinct (branches left)).filter (fun b => b.fits right) ∧
      ∀ x ∈ branches excluded, ∀ y ∈ branches extracted, (x == y) = false := by
  obtain ⟨excluded, hexcluded, hout⟩ :=
    branches_filterBranches (s := { s with operator := .exclude }) false hl hr hlp hrp hexact
  obtain ⟨extracted, hextracted, hin⟩ :=
    branches_filterBranches (s := { s with operator := .extract }) true hl hr hlp hrp hexact
  simp only [beq_false, beq_true] at hout hin
  refine ⟨excluded, extracted, hexcluded, hextracted, hout, hin, fun x hx y hy => ?_⟩
  rw [hout, List.mem_filter] at hx
  rw [hin, List.mem_filter] at hy
  refine Bool.eq_false_iff.2 fun hxy => ?_
  have hfits := fits_eq_of_mem_branches hlp hexact hrp (mem_of_mem_distinct hx.1) (mem_of_mem_distinct hy.1) hxy
  rw [hfits, hy.2] at hx
  cases hx.2

/-- A nested union with repetitions: the same object with its properties in another order, and a truth value twice. -/
theorem exclude_extract_partition_nested :
    let left : Node := .union [.object [("a", .string), ("b", .number)], .union [.boolean, .text "x", .never],
      .object [("b", .number), ("a", .string)], .truth true, .null]
    let right : Node := .union [.object [("a", .unknown)], .truth true]
    left.isConcrete = true ∧ right.isConcrete = true ∧ left.isProper = true ∧ right.isProper = true ∧
      left.isExact = true ∧
      ∃ excluded extracted,
        reduceEager ⟨1, fun _ _ n => .done n, [], {}, .exclude⟩ [left, right] = .done (some excluded) ∧
        reduceEager ⟨1, fun _ _ n => .done n, [], {}, .extract⟩ [left, right] = .done (some extracted) ∧
        branches excluded = [.truth false, .text "x", .null] ∧
        branches extracted = [.object [("a", .string), ("b", .number)], .truth true] := by
  intro left right
  have hl : left.isConcrete = true := by decide +kernel
  have hr : right.isConcrete = true := by decide +kernel
  have hlp : left.isProper = true := by decide +kernel
  have hrp : right.isProper = true := by decide +kernel
  have hexact : left.isExact = true := by decide +kernel
  refine ⟨hl, hr, hlp, hrp, hexact, ?_⟩
  obtain ⟨excluded, extracted, hexcluded, hextracted, hout, hin, -⟩ :=
    exclude_extract_partition (s := ⟨1, fun _ _ n => .done n, [], {}, .exclude⟩) hl hr hlp hrp hexact
  refine ⟨excluded, extracted, hexcluded, hextracted, hout.trans ?_, hin.trans ?_⟩
  · with_unfolding_all rfl
  · with_unfolding_all rfl

end

/-! ## Leaving out `null` and `undefined` -/

namespace Node

def isNullish (n : Node) : Bool := n.isPrimitive .null || n.isPrimitive .undefined

def isUnion (n : Node) : Bool :=
  match n.kind with
  | .union _ => true
  | _ => false

mutual
/-- Whether a node and the unions nested in it are plain, as far as they are unions. -/
def isPlainlyNested : Node → Bool
  | ⟨.union variants, ⟨false, false⟩, []⟩ => allPlainlyNested variants
  | ⟨.union _, _, _⟩ => false
  | _ => true

def allPlainlyNested : List Node → Bool
  | [] => true
  | n :: ns => n.isPlainlyNested && allPlainlyNested ns
end

variable {n m b : Node} {ns : List Node}

theorem allPlainlyNested_eq_all (ns : List Node) : allPlainlyNested ns = ns.all isPlainlyNested := by
  induction ns with
  | nil => rfl
  | cons n ns ih => rw [allPlainlyNested, ih, List.all_cons]

theorem branchesOpened_of_isUnion (h : n.isUnion = false) :
    branchesOpened n = if n.isNever then [] else [n] := by
  obtain ⟨kind, modifiers, annotations⟩ := n
  cases kind with
  | union => cases h
  | primitive p => cases p <;> rfl
  | _ => rfl

theorem branchesOpened_self (hunion : n.isUnion = false) (hnever : n.isNever = false) : branchesOpened n = [n] := by
  rw [branchesOpened_of_isUnion hunion, hnever]
  rfl

theorem flatMap_branchesOpened (h : ∀ n ∈ ns, n.isUnion = false ∧ n.isNever = false) : ns.flatMap branchesOpened = ns := by
  rw [List.flatMap_congr fun n hn => branchesOpened_self (h n hn).1 (h n hn).2, List.flatMap_singleton']

theorem isLeaf_of_isUnion (hunion : n.isUnion = false) (hnever : n.isNever = false) : n.isLeaf = true := by
  refine isLeaf_of_ne_union hnever fun ns hk => ?_
  rw [isUnion, hk] at hunion
  cases hunion

/-- What is opened is no union and no `never`. -/
theorem isUnion_of_mem_branchesOpened (h : b ∈ branchesOpened n) : b.isUnion = false ∧ b.isNever = false := by
  induction n using induction_on_parts with
  | node n ih =>
    cases hunion : n.isUnion with
    | true =>
      obtain ⟨kind, modifiers, annotations⟩ := n
      cases kind with
      | union variants =>
        rw [branchesOpened, branchesOpenedAll_eq_flatMap] at h
        obtain ⟨c, hc, h⟩ := List.mem_flatMap.1 h
        exact ih c hc h
      | _ => cases hunion
    | false =>
      rw [branchesOpened_of_isUnion hunion] at h
      split at h
      · cases h
      · rename_i hnever
        rw [List.mem_singleton.1 h]
        exact ⟨hunion, Bool.eq_false_iff.2 hnever⟩

/-- Leaves are opened on the way to the branches. -/
theorem flatMap_branchesOpened_leaves (n : Node) : n.leaves.flatMap branchesOpened = branchesOpened n := by
  induction n using induction_on_parts with
  | node n ih =>
    rcases n.isLeaf_or with hleaf | hnever | ⟨variants, rfl⟩
    · rw [leaves_of_isLeaf hleaf, List.flatMap_singleton]
    · obtain ⟨kind, modifiers, annotations⟩ := n
      cases isPrimitive_iff.1 hnever
      rfl
    · have hparts : variants.flatMap (fun c => c.leaves.flatMap branchesOpened) = variants.flatMap branchesOpened :=
        List.flatMap_congr ih
      rw [leaves_union, List.flatMap_assoc, hparts]
      exact (branchesOpenedAll_eq_flatMap variants).symm

theorem isPlainlyNested_of_isUnion (h : n.isUnion = false) : n.isPlainlyNested = true := by
  obtain ⟨kind, modifiers, annotations⟩ := n
  cases kind <;> first | rfl | cases h

theorem isUnion_of_isPlainlyNested (h : n.isPlainlyNested = true) (hleaf : n.isLeaf = true) : n.isUnion = false := by
  unfold isPlainlyNested at h
  split at h
  · cases hleaf
  · cases h
  · rename_i hother
    obtain ⟨kind, modifiers, annotations⟩ := n
    cases kind <;> first | rfl | exact (hother _ _ _ rfl).elim

theorem leaves_of_isPlainlyNested (h : n.isPlainlyNested = true) : n.leaves = branchesOpened n := by
  induction n using induction_on_parts with
  | node n ih =>
    rcases n.isLeaf_or with hleaf | hnever | ⟨variants, rfl⟩
    · rw [leaves_of_isLeaf hleaf, branchesOpened_of_isUnion (isUnion_of_isPlainlyNested h hleaf),
        isNever_of_isLeaf hleaf]
      rfl
    · rw [leaves_of_isNever hnever, branchesOpened_of_isUnion, hnever]
      · rfl
      · rw [isUnion, isPrimitive_iff.1 hnever]
    · have hvariants : ∀ c ∈ variants, c.isPlainlyNested = true := List.all_eq_true.1 (allPlainlyNested_eq_all _ ▸ h)
      have hparts : variants.flatMap leaves = variants.flatMap branchesOpened :=
        List.flatMap_congr fun c hc => ih c hc (hvariants c hc)
      exact (leaves_union variants).trans (hparts.trans (branchesOpenedAll_eq_flatMap variants).symm)

/-- Equal nodes have equal branches. -/
theorem exists_mem_branchesOpened_of_sameAs (h : m.sameAs n = true) (hb : b ∈ branchesOpened n) :
    ∃ b' ∈ branchesOpened m, (b' == b) = true := by
  induction n using induction_on_parts generalizing m with
  | node n ih =>
    have hkind := (sameAs_iff.1 h).1
    cases hunion : n.isUnion with
    | true =>
      obtain ⟨kind, modifiers, annotations⟩ := n
      obtain ⟨kind', modifiers', annotations'⟩ := m
      cases hkind with
      | @union ms ns hs =>
        rw [branchesOpened, branchesOpenedAll_eq_flatMap] at hb ⊢
        obtain ⟨c, hc, hb⟩ := List.mem_flatMap.1 hb
        obtain ⟨d, hd, hdc⟩ := exists_of_mem_right hs hc
        obtain ⟨b', hb', heq⟩ := ih c hc hdc hb
        exact ⟨b', List.mem_flatMap.2 ⟨d, hd, hb'⟩, heq⟩
      | _ => cases hunion
    | false =>
      have hforms : m.isUnion = n.isUnion ∧ m.isNever = n.isNever := by
        unfold isUnion isNever isPrimitive primitive?
        generalize m.kind = k, n.kind = k' at hkind
        cases hkind <;> exact ⟨rfl, rfl⟩
      rw [branchesOpened_of_isUnion (hforms.1.trans hunion), hforms.2]
      rw [branchesOpened_of_isUnion hunion] at hb
      split at hb
      · cases hb
      · rename_i hnever
        rw [if_neg hnever, List.mem_singleton.1 hb]
        exact ⟨m, List.mem_singleton_self m, h⟩

/-! ### Branches of normal forms -/

variable {vs : List Node}

theorem branchesOpened_unionOf (vs : List Node) :
    branchesOpened (.unionOf vs) = (distinct (leavesAll vs)).flatMap branchesOpened :=
  flatMap_unionOf (f := branchesOpened) rfl branchesOpenedAll_eq_flatMap vs

theorem flatMap_branchesOpened_leavesAll (vs : List Node) :
    (leavesAll vs).flatMap branchesOpened = vs.flatMap branchesOpened := by
  rw [leavesAll_eq_flatMap, List.flatMap_assoc, List.flatMap_congr fun n _ => flatMap_branchesOpened_leaves n]

/-- Nothing is added by normalizing. -/
theorem mem_of_mem_branchesOpened_unionOf (h : b ∈ branchesOpened (.unionOf vs)) : b ∈ vs.flatMap branchesOpened := by
  rw [branchesOpened_unionOf] at h
  obtain ⟨x, hx, hb⟩ := List.mem_flatMap.1 h
  rw [← flatMap_branchesOpened_leavesAll]
  exact List.mem_flatMap.2 ⟨x, mem_of_mem_distinct hx, hb⟩

/-- Nothing is lost by normalizing: of each branch one is left that is the same or equals it. -/
theorem exists_mem_branchesOpened_unionOf (h : b ∈ vs.flatMap branchesOpened) :
    ∃ b' ∈ branchesOpened (.unionOf vs), b' = b ∨ (b' == b) = true := by
  rw [← flatMap_branchesOpened_leavesAll] at h
  obtain ⟨x, hx, hb⟩ := List.mem_flatMap.1 h
  obtain ⟨y, hy, hyx⟩ := exists_mem_distinct hx
  rw [branchesOpened_unionOf]
  rcases hyx with rfl | hyx
  · exact ⟨b, List.mem_flatMap.2 ⟨y, hy, hb⟩, .inl rfl⟩
  · obtain ⟨b', hb', heq⟩ := exists_mem_branchesOpened_of_sameAs hyx hb
    exact ⟨b', List.mem_flatMap.2 ⟨y, hy, hb'⟩, .inr heq⟩

/-- Where nested unions are plain, a normal form has its branches once each. -/
theorem branchesOpened_unionOf_of_isPlainlyNested (h : ∀ v ∈ vs, v.isPlainlyNested = true) :
    branchesOpened (.unionOf vs) = distinct (vs.flatMap branchesOpened) := by
  have hleaves : leavesAll vs = vs.flatMap branchesOpened := by
    rw [leavesAll_eq_flatMap]
    exact List.flatMap_congr fun v hv => leaves_of_isPlainlyNested (h v hv)
  rw [branchesOpened_unionOf, hleaves]
  refine flatMap_branchesOpened fun b hb => ?_
  obtain ⟨v, -, hb⟩ := List.mem_flatMap.1 (mem_of_mem_distinct hb)
  exact isUnion_of_mem_branchesOpened hb

theorem isNullish_eq_of_sameAs (h : m.sameAs n = true) : m.isNullish = n.isNullish := by
  have hkind := (sameAs_iff.1 h).1
  unfold isNullish isPrimitive primitive?
  generalize m.kind = k, n.kind = k' at hkind
  cases hkind <;> rfl

theorem isUnion_of_isNullish (h : n.isNullish = true) : n.isUnion = false := by
  obtain ⟨kind, modifiers, annotations⟩ := n
  cases kind <;> first | rfl | cases h

/-- The branches of a node are those of its variants. -/
theorem branchesOpened_eq_flatMap_variantsOf (n : Node) : branchesOpened n = (variantsOf n).flatMap branchesOpened := by
  obtain ⟨kind, modifiers, annotations⟩ := n
  cases kind with
  | union variants => exact branchesOpenedAll_eq_flatMap variants
  | _ => exact (List.flatMap_singleton _ _).symm

theorem eq_of_mem_branchesOpened (hv : n.isUnion = false) (hb : b ∈ branchesOpened n) : b = n := by
  rw [branchesOpened_of_isUnion hv] at hb
  split at hb
  · cases hb
  · exact List.mem_singleton.1 hb

theorem isNullish_of_mem_branchesOpened (hn : n.isNullish = true) (hb : b ∈ branchesOpened n) :
    b.isNullish = true := by
  rwa [eq_of_mem_branchesOpened (isUnion_of_isNullish hn) hb]

/-! ### The variants that stay -/

/-- The variants that are neither `null` nor `undefined`, of which `reduceEager_nonNullable` makes the result. -/
def keptVariants (n : Node) : List Node := (variantsOf n).filter fun v => !v.isNullish

theorem mem_keptVariants {v : Node} : v ∈ n.keptVariants ↔ v ∈ variantsOf n ∧ v.isNullish = false := by
  rw [keptVariants, List.mem_filter, Bool.not_eq_true']

theorem exists_variant_of_mem_branchesOpened (h : b ∈ branchesOpened (.unionOf n.keptVariants)) :
    ∃ v ∈ variantsOf n, v.isNullish = false ∧ b ∈ branchesOpened v := by
  obtain ⟨v, hv, hb⟩ := List.mem_flatMap.1 (mem_of_mem_branchesOpened_unionOf h)
  obtain ⟨hv, hnullish⟩ := mem_keptVariants.1 hv
  exact ⟨v, hv, hnullish, hb⟩

theorem exists_branch_of_mem_variantsOf {v : Node} (hv : v ∈ variantsOf n) (hnullish : v.isNullish = false)
    (hb : b ∈ branchesOpened v) : ∃ b' ∈ branchesOpened (.unionOf n.keptVariants), b' = b ∨ (b' == b) = true :=
  exists_mem_branchesOpened_unionOf (List.mem_flatMap.2 ⟨v, mem_keptVariants.2 ⟨hv, hnullish⟩, hb⟩)

theorem mem_branchesOpened_of_kept (h : b ∈ branchesOpened (.unionOf n.keptVariants)) : b ∈ branchesOpened n := by
  obtain ⟨v, hv, -, hb⟩ := exists_variant_of_mem_branchesOpened h
  rw [branchesOpened_eq_flatMap_variantsOf]
  exact List.mem_flatMap.2 ⟨v, hv, hb⟩

theorem exists_kept_of_mem_branchesOpened (h : b ∈ branchesOpened n) (hb : b.isNullish = false) :
    ∃ b' ∈ branchesOpened (.unionOf n.keptVariants), b' = b ∨ (b' == b) = true := by
  rw [branchesOpened_eq_flatMap_variantsOf] at h
  obtain ⟨v, hv, h⟩ := List.mem_flatMap.1 h
  refine exists_branch_of_mem_variantsOf hv (Bool.eq_false_iff.2 fun hnullish => ?_) h
  rw [isNullish_of_mem_branchesOpened hnullish h] at hb
  cases hb

/-- What is left of `null` and `undefined` is inside of the unions among the variants. -/
theorem kept_not_nullish_iff :
    (∀ b ∈ branchesOpened (.unionOf n.keptVariants), b.isNullish = false) ↔
      ∀ v ∈ variantsOf n, v.isUnion = true → ∀ b ∈ branchesOpened v, b.isNullish = false := by
  constructor
  · intro h v hv hunion b hb
    have hnullish : v.isNullish = false := Bool.eq_false_iff.2 fun hnullish => by
      rw [isUnion_of_isNullish hnullish] at hunion
      cases hunion
    obtain ⟨b', hb', heq⟩ := exists_branch_of_mem_variantsOf hv hnullish hb
    rcases heq with rfl | heq
    · exact h b' hb'
    · rw [← isNullish_eq_of_sameAs heq]
      exact h b' hb'
  · intro h b hb
    obtain ⟨v, hv, hnullish, hb⟩ := exists_variant_of_mem_branchesOpened hb
    cases hunion : v.isUnion with
    | true => exact h v hv hunion b hb
    | false => rwa [eq_of_mem_branchesOpened hunion hb]

/-- The choice among the variants is one among the branches where the unions among them have nothing to leave out. -/
theorem flatMap_keptVariants
    (h : ∀ v ∈ variantsOf n, v.isUnion = true → ∀ b ∈ branchesOpened v, b.isNullish = false) :
    n.keptVariants.flatMap branchesOpened = (branchesOpened n).filter fun b => !b.isNullish := by
  rw [branchesOpened_eq_flatMap_variantsOf n, List.filter_flatMap, keptVariants]
  refine flatMap_filter (fun v hv hkept => ?_) fun v hv hdropped => ?_
  · refine (List.filter_eq_self.2 fun b hb => ?_).symm
    cases hunion : v.isUnion with
    | true => rw [h v hv hunion b hb, Bool.not_false]
    | false => rwa [eq_of_mem_branchesOpened hunion hb]
  · have hnullish : v.isNullish = true := by rwa [Bool.not_eq_false'] at hdropped
    refine List.filter_eq_nil_iff.2 fun b hb => ?_
    rw [isNullish_of_mem_branchesOpened hnullish hb]
    exact Bool.false_ne_true

theorem isPlainlyNested_of_mem_keptVariants {v : Node}
    (h : ∀ v ∈ variantsOf n, v.isUnion = true → v.isPlainlyNested = true) (hv : v ∈ n.keptVariants) :
    v.isPlainlyNested = true := by
  cases hunion : v.isUnion with
  | true => exact h v (mem_keptVariants.1 hv).1 hunion
  | false => exact isPlainlyNested_of_isUnion hunion

end Node

theorem reduceEager_nonNullable {s : Setting} (hs : s.operator = .nonNullable) {subject : Node}
    (hc : subject.isConcrete = true) : reduceEager s [subject] = .done (some (.unionOf subject.keptVariants)) := by
  rw [reduceEager, hs]
  exact if_neg (by simp [isUnresolved_of_isConcrete hc])

/-- **Nothing is left out but `null` and `undefined`**, and these one level deep.

- The result has no branch that the subject does not have.
- Of each branch that is neither `null` nor `undefined` one is left that is the same or equals it.
- No branch is `null` or `undefined` if and only if none is in a union among the variants.
- If none is, and nested unions are plain, the branches are all others, once each and in order. -/
theorem nonNullable_branches {s : Setting} (hs : s.operator = .nonNullable) {subject : Node}
    (hc : subject.isConcrete = true) :
    ∃ out, reduceEager s [subject] = .done (some out) ∧
      (∀ b ∈ branchesOpened out, b ∈ branchesOpened subject) ∧
      (∀ b ∈ branchesOpened subject, b.isNullish = false → ∃ b' ∈ branchesOpened out, b' = b ∨ (b' == b) = true) ∧
      ((∀ b ∈ branchesOpened out, b.isNullish = false) ↔
        ∀ v ∈ variantsOf subject, v.isUnion = true → ∀ b ∈ branchesOpened v, b.isNullish = false) ∧
      ((∀ v ∈ variantsOf subject, v.isUnion = true →
          v.isPlainlyNested = true ∧ ∀ b ∈ branchesOpened v, b.isNullish = false) →
        branchesOpened out = distinct ((branchesOpened subject).filter fun b => !b.isNullish)) := by
  refine ⟨_, reduceEager_nonNullable hs hc, fun b hb => Node.mem_branchesOpened_of_kept hb,
    fun b hb hnullish => Node.exists_kept_of_mem_branchesOpened hb hnullish, Node.kept_not_nullish_iff, fun h => ?_⟩
  rw [Node.branchesOpened_unionOf_of_isPlainlyNested fun v hv =>
    Node.isPlainlyNested_of_mem_keptVariants (fun v hv hunion => (h v hv hunion).1) hv]
  exact congrArg distinct (Node.flatMap_keptVariants fun v hv hunion => (h v hv hunion).2)

/-- A union with a plain one inside of it, which has neither `null` nor `undefined`. -/
theorem nonNullable_branches_nested :
    let subject : Node := .union [.null, .union [.string, .union [.number, .never]], .undefined, .string]
    subject.isConcrete = true ∧
      (∀ v ∈ variantsOf subject, v.isUnion = true →
        v.isPlainlyNested = true ∧ ∀ b ∈ branchesOpened v, b.isNullish = false) ∧
      ∃ out, reduceEager ⟨1, fun _ _ n => .done n, [], {}, .nonNullable⟩ [subject] = .done (some out) ∧
        branchesOpened out = [.string, .number] ∧ ∀ b ∈ branchesOpened out, b.isNullish = false := by
  intro subject
  have hc : subject.isConcrete = true := by decide +kernel
  have hplain : ∀ v ∈ variantsOf subject, v.isUnion = true →
      v.isPlainlyNested = true ∧ ∀ b ∈ branchesOpened v, b.isNullish = false := by decide +kernel
  obtain ⟨out, hreduce, -, -, hnone, hbranches⟩ :=
    nonNullable_branches (s := ⟨1, fun _ _ n => .done n, [], {}, .nonNullable⟩) rfl hc
  refine ⟨hc, hplain, out, hreduce, (hbranches hplain).trans ?_, hnone.2 fun v hv hunion => (hplain v hv hunion).2⟩
  with_unfolding_all rfl

/-- `null` inside of a nested union stays. -/
theorem nested_null_stays :
    let subject : Node := .union [.string, .union [.null, .number]]
    instantiate {} [] (.nonNullable subject) = .done (.union [.string, .null, .number]) ∧
      ¬ ∀ b ∈ branchesOpened (.union [.string, .null, .number]), b.isNullish = false := by
  refine ⟨by with_unfolding_all rfl, by decide +kernel⟩

end Schemata
