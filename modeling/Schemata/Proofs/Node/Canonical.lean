import Mathlib.Data.List.Induction
import Schemata.Proofs.Node.Normal
/-!
# Unions are canonical

What `Node.unionOf` makes of a list of variants, said without the two steps in which it is computed.

- `Node.Opens`: reading variants from left to right, plain unions are opened, `never` is dropped and all else stays.
- `firstOccurrences`: the elements that equal none before them.
- `Node.Forms`: none, one and several variants make up `never`, the variant itself and a plain union.

Main statement: `Node.unionOf_canonical`.
-/
namespace Schemata

/-! ## First occurrences -/

section
variable {α : Type} [BEq α]

/-- **The elements that equal none before them**, in order. -/
def firstOccurrences (xs : List α) : List α :=
  (List.range xs.length).filterMap fun i => xs[i]?.filter fun x => !(xs.take i).any (· == x)

theorem firstOccurrences_concat (xs : List α) (x : α) :
    firstOccurrences (xs ++ [x]) = firstOccurrences xs ++ if xs.any (· == x) then [] else [x] := by
  have hbefore : ∀ i ∈ List.range xs.length,
      ((xs ++ [x])[i]?.filter fun y => !((xs ++ [x]).take i).any (· == y)) =
        xs[i]?.filter fun y => !(xs.take i).any (· == y) := by
    intro i hi
    have hi := List.mem_range.1 hi
    rw [List.getElem?_append_left hi, List.take_append_of_le_length (Nat.le_of_lt hi)]
  rw [firstOccurrences, List.length_append, List.length_singleton, List.range_succ, List.filterMap_append,
    List.filterMap_congr hbefore, firstOccurrences]
  simp only [List.filterMap_cons, List.filterMap_nil, List.getElem?_concat_length, List.take_left, Option.filter_some]
  cases xs.any (· == x) <;> rfl

theorem distinctFrom_concat (seen xs : List α) (x : α) : distinctFrom seen (xs ++ [x]) =
    distinctFrom seen xs ++ if (seen ++ distinctFrom seen xs).any (· == x) then [] else [x] := by
  induction xs generalizing seen with
  | nil =>
    rw [List.nil_append, distinctFrom, distinctFrom, distinctFrom, distinctFrom, List.append_nil, List.nil_append]
  | cons y ys ih =>
    rw [List.cons_append, distinctFrom, distinctFrom]
    split
    · exact ih seen
    · -- The element that is kept comes from the front of what is left to that of what was seen.
      simp only [ih, List.cons_append, List.any_append, List.any_cons, Bool.or_left_comm]

/-- **Where equality is transitive, what is left are the first occurrences**: an element that equals one left out before
equals one that is kept. -/
theorem distinct_eq_firstOccurrences (htrans : ∀ x y z : α, (x == y) = true → (y == z) = true → (x == z) = true)
    (xs : List α) : distinct xs = firstOccurrences xs := by
  induction xs using List.reverseRecOn with
  | nil => rfl
  | append_singleton xs x ih =>
    have hany : (distinct xs).any (· == x) = xs.any (· == x) := by
      rw [Bool.eq_iff_iff, List.any_eq_true, List.any_eq_true]
      constructor
      · rintro ⟨y, hy, hyx⟩
        exact ⟨y, mem_of_mem_distinct hy, hyx⟩
      · rintro ⟨y, hy, hyx⟩
        obtain ⟨z, hz, rfl | hzy⟩ := exists_mem_distinct hy
        · exact ⟨z, hz, hyx⟩
        · exact ⟨z, hz, htrans z y x hzy hyx⟩
    rw [firstOccurrences_concat, ← ih, ← hany, distinct, distinctFrom_concat, List.nil_append]
    rfl

end

namespace Node

/-! ## Opening unions -/

/-- **What a list of variants opens to**, from left to right: the variants of a plain union take its place, `never` is
dropped, and every leaf stays. -/
inductive Opens : List Node → List Node → Prop
  | nil : Opens [] []
  | union {variants rest leaves : List Node} (h : Opens (variants ++ rest) leaves) : Opens (union variants :: rest) leaves
  | never {n : Node} {rest leaves : List Node} (hn : n.isNever = true) (h : Opens rest leaves) : Opens (n :: rest) leaves
  | leaf {n : Node} {rest leaves : List Node} (hn : n.isLeaf = true) (h : Opens rest leaves) :
    Opens (n :: rest) (n :: leaves)

theorem sizeAll_append (ns ms : List Node) : sizeAll (ns ++ ms) = sizeAll ns + sizeAll ms := by
  induction ns with
  | nil => exact (Nat.zero_add _).symm
  | cons n ns ih => rw [List.cons_append, sizeAll, sizeAll, ih, Nat.add_assoc]

theorem leavesAll_append (ns ms : List Node) : leavesAll (ns ++ ms) = leavesAll ns ++ leavesAll ms := by
  rw [leavesAll_eq_flatMap, leavesAll_eq_flatMap, leavesAll_eq_flatMap, List.flatMap_append]

/-- Every list of variants opens to its leaves. -/
theorem opens_leavesAll (ns : List Node) : Opens ns (leavesAll ns) := by
  induction hsize : sizeAll ns using Nat.strong_induction_on generalizing ns with
  | _ size ih =>
    cases ns with
    | nil => exact .nil
    | cons n rest =>
      have hrest : sizeAll rest < size := by
        rw [← hsize, sizeAll]
        exact Nat.lt_add_of_pos_left n.size_pos
      rw [leavesAll]
      rcases n.isLeaf_or with hleaf | hnever | ⟨variants, rfl⟩
      · rw [leaves_of_isLeaf hleaf]
        exact .leaf hleaf (ih _ hrest rest rfl)
      · rw [leaves_of_isNever hnever]
        exact .never hnever (ih _ hrest rest rfl)
      · have hopened : sizeAll (variants ++ rest) < size := by
          rw [← hsize, sizeAll_append, sizeAll, Node.union, of, Node.size, sizeKind]
          omega
        rw [leaves_union, ← leavesAll_eq_flatMap, ← leavesAll_append]
        exact .union (ih _ hopened _ rfl)

/-- **Variants open in one way only**, to their leaves. -/
theorem opens_iff {ns leaves : List Node} : Opens ns leaves ↔ leaves = leavesAll ns := by
  constructor
  · intro h
    induction h with
    | nil => rfl
    | union _ ih => rw [ih, leavesAll, leaves_union, leavesAll_append, leavesAll_eq_flatMap]
    | never hn _ ih => rw [ih, leavesAll, leaves_of_isNever hn, List.nil_append]
    | leaf hn _ ih => rw [ih, leavesAll, leaves_of_isLeaf hn, List.singleton_append]
  · rintro rfl
    exact opens_leavesAll ns

/-- What variants open to is neither `never` nor a plain union. -/
theorem Opens.isLeaf {ns leaves : List Node} (h : Opens ns leaves) : ∀ n ∈ leaves, n.isLeaf = true := by
  induction h with
  | nil => exact fun _ hn => by cases hn
  | union _ ih => exact ih
  | never _ _ ih => exact ih
  | leaf hn _ ih => exact List.forall_mem_cons.2 ⟨hn, ih⟩

/-- Proper variants open to proper ones. -/
theorem Opens.isProper {ns leaves : List Node} (h : Opens ns leaves) (hproper : ∀ n ∈ ns, n.isProper = true) :
    ∀ n ∈ leaves, n.isProper = true := by
  rw [opens_iff] at h
  rw [h, leavesAll_eq_flatMap]
  intro x hx
  obtain ⟨n, hn, hx⟩ := List.mem_flatMap.1 hx
  exact isProper_of_mem_leaves (hproper n hn) hx

theorem ne_union_of_isLeaf {n : Node} (h : n.isLeaf = true) (ns : List Node) : n ≠ union ns := by
  rintro rfl
  cases h

/-! ## Normal forms -/

/-- **What variants make up**: `never`, the variant itself, or a plain union of at least two. -/
inductive Forms : List Node → Node → Prop
  | none : Forms [] never
  | one (n : Node) : Forms [n] n
  | many (n m : Node) (rest : List Node) : Forms (n :: m :: rest) (union (n :: m :: rest))

theorem forms_unionOf (ns : List Node) : Forms (distinct (leavesAll ns)) (unionOf ns) := by
  rw [unionOf]
  rcases distinct (leavesAll ns) with _ | ⟨n, _ | ⟨m, rest⟩⟩
  · exact .none
  · exact .one n
  · exact .many n m rest

/-- **A union of two normal forms** is the normal form of all variants. -/
theorem unionOf_append (ns ms : List Node) : unionOf (ns ++ ms) = unionOf [unionOf ns, unionOf ms] := by
  refine unionOf_congr ?_
  have hboth : leavesAll [unionOf ns, unionOf ms] = leavesAll [unionOf ns] ++ leavesAll [unionOf ms] :=
    leavesAll_append [unionOf ns] [unionOf ms]
  rw [hboth, leavesAll_unionOf, leavesAll_unionOf, leavesAll_append]
  have h := distinct_flatMap_distinct (fun _ _ _ => sameAs_trans) leavesAll [ns, ms]
  simpa only [List.flatMap_cons, List.flatMap_nil, List.append_nil] using h.symm

/-- **Unions are canonical.**  The normal form of a list of variants is made up of the first occurrences among the leaves
that they open to: none of them is `never` or a plain union, and none equals another, from the left in any case and from
either side where names are held once.  A normal form is its own normal form, and those of two lists together make up the
normal form of both. -/
theorem unionOf_canonical (xs ys : List Node) :
    (∃ leaves, Opens xs leaves ∧ Forms (firstOccurrences leaves) (unionOf xs) ∧
      (∀ n ∈ firstOccurrences leaves, n.isNever = false ∧ ∀ ns, n ≠ union ns) ∧
      (firstOccurrences leaves).Pairwise (fun n m => (n == m) = false) ∧
      ((∀ x ∈ xs, x.isProper = true) → (firstOccurrences leaves).Pairwise fun n m => (m == n) = false)) ∧
    unionOf [unionOf xs] = unionOf xs ∧
    unionOf (xs ++ ys) = unionOf [unionOf xs, unionOf ys] := by
  refine ⟨⟨leavesAll xs, opens_leavesAll xs, ?_⟩, unionOf_unionOf xs, unionOf_append xs ys⟩
  rw [← distinct_eq_firstOccurrences fun _ _ _ => sameAs_trans]
  have hopens := opens_leavesAll xs
  refine ⟨forms_unionOf xs, fun n hn => ?_, pairwise_distinct _, fun hproper => ?_⟩
  · have hleaf := hopens.isLeaf n (mem_of_mem_distinct hn)
    exact ⟨isNever_of_isLeaf hleaf, ne_union_of_isLeaf hleaf⟩
  · have hall := fun n hn => hopens.isProper hproper n (mem_of_mem_distinct hn)
    exact (pairwise_distinct (leavesAll xs)).imp_of_mem fun hn hm hne => Bool.eq_false_iff.2 fun hmn =>
      Bool.eq_false_iff.1 hne (sameAs_symm (hall _ hm) (hall _ hn) hmn)

/-- Objects that differ in the order of their properties, a nested union, and a union with a flag, which stays closed. -/
theorem unionOf_canonical_reordered :
    let point : Node := .object [("x", .number), ("y", .number)]
    let reordered : Node := .object [("y", .number), ("x", .number)]
    let flagged : Node := (union [.string, .never]).withModifiers { optional := true }
    let xs : List Node := [union [point, union [.never, .string]], reordered, flagged, .string]
    (∀ x ∈ xs, x.isProper = true) ∧ unionOf xs = union [point, .string, flagged] ∧
      ∃ leaves, Opens xs leaves ∧ (firstOccurrences leaves).Pairwise fun n m => (m == n) = false := by
  intro point reordered flagged xs
  have hproper : ∀ x ∈ xs, x.isProper = true := by decide +kernel
  obtain ⟨leaves, hopens, -, -, -, hdifferent⟩ := (unionOf_canonical xs []).1
  exact ⟨hproper, by with_unfolding_all rfl, leaves, hopens, hdifferent hproper⟩

end Node
end Schemata
