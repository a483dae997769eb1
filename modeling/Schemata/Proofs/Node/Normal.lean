import Schemata.Proofs.Node.Equivalence
import Schemata.Proofs.Node.Leaves
/-!
# Normal forms of normal forms

Where equality is transitive, leaving repetitions out twice is leaving them out once, part by part (`distinct_flatMap_distinct`)
or around a change of the elements (`distinct_map_distinct`).  A union of unions in normal form is so the union of all
variants (`Node.unionOf_unionOf`), and one of different literals keeps them all (`Node.unionOf_literals_cases`).
-/
namespace Schemata

/-! ## Repetitions -/

section
variable {α β : Type} [BEq α]

/-- **Elements that are different stay**, all of them. -/
theorem distinct_of_pairwise {xs : List α} (h : xs.Pairwise fun x y => (x == y) = false) : distinct xs = xs := by
  suffices hfrom : ∀ seen : List α, (∀ x ∈ seen, ∀ y ∈ xs, (x == y) = false) → distinctFrom seen xs = xs from
    hfrom [] fun _ hx => by cases hx
  induction h with
  | nil => exact fun _ _ => rfl
  | @cons x xs hx _ ih =>
    intro seen hseen
    have hnone : ¬ (seen.any (· == x)) = true := by
      rw [List.any_eq_true]
      rintro ⟨y, hy, hyx⟩
      rw [hseen y hy x List.mem_cons_self] at hyx
      cases hyx
    rw [distinctFrom, if_neg hnone, ih]
    intro y hy z hz
    rcases List.mem_cons.1 hy with rfl | hy
    · exact hx z hz
    · exact hseen y hy z (List.mem_cons_of_mem x hz)

/-- What is left equals nothing that was seen before. -/
theorem beq_eq_false_of_mem_distinctFrom {x y : α} {seen xs : List α} (hx : x ∈ seen) (hy : y ∈ distinctFrom seen xs) :
    (x == y) = false := by
  induction xs generalizing seen with
  | nil => cases hy
  | cons z zs ih =>
    rw [distinctFrom] at hy
    split at hy
    · exact ih hx hy
    · rename_i hz
      rcases List.mem_cons.1 hy with rfl | hy
      · exact Bool.eq_false_iff.2 fun hxy => hz (List.any_eq_true.2 ⟨x, hx, hxy⟩)
      · exact ih (List.mem_cons_of_mem z hx) hy

/-- **No element that is left equals a later one.** -/
theorem pairwise_distinct (xs : List α) : (distinct xs).Pairwise fun x y => (x == y) = false := by
  suffices h : ∀ seen, (distinctFrom seen xs).Pairwise fun x y => (x == y) = false from h []
  induction xs with
  | nil => exact fun _ => .nil
  | cons x xs ih =>
    intro seen
    rw [distinctFrom]
    split
    · exact ih seen
    · exact .cons (fun y hy => beq_eq_false_of_mem_distinctFrom List.mem_cons_self hy) (ih _)

/-- The first part of a list decides on the rest only by what was seen in it. -/
theorem distinctFrom_append_congr {ys zs : List α} (h : ∀ seen, distinctFrom seen ys = distinctFrom seen zs)
    (xs seen : List α) : distinctFrom seen (xs ++ ys) = distinctFrom seen (xs ++ zs) := by
  induction xs generalizing seen with
  | nil => exact h seen
  | cons x xs ih => rw [List.cons_append, List.cons_append, distinctFrom, distinctFrom, ih, ih]

section
variable [BEq β] (htrans : ∀ x y z : β, (x == y) = true → (y == z) = true → (x == z) = true)
include htrans

/-- **Repetitions that are left out before a change** would be left out after it, with all that was seen then seen now, as long
as equal elements are changed to equal ones. -/
theorem distinctFrom_map_distinctFrom {f : α → β} {xs : List α}
    (hf : ∀ x ∈ xs, ∀ y ∈ xs, (x == y) = true → (f x == f y) = true) (seen : List β) (before : List α)
    (hseen : ∀ y ∈ xs, before.any (· == y) = true → seen.any (· == f y) = true) (ys : List β) :
    distinctFrom seen ((distinctFrom before xs).map f ++ ys) = distinctFrom seen (xs.map f ++ ys) := by
  induction xs generalizing seen before with
  | nil => rfl
  | cons x xs ih =>
    have hrest := ih fun y hy z hz => hf y (List.mem_cons_of_mem x hy) z (List.mem_cons_of_mem x hz)
    have hchanged : ∀ y ∈ xs, (x :: before).any (· == y) = true → (f x == f y) = true ∨ seen.any (· == f y) = true :=
      fun y hy h => by
        rw [List.any_cons, Bool.or_eq_true] at h
        exact h.imp (hf x List.mem_cons_self y (List.mem_cons_of_mem x hy)) (hseen y (List.mem_cons_of_mem x hy))
    rw [List.map_cons, List.cons_append, distinctFrom.eq_def before, distinctFrom.eq_def seen (f x :: _)]
    dsimp only
    by_cases hbefore : before.any (· == x) = true
    · rw [if_pos hbefore, if_pos (hseen x List.mem_cons_self hbefore),
        hrest _ _ fun y hy => hseen y (List.mem_cons_of_mem x hy)]
    · rw [if_neg hbefore, List.map_cons, List.cons_append, distinctFrom]
      by_cases hx : seen.any (· == f x) = true
      · rw [if_pos hx, if_pos hx, hrest]
        intro y hy h
        rcases hchanged y hy h with hxy | h
        · obtain ⟨z, hz, hzx⟩ := List.any_eq_true.1 hx
          exact List.any_eq_true.2 ⟨z, hz, htrans z (f x) (f y) hzx hxy⟩
        · exact h
      · rw [if_neg hx, if_neg hx, hrest]
        intro y hy h
        rw [List.any_cons, Bool.or_eq_true]
        exact hchanged y hy h

/-- **Leaving repetitions out before or after a change** makes no difference to leaving them out after it. -/
theorem distinct_map_distinct {f : α → β} {xs : List α}
    (hf : ∀ x ∈ xs, ∀ y ∈ xs, (x == y) = true → (f x == f y) = true) :
    distinct ((distinct xs).map f) = distinct (xs.map f) := by
  have h := distinctFrom_map_distinctFrom htrans hf [] [] (fun _ _ h => h) []
  rwa [List.append_nil, List.append_nil] at h

end

section
variable (htrans : ∀ x y z : α, (x == y) = true → (y == z) = true → (x == z) = true)
include htrans

theorem distinct_distinct (xs : List α) : distinct (distinct xs) = distinct xs := by
  have h := distinct_map_distinct htrans (f := id) fun x (_ : x ∈ xs) y _ h => h
  rwa [List.map_id, List.map_id] at h

/-- **Leaving repetitions out part by part** makes no difference to leaving them out at the end. -/
theorem distinct_flatMap_distinct (f : β → List α) (xs : List β) :
    distinct (xs.flatMap fun x => distinct (f x)) = distinct (xs.flatMap f) := by
  suffices h : ∀ seen, distinctFrom seen (xs.flatMap fun x => distinct (f x)) = distinctFrom seen (xs.flatMap f) from h []
  induction xs with
  | nil => exact fun _ => rfl
  | cons x xs ih =>
    intro seen
    have hpart := distinctFrom_map_distinctFrom htrans (f := id) (fun y (_ : y ∈ f x) z _ h => h) seen []
      (fun _ _ h => by cases h) (xs.flatMap fun x => distinct (f x))
    rw [List.map_id, List.map_id] at hpart
    exact hpart.trans (distinctFrom_append_congr ih (f x) seen)

end

end

namespace Node

/-! ## Unions of unions -/

variable {ns ms : List Node}

theorem unionOf_congr (h : distinct (leavesAll ns) = distinct (leavesAll ms)) : unionOf ns = unionOf ms := by
  rw [unionOf, unionOf, h]

theorem leavesAll_unionOf (ns : List Node) : leavesAll [unionOf ns] = distinct (leavesAll ns) := by
  have hunion : unionOf ns = unionOf [union ns] :=
    unionOf_congr (by rw [leavesAll, leavesAll, List.append_nil, leaves_union, leavesAll_eq_flatMap])
  rw [hunion, leavesAll, leavesAll, List.append_nil, leaves_unionOf, leaves_union, leavesAll_eq_flatMap]

/-- **A normal form is its own normal form.** -/
theorem unionOf_unionOf (ns : List Node) : unionOf [unionOf ns] = unionOf ns :=
  unionOf_congr (by rw [leavesAll_unionOf, distinct_distinct fun _ _ _ => sameAs_trans])

/-- **Normal forms of the variants** make no difference to the normal form of the union. -/
theorem unionOf_map_unionOf (ns : List Node) : unionOf (ns.map fun n => unionOf [n]) = unionOf ns := by
  refine unionOf_congr ?_
  rw [leavesAll_eq_flatMap, leavesAll_eq_flatMap, List.flatMap_map, List.flatMap_congr fun n _ => leaves_unionOf n,
    distinct_flatMap_distinct fun _ _ _ => sameAs_trans]

/-! ## Unions of literals -/

theorem literal_beq (l l' : Literal) : (literal l == literal l') = (l == l') := by
  change sameAs _ _ = _
  rw [literal, literal, of, of, sameAs, sameKind]
  exact (Bool.and_true _).trans (Bool.and_true _)

/-- **A union of different literals** is one with all of them, in order, unless there are fewer than two. -/
theorem unionOf_literals_cases {ls : List Literal} (h : ls.Pairwise fun l l' => (l == l') = false) :
    (ls = [] ∧ unionOf (ls.map literal) = never) ∨ (∃ l, ls = [l] ∧ unionOf (ls.map literal) = literal l) ∨
      unionOf (ls.map literal) = union (ls.map literal) := by
  have hpairwise : (ls.map literal).Pairwise fun n m => (n == m) = false :=
    List.pairwise_map.2 (h.imp fun hne => (literal_beq _ _).trans hne)
  have hleaves : leavesAll (ls.map literal) = ls.map literal := by
    rw [leavesAll_eq_flatMap, flatMap_leaves]
    intro n hn
    obtain ⟨l, -, rfl⟩ := List.mem_map.1 hn
    rfl
  rw [unionOf, hleaves, distinct_of_pairwise hpairwise]
  rcases ls with _ | ⟨l, _ | ⟨l', ls⟩⟩
  · exact .inl ⟨rfl, rfl⟩
  · exact .inr (.inl ⟨l, rfl, rfl⟩)
  · exact .inr (.inr rfl)

theorem different_strings {names : List String} (h : names.Nodup) :
    (names.map Literal.string).Pairwise fun l l' => (l == l') = false :=
  List.pairwise_map.2 (h.imp fun hne => beq_eq_false_iff_ne.2 hne)

theorem map_text (names : List String) : names.map text = (names.map Literal.string).map literal := by
  rw [List.map_map]
  rfl

/-- **A union of different texts** is one with all of them, in order, unless there are fewer than two. -/
theorem unionOf_texts_cases {names : List String} (h : names.Nodup) :
    (names = [] ∧ unionOf (names.map text) = never) ∨ (∃ name, names = [name] ∧ unionOf (names.map text) = text name) ∨
      unionOf (names.map text) = union (names.map text) := by
  rw [map_text]
  rcases unionOf_literals_cases (different_strings h) with ⟨hnil, hunion⟩ | ⟨l, hone, hunion⟩ | hunion
  · exact .inl ⟨List.map_eq_nil_iff.1 hnil, hunion⟩
  · obtain ⟨name, rfl, rfl⟩ := List.map_eq_singleton_iff.1 hone
    exact .inr (.inl ⟨name, rfl, hunion⟩)
  · exact .inr (.inr hunion)

end Node
end Schemata
