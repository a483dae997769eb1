import Mathlib.Data.List.Forall2
import Schemata.Operator.Reduction
/-!
# Reducers on lists

Functions that recurse through nodes come with a companion for lists of nodes.  Each companion is a function on lists
that the library knows: it flattens, maps, asks all, or collects.
-/
namespace Schemata

theorem Node.leavesAll_eq_flatMap (ns : List Node) : leavesAll ns = ns.flatMap leaves := by
  induction ns with
  | nil => rfl
  | cons n ns ih => rw [leavesAll, ih, List.flatMap_cons]

theorem branchesAll_eq_flatMap (ns : List Node) : branchesAll ns = ns.flatMap branches := by
  induction ns with
  | nil => rfl
  | cons n ns ih => rw [branchesAll, ih, List.flatMap_cons]

theorem branchesOpenedAll_eq_flatMap (ns : List Node) : branchesOpenedAll ns = ns.flatMap branchesOpened := by
  induction ns with
  | nil => rfl
  | cons n ns ih => rw [branchesOpenedAll, ih, List.flatMap_cons]

theorem textsEach_eq_map (limit : Nat) (ns : List Node) : textsEach limit ns = ns.map (Node.texts limit) := by
  induction ns with
  | nil => rfl
  | cons n ns ih => rw [textsEach, ih, List.map_cons]

theorem LetterCase.inFragments_eq_map (letterCase : LetterCase) (ns : List Node) :
    letterCase.inFragments ns = ns.map letterCase.inFragment := by
  induction ns with
  | nil => rfl
  | cons n ns ih => rw [inFragments, ih, List.map_cons]

theorem resolvableAll_eq_all (context : Context) (ns : List Node) :
    resolvableAll context ns = ns.all (resolvable context) := by
  induction ns with
  | nil => rfl
  | cons n ns ih => rw [resolvableAll, ih, List.all_cons]

/-! ## Reducers that give a node for each -/

/-- **What is collected** is what each step gives, as long as each gives something. -/
theorem Outcome.collect?_eq_some_iff {α β : Type} {f : α → Outcome (Option β)} {xs : List α} {ys : List β} :
    collect? f xs = .done (some ys) ↔ List.Forall₂ (fun x y => f x = .done (some y)) xs ys := by
  constructor
  · intro h
    induction xs generalizing ys with
    | nil =>
      cases h
      exact .nil
    | cons x xs ih =>
      obtain ⟨r, hr, h⟩ := bind_eq_done.1 h
      cases r with
      | none => cases h
      | some y =>
        obtain ⟨rs, hrs, h⟩ := bind_eq_done.1 h
        obtain ⟨ys, rfl, rfl⟩ := Option.map_eq_some_iff.1 (Outcome.done.inj h)
        exact .cons hr (ih hrs)
  · intro h
    induction h with
    | nil => rfl
    | cons hx _ ih =>
      rw [collect?, hx, done_bind, ih]
      rfl

variable {s : Setting}

theorem Setting.openEach_eq_collect? {join : List Node → Node} {leaf follow : Node → Outcome (Option Node)}
    (ns : List Node) : s.openEach join leaf follow ns = Outcome.collect? (s.openNode join leaf follow) ns := by
  induction ns with
  | nil => rfl
  | cons n ns ih =>
    rw [openEach, ih, Outcome.collect?]
    exact bind_congr fun opened => by cases opened <;> rfl

theorem indexByEach_eq_collect? (subject : Node) (keys : List Node) :
    indexByEach s subject keys = Outcome.collect? (indexBy s subject) keys := by
  induction keys with
  | nil => rfl
  | cons key keys ih =>
    rw [indexByEach, ih, Outcome.collect?]
    exact bind_congr fun opened => by cases opened <;> rfl

theorem signaturePartEach_eq_collect? (part : SignaturePart) (ns : List Node) :
    signaturePartEach s part ns = Outcome.collect? (signaturePart s part) ns := by
  induction ns with
  | nil => rfl
  | cons n ns ih =>
    rw [signaturePartEach, ih, Outcome.collect?]
    exact bind_congr fun opened => by cases opened <;> rfl

theorem changeCaseEach_eq_collect? (letterCase : LetterCase) (ns : List Node) :
    changeCaseEach s letterCase ns = Outcome.collect? (changeCase s letterCase) ns := by
  induction ns with
  | nil => rfl
  | cons n ns ih =>
    rw [changeCaseEach, ih, Outcome.collect?]
    exact bind_congr fun opened => by cases opened <;> rfl

end Schemata
