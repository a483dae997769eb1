import Mathlib.Algebra.BigOperators.Ring.List
import Mathlib.Algebra.GroupWithZero.Nat
import Mathlib.Logic.Relation
import Schemata.Proofs.Operator.Yields
/-!
# Templates as combinations

What `expand` lists are the combinations of one value of each fragment, as long as there are no more than the limit.

- `Node.values`: the values of a fragment in order, whatever the limit; `Node.IsPending` and `Node.IsEndless` say which
  fragments have no such list, by what they are made of.
- `Choices`: the places of one value in each list, in lexicographic order (`exists_choices`).
- `Combinations`: the texts put together so far, and whether there were too many.  One more part keeps them within the
  limit (`Combinations.length_add_le`), and so does every run (`Combinations.length_run_le`).

Main statement: `expand_combinations`.
-/
namespace Schemata

open Relation (ReflTransGen)

/-! ## Choices -/

/-- **All choices of one number below each bound**, each of them once and in lexicographic order. -/
structure Choices (bounds : List Nat) (picks : List (List Nat)) : Prop where
  complete : ∀ pick, pick ∈ picks ↔ List.Forall₂ (· < ·) pick bounds
  ordered : picks.Pairwise (List.Lex (· < ·))

/-- The text that a choice of places in lists puts together. -/
def pickText (lists : List (List String)) (pick : List Nat) : String :=
  String.join (List.zipWith (fun values i => values.getD i "") lists pick)

/-- **All texts put together from one text of each list**, those that begin alike next to each other. -/
def concatenations : List (List String) → List String
  | [] => [""]
  | values :: lists => values.flatMap fun value => (concatenations lists).map (value ++ ·)

theorem length_concatenations (lists : List (List String)) :
    (concatenations lists).length = (lists.map List.length).prod := by
  induction lists with
  | nil => rfl
  | cons values lists ih =>
    rw [concatenations, List.length_flatMap, List.map_cons, List.prod_cons, ← ih]
    simp

theorem Choices.cons {bounds : List Nat} {picks : List (List Nat)} (h : Choices bounds picks) (bound : Nat) :
    Choices (bound :: bounds) ((List.range bound).flatMap fun i => picks.map (i :: ·)) := by
  constructor
  · intro pick
    simp only [List.mem_flatMap, List.mem_map, List.mem_range, h.complete]
    constructor
    · rintro ⟨i, hi, pick, hpick, rfl⟩
      exact .cons hi hpick
    · rintro (_ | ⟨hi, hpick⟩)
      exact ⟨_, hi, _, hpick, rfl⟩
  · rw [List.pairwise_flatMap]
    refine ⟨fun i _ => List.pairwise_map.2 (h.ordered.imp .cons), List.pairwise_lt_range.imp ?_⟩
    rintro i j hij _ hx _ hy
    obtain ⟨_, -, rfl⟩ := List.mem_map.1 hx
    obtain ⟨_, -, rfl⟩ := List.mem_map.1 hy
    exact .rel hij

theorem map_getD_range (values : List String) : (List.range values.length).map (values.getD · "") = values :=
  List.ext_getElem (by simp) fun i _ hi => by simp [hi]

/-- **The concatenations are in lexicographic order of the choices.** -/
theorem exists_choices (lists : List (List String)) :
    ∃ picks, Choices (lists.map List.length) picks ∧ concatenations lists = picks.map (pickText lists) := by
  induction lists with
  | nil => exact ⟨[[]], ⟨by simp, by simp⟩, rfl⟩
  | cons values lists ih =>
    obtain ⟨picks, hpicks, htexts⟩ := ih
    refine ⟨_, hpicks.cons values.length, ?_⟩
    rw [concatenations, List.map_flatMap]
    conv_lhs => rw [← map_getD_range values, List.flatMap_map, htexts]
    refine List.flatMap_congr fun i _ => ?_
    rw [List.map_map, List.map_map]
    refine List.map_congr_left fun pick _ => ?_
    exact (String.join_cons (s := values.getD i "")).symm

/-! ## Products within a limit -/

/-- **Whether the limit is never passed** while numbers are multiplied one after the other. -/
def ProductsWithin (limit : Nat) (counts : List Nat) : Prop := ∀ k, (counts.take k).prod ≤ limit

section
variable {limit : Nat} {counts : List Nat}

theorem ProductsWithin.prod_le (h : ProductsWithin limit counts) : counts.prod ≤ limit := by
  have hall := h counts.length
  rwa [List.take_length] at hall

/-- Where no number is zero, the product of all is the greatest on the way. -/
theorem productsWithin_iff_of_pos (h : ∀ count ∈ counts, 0 < count) :
    ProductsWithin limit counts ↔ counts.prod ≤ limit := by
  constructor
  · exact ProductsWithin.prod_le
  · intro hprod k
    have hrest : 0 < (counts.drop k).prod :=
      Nat.pos_of_ne_zero (List.prod_ne_zero fun hzero => Nat.lt_irrefl 0 (h 0 (List.mem_of_mem_drop hzero)))
    refine Nat.le_trans (Nat.le_mul_of_pos_right _ hrest) ?_
    rwa [List.prod_take_mul_prod_drop]

end

namespace Expansion

variable {limit : Nat}

/-- Appending one list after the other gives all concatenations, as long as there are never too many texts. -/
theorem foldlM_append? {lists : List (List String)} {texts : List String} (htexts : texts.length ≤ limit) :
    ((∀ k, texts.length * ((lists.map List.length).take k).prod ≤ limit) →
      lists.foldlM (append? limit) texts = some (texts.flatMap fun text => (concatenations lists).map (text ++ ·))) ∧
    ((∃ k, limit < texts.length * ((lists.map List.length).take k).prod) →
      lists.foldlM (append? limit) texts = none) := by
  -- The texts so far are general: the number that one more list leaves is a factor of all products to come.
  induction lists generalizing texts with
  | nil =>
    refine ⟨fun _ => ?_, ?_⟩
    · simp [concatenations]
    · rintro ⟨k, hk⟩
      simp only [List.map_nil, List.take_nil, List.prod_nil, Nat.mul_one] at hk
      omega
  | cons values lists ih =>
    rw [List.foldlM_cons, append?]
    by_cases hone : limit < texts.length * values.length
    · rw [if_pos hone]
      refine ⟨fun hall => ?_, fun _ => rfl⟩
      have := hall 1
      simp only [List.map_cons, List.take_succ_cons, List.take_zero, List.prod_cons, List.prod_nil, Nat.mul_one] at this
      omega
    · rw [if_neg hone]
      have hlength : (texts.flatMap fun text => values.map (text ++ ·)).length = texts.length * values.length := by
        simp [List.length_flatMap]
      obtain ⟨hfits, hexceeds⟩ := @ih (texts.flatMap fun text => values.map (text ++ ·)) (by omega)
      rw [hlength] at hfits hexceeds
      constructor
      · intro hall
        refine (hfits fun k => ?_).trans ?_
        · have := hall (k + 1)
          rwa [List.map_cons, List.take_succ_cons, List.prod_cons, ← Nat.mul_assoc] at this
        · simp [concatenations, List.flatMap_assoc, List.flatMap_map, List.map_flatMap, Function.comp_def,
            String.append_assoc]
      · rintro ⟨_ | k, hk⟩
        · rw [List.take_zero, List.prod_nil, Nat.mul_one] at hk
          omega
        · refine hexceeds ⟨k, ?_⟩
          rwa [List.map_cons, List.take_succ_cons, List.prod_cons, ← Nat.mul_assoc] at hk

/-- **A product lists all concatenations**, unless the limit is passed on the way. -/
theorem product_cases (hlimit : 1 ≤ limit) (lists : List (List String)) :
    (ProductsWithin limit (lists.map List.length) → product limit lists = .finite (concatenations lists)) ∧
      (¬ ProductsWithin limit (lists.map List.length) → product limit lists = .unbounded) := by
  obtain ⟨hfits, hexceeds⟩ := @foldlM_append? limit lists [""] hlimit
  simp only [List.length_singleton, Nat.one_mul] at hfits hexceeds
  constructor
  · intro hwithin
    rw [product, hfits hwithin]
    simp
  · intro hwithin
    obtain ⟨k, hk⟩ := not_forall.1 hwithin
    rw [product, hexceeds ⟨k, Nat.lt_of_not_le hk⟩]

end Expansion

/-! ## Fragments -/

/-- The parts that the texts of a fragment are made of: the variants of a union, the fragments of a nested pattern. -/
def Kind.spelled {α : Type} : Kind α → List α
  | .union variants => variants
  | .templatePattern fragments => fragments
  | _ => []

namespace Node

mutual
/-- **The values of a fragment**, in order: the distinct texts of a union, and the combinations of a nested pattern. -/
def values : Node → List String
  | ⟨.literal l, _, _⟩ => [l.toKey]
  | ⟨.primitive .boolean, _, _⟩ => ["true", "false"]
  | ⟨.primitive .null, _, _⟩ => ["null"]
  | ⟨.primitive .undefined, _, _⟩ => ["undefined"]
  | ⟨.union variants, _, _⟩ => distinct (valuesEach variants).flatten
  | ⟨.templatePattern fragments, _, _⟩ => concatenations (valuesEach fragments)
  | _ => []

def valuesEach : List Node → List (List String)
  | [] => []
  | n :: ns => n.values :: valuesEach ns
end

theorem valuesEach_eq_map (ns : List Node) : valuesEach ns = ns.map values := by
  induction ns with
  | nil => rfl
  | cons n ns ih => rw [valuesEach, ih, List.map_cons]

/-- What a fragment is made of, through unions and nested patterns, itself included. -/
def MadeOf : Node → Node → Prop := ReflTransGen fun n c => c ∈ n.kind.spelled

/-- **Whether something in a fragment is not known yet.** -/
def IsPending (n : Node) : Prop := ∃ c, n.MadeOf c ∧ c.isUnresolved = true

/-- How many combinations there are of the first fragments, of the first two and so on, stays within the limit. -/
def FitWithin (limit : Nat) (fragments : List Node) : Prop :=
  ProductsWithin limit (fragments.map fun n => n.values.length)

end Node

/-- A form that cannot be listed: it has infinitely many texts, or it is a pattern with too many combinations.  What is
not known yet counts as one, but is asked for first. -/
def Kind.IsEndless (limit : Nat) : Kind Node → Prop
  | .literal _ | .primitive .boolean | .primitive .never | .primitive .null | .primitive .undefined | .union _ => False
  | .templatePattern fragments => ¬ Node.FitWithin limit fragments
  | _ => True

/-- **Whether something in a fragment cannot be listed.** -/
def Node.IsEndless (limit : Nat) (n : Node) : Prop := ∃ c, n.MadeOf c ∧ c.kind.IsEndless limit

namespace Node

variable {limit : Nat} {n : Node} {ns : List Node}

/-- A fragment is made of itself and of what its parts are made of. -/
theorem exists_madeOf_iff {P : Node → Prop} :
    (∃ c, n.MadeOf c ∧ P c) ↔ P n ∨ ∃ m ∈ n.kind.spelled, ∃ c, m.MadeOf c ∧ P c := by
  constructor
  · rintro ⟨c, hc, h⟩
    obtain rfl | ⟨m, hm, hc⟩ := hc.cases_head
    · exact .inl h
    · exact .inr ⟨m, hm, c, hc, h⟩
  · rintro (h | ⟨m, hm, c, hc, h⟩)
    · exact ⟨n, .refl, h⟩
    · exact ⟨c, .head hm hc, h⟩

theorem isPending_iff : n.IsPending ↔ n.isUnresolved = true ∨ ∃ m ∈ n.kind.spelled, m.IsPending := exists_madeOf_iff

theorem isEndless_iff : n.IsEndless limit ↔ n.kind.IsEndless limit ∨ ∃ m ∈ n.kind.spelled, m.IsEndless limit :=
  exists_madeOf_iff (P := fun c => c.kind.IsEndless limit)

/-- **What a fragment is expanded to**: what is not known comes first, then what cannot be listed. -/
structure Expands (limit : Nat) (n : Node) : Prop where
  pending : n.IsPending → n.texts limit = .unresolved
  endless : ¬ n.IsPending → n.IsEndless limit → n.texts limit = .unbounded
  listed : ¬ n.IsPending → ¬ n.IsEndless limit → n.texts limit = .finite n.values

end Node

namespace Expansion

variable {limit : Nat} {ns : List Node} {f : List (List String) → Expansion}

/-- One part that is not known makes the whole unknown. -/
theorem join_of_pending (h : ∀ n ∈ ns, n.Expands limit) (hpending : ∃ n ∈ ns, n.IsPending) :
    join f (textsEach limit ns) = .unresolved := by
  obtain ⟨n, hn, hpending⟩ := hpending
  have hmem : .unresolved ∈ textsEach limit ns := by
    rw [textsEach_eq_map, ← (h n hn).pending hpending]
    exact List.mem_map_of_mem hn
  rw [join, if_pos (List.contains_iff_mem.2 hmem)]

theorem join_of_known (h : ∀ n ∈ ns, n.Expands limit) (hknown : ∀ n ∈ ns, ¬ n.IsPending) :
    join f (textsEach limit ns) =
      if (textsEach limit ns).contains .unbounded then .unbounded else f ((textsEach limit ns).filterMap values?) := by
  have hmem : .unresolved ∉ textsEach limit ns := by
    rw [textsEach_eq_map]
    intro hmem
    obtain ⟨n, hn, htexts⟩ := List.mem_map.1 hmem
    by_cases hendless : n.IsEndless limit
    · cases htexts.symm.trans ((h n hn).endless (hknown n hn) hendless)
    · cases htexts.symm.trans ((h n hn).listed (hknown n hn) hendless)
  rw [join, if_neg fun hc => hmem (List.contains_iff_mem.1 hc)]

/-- Then one part that cannot be listed leaves the whole without end. -/
theorem join_of_endless (h : ∀ n ∈ ns, n.Expands limit) (hknown : ∀ n ∈ ns, ¬ n.IsPending)
    (hendless : ∃ n ∈ ns, n.IsEndless limit) : join f (textsEach limit ns) = .unbounded := by
  obtain ⟨n, hn, hendless⟩ := hendless
  have hmem : .unbounded ∈ textsEach limit ns := by
    rw [textsEach_eq_map, ← (h n hn).endless (hknown n hn) hendless]
    exact List.mem_map_of_mem hn
  rw [join_of_known h hknown, if_pos (List.contains_iff_mem.2 hmem)]

/-- Else the values of all parts are joined. -/
theorem join_of_listed (h : ∀ n ∈ ns, n.Expands limit) (hknown : ∀ n ∈ ns, ¬ n.IsPending)
    (hlisted : ∀ n ∈ ns, ¬ n.IsEndless limit) : join f (textsEach limit ns) = f (ns.map Node.values) := by
  have htexts : textsEach limit ns = (ns.map Node.values).map finite := by
    rw [textsEach_eq_map, List.map_map]
    exact List.map_congr_left fun n hn => (h n hn).listed (hknown n hn) (hlisted n hn)
  have hmem : .unbounded ∉ (ns.map Node.values).map finite := by
    intro hmem
    obtain ⟨_, -, hfinite⟩ := List.mem_map.1 hmem
    cases hfinite
  rw [join_of_known h hknown, htexts, if_neg fun hc => hmem (List.contains_iff_mem.1 hc), List.filterMap_map]
  exact congrArg f List.filterMap_some

end Expansion

namespace Node

variable {limit : Nat} {n : Node}

/-- What has no parts is expanded by its own form. -/
theorem expands_of_leaf (hparts : n.kind.spelled = []) (hpending : n.isUnresolved = true → n.texts limit = .unresolved)
    (hendless : n.isUnresolved = false → n.kind.IsEndless limit → n.texts limit = .unbounded)
    (hlisted : ¬ n.kind.IsEndless limit → n.texts limit = .finite n.values) : n.Expands limit := by
  have hown : n.IsPending ↔ n.isUnresolved = true := by rw [isPending_iff, hparts]; simp
  have hend : n.IsEndless limit ↔ n.kind.IsEndless limit := by rw [isEndless_iff, hparts]; simp
  rw [← hown] at hpending
  rw [← Bool.not_eq_true, ← hown, ← hend] at hendless
  rw [← hend] at hlisted
  exact ⟨hpending, hendless, fun _ => hlisted⟩

/-- What joins its parts is expanded by the form of the whole once all parts are listed. -/
theorem expands_of_join {f : List (List String) → Expansion} (hunresolved : n.isUnresolved = false)
    (htexts : n.texts limit = Expansion.join f (textsEach limit n.kind.spelled))
    (hparts : ∀ c ∈ n.kind.spelled, c.Expands limit)
    (hendless : n.kind.IsEndless limit → f (n.kind.spelled.map values) = .unbounded)
    (hlisted : ¬ n.kind.IsEndless limit → f (n.kind.spelled.map values) = .finite n.values) : n.Expands limit := by
  have hknown (h : ¬ n.IsPending) : ∀ c ∈ n.kind.spelled, ¬ c.IsPending :=
    fun c hc hpending => h (isPending_iff.2 (.inr ⟨c, hc, hpending⟩))
  -- The parts decide first, in the order of the join; only then does the form of the whole.
  constructor
  · intro hpending
    rw [htexts]
    refine Expansion.join_of_pending hparts ((isPending_iff.1 hpending).resolve_left ?_)
    rw [hunresolved]
    exact Bool.false_ne_true
  · intro h hend
    rw [htexts]
    by_cases hpart : ∃ c ∈ n.kind.spelled, c.IsEndless limit
    · exact Expansion.join_of_endless hparts (hknown h) hpart
    · rw [Expansion.join_of_listed hparts (hknown h) fun c hc hc' => hpart ⟨c, hc, hc'⟩]
      exact hendless ((isEndless_iff.1 hend).resolve_right hpart)
  · intro h hend
    rw [isEndless_iff, not_or] at hend
    rw [htexts, Expansion.join_of_listed hparts (hknown h) fun c hc hc' => hend.2 ⟨c, hc, hc'⟩]
    exact hlisted hend.1

/-- **Every fragment is expanded as what it is made of says.** -/
theorem expands (hlimit : 1 ≤ limit) (n : Node) : n.Expands limit := by
  induction n using induction_on_parts with
  | node n ih =>
    obtain ⟨kind, modifiers, annotations⟩ := n
    cases kind with
    | union variants =>
      refine expands_of_join rfl (by rw [texts]; rfl) ih False.elim fun _ => ?_
      rw [values, valuesEach_eq_map]
      rfl
    | templatePattern fragments =>
      have hcounts : (fragments.map values).map List.length = fragments.map fun n => n.values.length := by
        rw [List.map_map]
        rfl
      obtain ⟨hfits, hexceeds⟩ := Expansion.product_cases hlimit (fragments.map values)
      rw [hcounts] at hfits hexceeds
      -- That the product passes the limit is what makes the form one that cannot be listed.
      refine expands_of_join rfl (by rw [texts]; rfl) ih hexceeds fun h => ?_
      rw [values, valuesEach_eq_map]
      exact hfits (not_not.1 h)
    | literal l => exact expands_of_leaf rfl (fun h => Bool.noConfusion h) (fun _ h => h.elim) fun _ => rfl
    | primitive p =>
      cases p <;> first
        | exact expands_of_leaf rfl (fun h => Bool.noConfusion h) (fun _ h => h.elim) fun _ => rfl
        | exact expands_of_leaf rfl (fun h => Bool.noConfusion h) (fun _ _ => rfl) fun h => absurd trivial h
    | ref | parameter | call | deferred =>
      exact expands_of_leaf rfl (fun _ => rfl) (fun h => Bool.noConfusion h) fun h => absurd trivial h
    | _ => exact expands_of_leaf rfl (fun h => Bool.noConfusion h) (fun _ _ => rfl) fun h => absurd trivial h

variable {texts : List String}

theorem Expands.eq_unresolved_iff (h : n.Expands limit) : n.texts limit = .unresolved ↔ n.IsPending := by
  refine ⟨fun htexts => ?_, h.pending⟩
  by_contra hknown
  by_cases hend : n.IsEndless limit
  · cases htexts.symm.trans (h.endless hknown hend)
  · cases htexts.symm.trans (h.listed hknown hend)

theorem Expands.eq_finite_iff (h : n.Expands limit) :
    n.texts limit = .finite texts ↔ ¬ n.IsPending ∧ ¬ n.IsEndless limit ∧ texts = n.values := by
  constructor
  · intro htexts
    by_cases hpending : n.IsPending
    · cases htexts.symm.trans (h.pending hpending)
    by_cases hend : n.IsEndless limit
    · cases htexts.symm.trans (h.endless hpending hend)
    · cases htexts.symm.trans (h.listed hpending hend)
      exact ⟨hpending, hend, rfl⟩
  · rintro ⟨hknown, hlisted, rfl⟩
    exact h.listed hknown hlisted

end Node

/-! ## Templates -/

section
variable {limit : Nat} {fragments : List Node}

theorem expand_eq_unresolved_iff (hlimit : 1 ≤ limit) :
    expand limit fragments = .unresolved ↔ ∃ n ∈ fragments, n.IsPending :=
  (Node.expands hlimit (.templatePattern fragments)).eq_unresolved_iff.trans
    (Node.isPending_iff.trans (or_iff_right Bool.false_ne_true))

/-- **When the texts of a template are listed, and which they are.** -/
theorem expand_eq_finite_iff (hlimit : 1 ≤ limit) {texts : List String} :
    expand limit fragments = .finite texts ↔
      (¬ ∃ n ∈ fragments, n.IsPending) ∧ (¬ ∃ n ∈ fragments, n.IsEndless limit) ∧ Node.FitWithin limit fragments ∧
        texts = concatenations (fragments.map Node.values) := by
  have hpending : (Node.templatePattern fragments).IsPending ↔ ∃ n ∈ fragments, n.IsPending :=
    Node.isPending_iff.trans (or_iff_right Bool.false_ne_true)
  have hendless : (Node.templatePattern fragments).IsEndless limit ↔
      ¬ Node.FitWithin limit fragments ∨ ∃ n ∈ fragments, n.IsEndless limit := Node.isEndless_iff
  have hvalues : (Node.templatePattern fragments).values = concatenations (fragments.map Node.values) := by
    rw [Node.templatePattern, Node.of, Node.values, Node.valuesEach_eq_map]
  refine (Node.expands hlimit (.templatePattern fragments)).eq_finite_iff.trans ?_
  rw [hpending, hendless, hvalues, not_or, not_not]
  tauto

end

/-! ## Runs -/

/-- **How far the fragments have been combined**: the texts so far, and whether they are given up. -/
structure Combinations where
  texts : List String := [""]
  isGivenUp : Bool := false

namespace Combinations

variable {limit : Nat} {c c' : Combinations}

/-- **One more part.**  What is not known ends the run; what cannot be listed, or makes too many texts, leaves them as
they are and gives them up for good. -/
def add (limit : Nat) (c : Combinations) : Expansion → Option Combinations
  | .unresolved => none
  | .unbounded => some { c with isGivenUp := true }
  | .finite values =>
    if c.isGivenUp then some c
    else match Expansion.append? limit c.texts values with
      | some texts => some { c with texts }
      | none => some { c with isGivenUp := true }

/-- What becomes of the fragments, one after the other. -/
def run (limit : Nat) (fragments : List Node) : Option Combinations :=
  (fragments.map (Node.texts limit)).foldlM (add limit) {}

/-- What a run comes to. -/
def outcome : Option Combinations → Expansion
  | none => .unresolved
  | some c => if c.isGivenUp then .unbounded else .finite c.texts

/-- **One more part keeps the texts within the limit.** -/
theorem length_add_le {part : Expansion} (hc : c.texts.length ≤ limit) (h : c.add limit part = some c') :
    c'.texts.length ≤ limit := by
  cases part with
  | unresolved => cases h
  | unbounded =>
    cases h
    exact hc
  | finite values =>
    rw [add] at h
    split at h
    · cases h
      exact hc
    · unfold Expansion.append? at h
      split at h
      · rename_i texts happend
        split at happend
        · cases happend
        · cases happend
          cases h
          simp only [List.length_flatMap, List.length_map, List.map_const', List.sum_replicate_nat]
          omega
      · cases h
        exact hc

/-- **The texts stay within the limit all the way.** -/
theorem length_run_le (hlimit : 1 ≤ limit) {fragments : List Node} (h : run limit fragments = some c) :
    c.texts.length ≤ limit := by
  have hfold : ∀ (parts : List Expansion) (start : Combinations), start.texts.length ≤ limit →
      parts.foldlM (add limit) start = some c → c.texts.length ≤ limit := by
    intro parts
    induction parts with
    | nil =>
      rintro start hstart h
      cases h
      exact hstart
    | cons part parts ih =>
      intro start hstart h
      rw [List.foldlM_cons] at h
      obtain ⟨next, hnext, h⟩ := Option.bind_eq_some_iff.1 h
      exact ih next (length_add_le hstart hnext) h
  exact hfold _ {} hlimit h

theorem foldlM_of_unresolved {parts : List Expansion} (h : .unresolved ∈ parts) (c : Combinations) :
    parts.foldlM (add limit) c = none := by
  induction parts generalizing c with
  | nil => cases h
  | cons part parts ih =>
    rw [List.foldlM_cons]
    rcases List.mem_cons.1 h with rfl | h
    · rfl
    · cases hadd : c.add limit part with
      | none => rfl
      | some next => exact ih h next

/-- What was given up stays so. -/
theorem outcome_of_isGivenUp {parts : List Expansion} (h : .unresolved ∉ parts) (hc : c.isGivenUp = true) :
    outcome (parts.foldlM (add limit) c) = .unbounded := by
  induction parts generalizing c with
  | nil => exact if_pos hc
  | cons part parts ih =>
    rw [List.mem_cons, not_or] at h
    rw [List.foldlM_cons]
    cases part with
    | unresolved => exact absurd rfl h.1
    | unbounded => exact ih (c := { c with isGivenUp := true }) h.2 rfl
    | finite values =>
      rw [add, if_pos hc]
      exact ih h.2 hc

theorem outcome_foldlM {parts : List Expansion} (h : .unresolved ∉ parts) (hc : c.isGivenUp = false) :
    outcome (parts.foldlM (add limit) c) =
      if parts.contains .unbounded then .unbounded
      else match (parts.filterMap Expansion.values?).foldlM (Expansion.append? limit) c.texts with
        | some texts => .finite texts
        | none => .unbounded := by
  induction parts generalizing c with
  | nil =>
    obtain ⟨texts, isGivenUp⟩ := c
    cases hc
    rfl
  | cons part parts ih =>
    rw [List.mem_cons, not_or] at h
    rw [List.foldlM_cons]
    cases part with
    | unresolved => exact absurd rfl h.1
    | unbounded =>
      rw [if_pos (List.contains_iff_mem.2 List.mem_cons_self)]
      exact outcome_of_isGivenUp (c := { c with isGivenUp := true }) h.2 rfl
    | finite values =>
      have hcontains : (Expansion.finite values :: parts).contains .unbounded = parts.contains .unbounded := by
        rw [List.contains_cons]
        rfl
      rw [add, if_neg (Bool.eq_false_iff.1 hc), hcontains]
      simp only [List.filterMap_cons, Expansion.values?, List.foldlM_cons]
      cases happend : Expansion.append? limit c.texts values with
      | some texts => exact ih (c := { c with texts }) h.2 hc
      | none =>
        have hgivenUp : outcome (parts.foldlM (add limit) { c with isGivenUp := true }) = .unbounded :=
          outcome_of_isGivenUp h.2 rfl
        exact hgivenUp.trans (by split <;> rfl)

/-- **The expansion of a template is the outcome of its run.** -/
theorem outcome_run (limit : Nat) (fragments : List Node) : outcome (run limit fragments) = expand limit fragments := by
  rw [run, expand, textsEach_eq_map, Expansion.join]
  split
  · rename_i h
    rw [foldlM_of_unresolved (List.contains_iff_mem.1 h)]
    rfl
  · rename_i h
    exact outcome_foldlM (fun hmem => h (List.contains_iff_mem.2 hmem)) rfl

end Combinations

/-! ## The product -/

/-- **A template is the lexicographic product of its fragments**, within a limit. -/
theorem expand_combinations {limit : Nat} (hlimit : 1 ≤ limit) (fragments : List Node) :
    (expand limit fragments = .unresolved ↔ ∃ n ∈ fragments, ∃ c, n.MadeOf c ∧ c.isUnresolved = true) ∧
      (expand limit fragments ≠ .unresolved → (∀ n ∈ fragments, ¬ n.IsEndless limit → n.values ≠ []) →
        ((∃ texts, expand limit fragments = .finite texts) ↔
          (∀ n ∈ fragments, ¬ n.IsEndless limit) ∧ (fragments.map fun n => n.values.length).prod ≤ limit)) ∧
      (∀ texts, expand limit fragments = .finite texts → texts.length ≤ limit ∧
        ∃ picks, Choices (fragments.map fun n => n.values.length) picks ∧
          texts = picks.map (pickText (fragments.map Node.values))) ∧
      Combinations.outcome (Combinations.run limit fragments) = expand limit fragments ∧
      ∀ k c, Combinations.run limit (fragments.take k) = some c → c.texts.length ≤ limit := by
  refine ⟨expand_eq_unresolved_iff hlimit, fun hknown hvalues => ?_, fun texts htexts => ?_,
    Combinations.outcome_run limit fragments, fun k c => Combinations.length_run_le hlimit⟩
  · rw [ne_eq, expand_eq_unresolved_iff hlimit] at hknown
    have hfit (hlisted : ∀ n ∈ fragments, ¬ n.IsEndless limit) :
        Node.FitWithin limit fragments ↔ (fragments.map fun n => n.values.length).prod ≤ limit := by
      refine productsWithin_iff_of_pos fun count hcount => ?_
      obtain ⟨n, hn, rfl⟩ := List.mem_map.1 hcount
      exact List.length_pos_of_ne_nil (hvalues n hn (hlisted n hn))
    constructor
    · rintro ⟨texts, htexts⟩
      obtain ⟨-, hlisted, hwithin, -⟩ := (expand_eq_finite_iff hlimit).1 htexts
      have hlisted : ∀ n ∈ fragments, ¬ n.IsEndless limit := fun n hn h => hlisted ⟨n, hn, h⟩
      exact ⟨hlisted, (hfit hlisted).1 hwithin⟩
    · rintro ⟨hlisted, hprod⟩
      have hnone : ¬ ∃ n ∈ fragments, n.IsEndless limit := fun ⟨n, hn, h⟩ => hlisted n hn h
      exact ⟨_, (expand_eq_finite_iff hlimit).2 ⟨hknown, hnone, (hfit hlisted).2 hprod, rfl⟩⟩
  · obtain ⟨-, -, hwithin, rfl⟩ := (expand_eq_finite_iff hlimit).1 htexts
    have hcounts : (fragments.map Node.values).map List.length = fragments.map fun n => n.values.length := by
      rw [List.map_map]
      rfl
    constructor
    · rw [length_concatenations, hcounts]
      exact hwithin.prod_le
    · rw [← hcounts]
      exact exists_choices (fragments.map Node.values)

/-- A template with as many combinations as the limit allows, the same under a lower limit, and one with a reference
behind all that has no end. -/
theorem expand_combinations_nested :
    let fragments : List Node := [.text "k", .union [.text "a", .union [.text "b", .text "a"]],
      .templatePattern [.boolean, .text "!"]]
    1 ≤ 4 ∧ (∀ n ∈ fragments, n.values ≠ []) ∧ (∀ n ∈ fragments, ¬ n.IsEndless 4) ∧
      (fragments.map fun n => n.values.length).prod = 4 ∧
      expand 4 fragments = .finite ["katrue!", "kafalse!", "kbtrue!", "kbfalse!"] ∧
      (¬ ∃ texts, expand 3 fragments = .finite texts) ∧
      expand 1 (.string :: fragments ++ [.union [.null, .templatePattern [.reference "T"]]]) = .unresolved := by
  intro fragments
  have hvalues : ∀ n ∈ fragments, n.values ≠ [] := by decide +kernel
  have hprod : (fragments.map fun n => n.values.length).prod = 4 := by decide +kernel
  have hexpand : expand 4 fragments = .finite ["katrue!", "kafalse!", "kbtrue!", "kbfalse!"] := by decide +kernel
  have hlisted := ((expand_combinations (by decide) fragments).2.1 (by rw [hexpand]; exact nofun)
    fun n hn _ => hvalues n hn).1 ⟨_, hexpand⟩
  have hlower := (@expand_combinations 3 (by decide) fragments).2.1 (by decide +kernel) fun n hn _ => hvalues n hn
  have hpending := (expand_combinations (Nat.le_refl 1)
    (.string :: fragments ++ [.union [.null, .templatePattern [.reference "T"]]])).1
  refine ⟨by decide, hvalues, hlisted.1, hprod, hexpand, fun h => ?_, hpending.2 ?_⟩
  · have := (hlower.1 h).2
    omega
  · exact ⟨_, List.mem_append_right _ List.mem_cons_self, .reference "T",
      .head (List.mem_cons_of_mem _ List.mem_cons_self) (.head List.mem_cons_self .refl), rfl⟩

end Schemata
