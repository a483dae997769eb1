import Schemata.Instantiation.Run
import Schemata.Proofs.Node.Equality
import Schemata.Proofs.Notation.Reading
/-!
# Names of expansions

Repeated calls are recorded under the name of the generic with the arguments in type notation.  Where all arguments are
legible and bundles of one root are the same, this name tells expansions apart.  Notation without brackets has its price:
elsewhere two expansions can have one name, and the bundle of the inner one takes what refers back to the outer one.

- `BundlesAgree`: bundles that show the same root are the same.

Main statement: `expansionName_identifies`.
-/
namespace Schemata

open Notation
open Node (chars)

/-- Whether the bundles that nodes show are known by their roots. -/
def BundlesAgree (ns : List Node) : Prop :=
  ∀ e ∈ ns.flatMap Node.bundlesShown, ∀ e' ∈ ns.flatMap Node.bundlesShown, e.1 = e'.1 → e.2 = e'.2

/-- The definitions of the bundle that nodes show with a root. -/
def bundleOf (ns : List Node) (root : String) : Fields Node :=
  (((ns.flatMap Node.bundlesShown).find? (·.1 = root)).map Prod.snd).getD []

theorem BundlesAgree.bundleOf_eq {ns : List Node} (h : BundlesAgree ns) {e : String × Fields Node}
    (he : e ∈ ns.flatMap Node.bundlesShown) : bundleOf ns e.1 = e.2 := by
  unfold bundleOf
  cases hfound : (ns.flatMap Node.bundlesShown).find? (·.1 = e.1) with
  | none => simpa using List.find?_eq_none.1 hfound e he
  | some e' => exact h e' (List.mem_of_find?_eq_some hfound) e he (by simpa using List.find?_some hfound)

theorem toList_expansionName (name : String) (ns : List Node) :
    (expansionName name ns).toList = name.toList ++ '<' :: (comma.intercalate (ns.map chars) ++ ['>']) := by
  simp only [expansionName, String.toList_append, ← Node.displayAll_eq, Node.toList_intercalate_displayAll,
    List.append_assoc]
  rfl

/-- **A call of a frame is seen as being expanded**, where its arguments equal themselves. -/
theorem State.isExpanding_of_mem {s : State} {name : String} {ns : List Node} (h : ⟨name, ns⟩ ∈ s.frames)
    (hself : ∀ n ∈ ns, (n == n) = true) : s.isExpanding name ns = true := by
  have hall : Node.sameAll ns ns = true := Node.sameAll_iff.2 (List.forall₂_same.2 hself)
  exact List.any_eq_true.2 ⟨_, h, by simp [hall]⟩

/-- **An expansion that refers back to itself becomes a bundle** under its own name. -/
theorem expandGeneric_of_back {limits : Limits} {evaluate : Evaluator} {context : Context} {s : State} {name : String}
    {parameters : List (Parameter Node)} {body expanded : Node} {ns : List Node}
    (hnew : name = anonymous ∨ s.isExpanding name ns = false)
    (hexpansion : expansion limits evaluate context s name parameters body ns = .done expanded)
    (hback : expansionName name ns ∈ expanded.references) :
    expandGeneric limits evaluate context s name parameters body ns =
      evaluate context s (.cyclic [(expansionName name ns, expanded)] (expansionName name ns)) := by
  have hrepeats : (name != anonymous && s.isExpanding name ns) = false := by
    rcases hnew with rfl | hnew
    · rfl
    · rw [hnew, Bool.and_false]
  simp only [expandGeneric, hrepeats, hexpansion, packaged, List.contains_iff_mem.2 hback, if_true, Bool.false_eq_true,
    if_false, Outcome.done_bind]

section
variable {called : String → Bool} {name other : String} {a b : List Node}

/-- **Legible arguments are read from the name of an expansion.** -/
theorem eq_of_expansionName_eq (hlegible : ∀ n ∈ a ++ b, n.isLegible called = true ∧ n.suits 4 = true)
    (hbundles : BundlesAgree (a ++ b)) (h : expansionName name a = expansionName name b) : a = b := by
  have hread : ∀ {ns : List Node}, (∀ n ∈ ns, n ∈ a ++ b) → ∀ n ∈ ns,
      n.Legible called (bundleOf (a ++ b)) ∧ n.suits 4 = true := fun hns n hn =>
    ⟨⟨(hlegible n (hns n hn)).1, fun e he => hbundles.bundleOf_eq (List.mem_flatMap.2 ⟨n, hns n hn, he⟩)⟩,
      (hlegible n (hns n hn)).2⟩
  have hchars := congrArg String.toList h
  rw [toList_expansionName, toList_expansionName] at hchars
  have harguments := (List.cons.inj (List.append_cancel_left hchars)).2
  have hleft := gets_arguments (hread fun n hn => List.mem_append_left b hn) (Nat.le_add_right _ (Node.sizeAll b)) []
    trivial
  have hright := gets_arguments (hread fun n hn => List.mem_append_right a hn) (Nat.le_add_left _ (Node.sizeAll a)) []
    trivial
  rw [harguments] at hleft
  exact (Prod.mk.inj (Option.some.inj (hleft.symm.trans hright))).1

/-- Names without angle brackets are read from the name of an expansion. -/
theorem name_eq_of_expansionName_eq (hname : '<' ∉ name.toList) (hother : '<' ∉ other.toList)
    (h : expansionName name a = expansionName other b) : name = other := by
  have htake : ∀ {name : String} (_ : '<' ∉ name.toList) (ns : List Node),
      (expansionName name ns).toList.takeWhile (· ≠ '<') = name.toList := by
    intro name hname ns
    rw [toList_expansionName]
    refine takeWhile_append_eq (fun c hc => decide_eq_true fun heq => hname (heq ▸ hc)) ?_
    rintro _ ⟨⟩
    decide
  rw [← String.toList_inj, ← htake hname a, ← htake hother b, h]

/-- **The name of an expansion identifies it.**  Let all arguments be legible, with bundles of one root being the same.  Then
two expansions have the same name only if they have the same generic and the same arguments.  So an expansion that is told
from one in progress is recorded under another name, and what the bundle of an expansion has under the name of an expansion
is that expansion.  `called` says which names before angle brackets stand for the target of a call in the arguments. -/
theorem expansionName_identifies (hlegible : ∀ n ∈ a ++ b, n.isLegible called = true ∧ n.suits 4 = true)
    (hbundles : BundlesAgree (a ++ b)) (hnames : name = other ∨ '<' ∉ name.toList ∧ '<' ∉ other.toList) :
    (expansionName name a = expansionName other b ↔ name = other ∧ a = b) ∧
    (∀ state : State, ⟨other, b⟩ ∈ state.frames → (∀ n ∈ a, (n == n) = true) → state.isExpanding name a = false →
      expansionName name a ≠ expansionName other b) ∧
    ∀ {limits : Limits} {evaluate : Evaluator} {context : Context} {state : State} {parameters : List (Parameter Node)}
      {body expanded : Node}, other = anonymous ∨ state.isExpanding other b = false →
      expansion limits evaluate context state other parameters body b = .done expanded →
      expansionName other b ∈ expanded.references →
      ∃ definitions, expandGeneric limits evaluate context state other parameters body b =
          evaluate context state (.cyclic definitions (expansionName other b)) ∧
        ∀ found, Fields.get? definitions (expansionName name a) = some found ↔
          (name = other ∧ a = b) ∧ found = expanded := by
  have hsame : expansionName name a = expansionName other b ↔ name = other ∧ a = b := by
    refine ⟨fun h => ?_, fun h => by rw [h.1, h.2]⟩
    obtain rfl : name = other := hnames.elim id fun hnames => name_eq_of_expansionName_eq hnames.1 hnames.2 h
    exact ⟨rfl, eq_of_expansionName_eq hlegible hbundles h⟩
  refine ⟨hsame, fun state hframe hself hexpanding h => ?_, fun hnew hexpansion hback =>
    ⟨_, expandGeneric_of_back hnew hexpansion hback, fun found => ?_⟩⟩
  · obtain ⟨rfl, rfl⟩ := hsame.1 h
    rw [State.isExpanding_of_mem hframe hself] at hexpanding
    cases hexpanding
  · rw [Fields.get?_cons, Fields.get?_nil, ← hsame]
    by_cases h : expansionName name a = expansionName other b
    · simp [h, eq_comm]
    · simp [h, Ne.symm h]

end

/-! ### Two expansions of a generic -/

namespace Telling

/-- The numbers in a list. -/
def numbers : Node := .cyclic [("List", .object [("head", .number), ("tail", .reference "List")])] "List"

/-- An item in several places. -/
def argument (item : Node) : Node :=
  .tuple [.object [("size", .withModifiers (.natural 1) { optional := true }), ("all", .array item)],
    .union [.text "a, b", item], .function [.string] (.call (.reference "G") [.reference "F<string>"]), numbers,
    .templatePattern [.text "id-", .string], .promise item]

def body : Node := .object [("first", .reference "T"), ("next", .call (.reference "F") [.reference "T"])]

def context : Context := [("F", .generic [.free "T"] body)]

/-- What the generic expands to with an argument. -/
def expanded (n : Node) : Node := .object [("first", n), ("next", .reference (expansionName "F" [n]))]

/-- An expansion of `F` is told from another one by its name, and so is the bundle that it becomes. -/
theorem expansionName_identifies_arguments :
    (∀ n ∈ [argument .string] ++ [argument .number], n.isLegible (· == "G") = true ∧ n.suits 4 = true) ∧
      BundlesAgree ([argument .string] ++ [argument .number]) ∧
      State.isExpanding { frames := [⟨"F", [argument .number]⟩] } "F" [argument .string] = false ∧
      expansionName "F" [argument .string] ≠ expansionName "F" [argument .number] ∧
      ∃ definitions,
        expandGeneric {} (run {} 20) context .initial "F" [.free "T"] body [argument .number] =
          run {} 20 context .initial (.cyclic definitions (expansionName "F" [argument .number])) ∧
        ¬ ∃ found, Fields.get? definitions (expansionName "F" [argument .string]) = some found := by
  have hlegible : ∀ n ∈ [argument .string] ++ [argument .number], n.isLegible (· == "G") = true ∧ n.suits 4 = true := by
    decide +kernel
  have hbundles : BundlesAgree ([argument .string] ++ [argument .number]) := by
    have hshown : ([argument .string] ++ [argument .number]).flatMap Node.bundlesShown =
        List.replicate 2 ("List", [("List", .object [("head", .number), ("tail", .reference "List")])]) := by
      with_unfolding_all rfl
    intro e he e' he' _
    rw [hshown] at he he'
    rw [List.eq_of_mem_replicate he, List.eq_of_mem_replicate he']
  have hself : ∀ n ∈ [argument .string], (n == n) = true := by decide +kernel
  have hother : State.isExpanding { frames := [⟨"F", [argument .number]⟩] } "F" [argument .string] = false := by
    with_unfolding_all rfl
  obtain ⟨-, htold, hbundle⟩ := expansionName_identifies hlegible hbundles (.inl (Eq.refl "F"))
  have hne := htold _ List.mem_cons_self hself hother
  have hexpansion : expansion {} (run {} 20) context .initial "F" [.free "T"] body [argument .number] =
      .done (expanded (argument .number)) := by
    with_unfolding_all rfl
  have hback : expansionName "F" [argument .number] ∈ (expanded (argument .number)).references := by
    decide +kernel
  obtain ⟨definitions, hbecomes, hget⟩ := hbundle (.inr rfl) hexpansion hback
  refine ⟨hlegible, hbundles, hother, hne, definitions, hbecomes, ?_⟩
  rintro ⟨found, hfound⟩
  obtain ⟨⟨-, hsame⟩, -⟩ := (hget found).1 hfound
  rw [hsame] at hne
  exact hne rfl

end Telling

/-! ### Two expansions with one name -/

namespace Mistaken

def arrayOfUnion : Node := .array (.union [.string, .number])

def unionWithArray : Node := .union [.string, .array .number]

/-- Two generics that call each other, one of them with the arguments the other way round. -/
def context : Context :=
  [("F", .generic [.free "T", .free "U"]
      (.object [("v", .reference "T"), ("g", .call (.reference "G") [.reference "U", .reference "T"])])),
    ("G", .generic [.free "T", .free "U"] (.object [("f", .call (.reference "F") [.reference "T", .reference "U"])]))]

/-- The name of both expansions. -/
def name : String := "F<string | number[], string | number[]>"

def node : Node := .call (.reference "F") [arrayOfUnion, unionWithArray]

/-- What the node is instantiated to: the outer expansion without a bundle, and the inner one in a bundle. -/
def result : Node :=
  .object [("v", arrayOfUnion), ("g", .object [("f", .cyclic
    [(name, .object [("v", unionWithArray), ("g", .object [("f", .reference name)])])] name)])]

/-- The arguments the other way round are other ones and have the same name.  What refers back to the outer expansion comes
into the bundle of the inner one, where it stands for the inner one. -/
theorem expansionName_mistaken :
    expansionName "F" [arrayOfUnion, unionWithArray] = name ∧
      expansionName "F" [unionWithArray, arrayOfUnion] = name ∧
      [arrayOfUnion, unionWithArray] ≠ [unionWithArray, arrayOfUnion] ∧
      State.isExpanding { frames := [⟨"F", [arrayOfUnion, unionWithArray]⟩] } "F" [unionWithArray, arrayOfUnion] = false ∧
      ∃ out, instantiate {} context node = .done out ∧ (out == result) = true := by
  have hresult : (match instantiate {} context node with
      | .done out => out == result
      | _ => false) = true := by
    decide +kernel
  refine ⟨by decide +kernel, by decide +kernel, by rintro ⟨⟩, by with_unfolding_all rfl, ?_⟩
  split at hresult
  · exact ⟨_, ‹_›, hresult⟩
  · cases hresult

end Mistaken

end Schemata
