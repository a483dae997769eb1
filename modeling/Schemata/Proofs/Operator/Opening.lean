import Schemata.Proofs.Node.Bundles
import Schemata.Proofs.Operator.States
/-!
# Opening a bundle

Some operators open their first operand: they go through its unions and through the roots of its bundles.  Whatever they
come to they reduce by itself, but a reference at the root of a bundle is looked up in the context around the bundle.

- `Node.shown`: what opening a node comes to.
- `Node.namesShown`: the names of the references among it.

Main statement: `closed_bundle_means_the_same`.  Two contexts that bind none of these names are alike to the operator.
-/
namespace Schemata

/-! ## What opening comes to -/

namespace Node

theorem size_lt_of_get? {n target : Node} {definitions : Fields Node} {root : String}
    (hk : n.kind = .cyclic definitions root) (hr : Fields.get? definitions root = some target) : target.size < n.size :=
  size_lt_of_mem_parts (by rw [hk]; exact List.mem_map.2 ⟨(root, target), Fields.mem_of_get? hr, rfl⟩)

/-- **What opening a node comes to**: the variants of a union and the root of a bundle, opened in turn, or the node
itself. -/
def shown (n : Node) : List Node :=
  match _hk : n.kind with
  | .union variants => variants.attach.flatMap fun ⟨c, _⟩ => c.shown
  | .cyclic definitions root =>
    match _hr : Fields.get? definitions root with
    | some target => target.shown
    | none => []
  | _ => [n]
termination_by n.size
decreasing_by
  · exact size_lt_of_mem_parts (by rw [_hk]; assumption)
  · exact size_lt_of_get? _hk _hr

theorem shown_eq (n : Node) : n.shown =
    match n.kind with
    | .union variants => variants.flatMap shown
    | .cyclic definitions root => ((Fields.get? definitions root).map shown).getD []
    | _ => [n] := by
  rw [shown]
  split
  · rename_i hk
    simp [hk]
  · rename_i definitions root hk
    rw [hk]
    split
    · rename_i hr
      simp [hr]
    · rename_i hr
      simp [hr]
  · rename_i hunion hcyclic
    split
    · rename_i hk
      exact absurd hk (hunion _)
    · rename_i hk
      exact absurd hk (hcyclic _ _)
    · rfl

/-- **The names of the references that opening a node comes to.** -/
def namesShown (n : Node) : List String :=
  n.shown.flatMap fun m =>
    match m.kind with
    | .ref name => [name]
    | _ => []

theorem mem_namesShown_iff {n : Node} {name : String} : name ∈ n.namesShown ↔ ∃ m ∈ n.shown, m.kind = .ref name := by
  rw [namesShown, List.mem_flatMap]
  refine exists_congr fun m => and_congr Iff.rfl ?_
  cases m.kind <;> simp [eq_comm]

theorem namesShown_eq (n : Node) : n.namesShown =
    match n.kind with
    | .union variants => variants.flatMap namesShown
    | .cyclic definitions root => ((Fields.get? definitions root).map namesShown).getD []
    | .ref name => [name]
    | _ => [] := by
  rw [namesShown, shown_eq]
  cases hk : n.kind with
  | union variants => exact List.flatMap_assoc
  | cyclic definitions root =>
    dsimp only
    cases Fields.get? definitions root <;> rfl
  | _ => simp [hk]

theorem namesShown_of_kind {m n : Node} (h : m.kind = n.kind) : m.namesShown = n.namesShown := by
  rw [namesShown_eq, namesShown_eq n, h]

theorem mem_namesShown_bundle {definitions : Fields Node} {root name : String} :
    name ∈ (Node.cyclic definitions root).namesShown ↔
      ∃ target, Fields.get? definitions root = some target ∧ name ∈ target.namesShown := by
  rw [namesShown_eq]
  show name ∈ ((Fields.get? definitions root).map namesShown).getD [] ↔ _
  cases Fields.get? definitions root <;> simp

end Node

namespace Setting

variable {s t : Setting} {join : List Node → Node} {leaf leaf' follow follow' : Node → Outcome (Option Node)}

theorem openRoot_eq (s : Setting) (root : String) (definitions : List (String × Node)) :
    s.openRoot join leaf follow root definitions =
      match Fields.get? definitions root with
      | some target => s.openNode join leaf follow target
      | none => .failed (.missing (.root root)) := by
  induction definitions with
  | nil => rfl
  | cons e rest ih =>
    obtain ⟨name, n⟩ := e
    rw [openRoot, Fields.get?_cons, ih]
    split <;> rfl

/-- **Opening depends on what it comes to.** -/
theorem openNode_congr (hoperator : t.operator = s.operator) {n : Node} (hleaf : ∀ m ∈ n.shown, leaf' m = leaf m)
    (hfollow : ∀ m ∈ n.shown, ∀ name, m.kind = .ref name → follow' m = follow m) :
    t.openNode join leaf' follow' n = s.openNode join leaf follow n := by
  induction n using Node.induction_on_parts with
  | node n ih =>
    rw [Node.shown_eq] at hleaf hfollow
    obtain ⟨kind, modifiers, annotations⟩ := n
    cases kind with
    | union variants =>
      simp only [openNode, openEach_eq_collect?]
      refine congrArg (· >>= _) (collect?_congr fun c hc => ih c hc (fun m hm => ?_) fun m hm => ?_)
      · exact hleaf m (List.mem_flatMap.2 ⟨c, hc, hm⟩)
      · exact hfollow m (List.mem_flatMap.2 ⟨c, hc, hm⟩)
    | cyclic definitions root =>
      have hbundled : t.bundled definitions root = s.bundled definitions root := by
        funext result
        rw [bundled, bundled, hoperator]
      simp only [openNode, openRoot_eq, hbundled]
      cases hr : Fields.get? definitions root with
      | none => rfl
      | some target =>
        simp only [hr] at hleaf hfollow
        have hpart : target ∈ (Kind.cyclic definitions root).parts := List.mem_map.2 ⟨_, Fields.mem_of_get? hr, rfl⟩
        exact congrArg (· >>= _) (ih target hpart hleaf hfollow)
    | ref name => simpa only [openNode] using hfollow _ (List.mem_singleton_self _) name rfl
    | _ => simpa only [openNode] using hleaf _ (List.mem_singleton_self _)

theorem subject_reference {n : Node} {name : String} (hk : n.kind = .ref name) : s.subject n =
    match s.context.get? name with
    | none => .done n
    | some target => do return (← packageDefinition s.evaluate s.context name target).inherit n := by
  rw [subject, hk]
  dsimp only
  cases s.context.get? name <;> rfl

theorem subject_of_isConcrete {n : Node} (h : n.isConcrete = true) : s.subject n = .done n := by
  rw [subject]
  split
  · rename_i hk
    rw [Node.isConcrete_eq, hk] at h
    cases h
  · rfl

/-- Where no reference that is shown is bound, nothing is followed. -/
theorem openSubject_eq {n : Node} (h : ∀ name ∈ n.namesShown, s.context.has name = false) (join : List Node → Node)
    (leaf : Node → Outcome (Option Node)) : s.openSubject join leaf n = s.openNode join leaf leaf n := by
  rw [openSubject, openWithin]
  refine openNode_congr rfl (fun _ _ => rfl) fun m hm name hk => ?_
  have hunbound : s.context.get? name = none := by
    simpa [Fields.has] using h name (Node.mem_namesShown_iff.2 ⟨m, hm, hk⟩)
  have hsubject : s.subject m = .done m := by rw [subject_reference hk, hunbound]
  rw [hsubject, Outcome.done_bind, hk]

end Setting

/-! ## Non-interference -/

/-- **Whether an operator opens its first operand.** -/
def Operator.opens : Operator → Bool
  | .pick | .omit | .allOptional | .allRequired | .allReadonly | .allWritable | .keyOf | .index | .evaluate => true
  | _ => false

theorem Operator.isEager_of_opens {operator : Operator} (h : operator.opens = true) : operator.isEager = true := by
  cases operator <;> first | rfl | cases h

/-- **A closed bundle means the same in every context** that binds no reference at its root: an operator that opens it,
with concrete operands, has one outcome in all of them. -/
theorem closed_bundle_means_the_same (limits : Limits) {n : Node} {operator : Operator} {operands : List Node}
    {options : Annotations} (hk : n.kind = .deferred operator operands options) (hopens : operator.opens = true)
    (hoperands : ∀ c ∈ operands, c.isConcrete = true) {context other : Context}
    (hunbound : ∀ subject ∈ operands.head?, ∀ name ∈ subject.namesShown, context.has name = false ∧ other.has name = false) :
    instantiate limits context n = instantiate limits other n := by
  have heager := operator.isEager_of_opens hopens
  have halike : (operator.setting limits other).Alike (operator.setting limits context) operands := by
    refine ⟨rfl, rfl, fun join leaf subject hsubject => ?_, fun c hc => ?_⟩
    · rw [Setting.openSubject_eq fun name hname => (hunbound subject hsubject name hname).1,
        Setting.openSubject_eq fun name hname => (hunbound subject hsubject name hname).2]
      exact Setting.openNode_congr (by rfl) (fun _ _ => rfl) fun _ _ _ _ => rfl
    · rw [Setting.subject_of_isConcrete (hoperands c hc), Setting.subject_of_isConcrete (hoperands c hc)]
  rw [instantiate_of_isEager hk heager hoperands, instantiate_of_isEager hk heager hoperands, reduceEager_alike halike]

/-- What is taken out of a ring does not depend on another definition of its name. -/
theorem closed_bundle_means_the_same_ring :
    let ring : Node := .cyclic [("A", .object [("next", .reference "A"), ("item", .string)])] "A"
    let operands := [ring, .text "next"]
    (∀ c ∈ operands, c.isConcrete = true) ∧ ring.namesShown = [] ∧
      instantiate {} [] (.deferred .pick operands) = instantiate {} [("A", .number)] (.deferred .pick operands) := by
  intro ring operands
  have hoperands : ∀ c ∈ operands, c.isConcrete = true := by decide +kernel
  have hnone : ring.namesShown = [] := by decide +kernel
  refine ⟨hoperands, hnone, closed_bundle_means_the_same {} (n := .deferred .pick operands) rfl rfl hoperands ?_⟩
  intro subject hsubject name hname
  obtain rfl : ring = subject := Option.some.inj hsubject
  rw [hnone] at hname
  cases hname

/-- **A reference at the root of a closed bundle means what the context says.**  The name is defined in the bundle, but it
is looked up outside of it: it is not found, or another definition is. -/
theorem detour_leaves_its_bundle :
    let detour : Node := .cyclic [("A", .reference "B"), ("B", .object [("x", .string)])] "A"
    let outside : Context := [("B", .object [("y", .string)])]
    detour.isConcrete = true ∧ detour.isSealed = true ∧
      instantiate {} [] (.allOptional detour) = .done (.allOptional detour) ∧
      instantiate {} outside (.allOptional detour) =
        .done (.object [("y", Node.string.withModifiers ⟨true, false⟩)]) ∧
      instantiate {} [] (.allOptional detour) ≠ instantiate {} outside (.allOptional detour) := by
  intro detour outside
  have hunbound : instantiate {} [] (.allOptional detour) = .done (.allOptional detour) := by with_unfolding_all rfl
  have hbound : instantiate {} outside (.allOptional detour) =
      .done (.object [("y", Node.string.withModifiers ⟨true, false⟩)]) := by with_unfolding_all rfl
  refine ⟨by decide +kernel, by decide +kernel, hunbound, hbound, ?_⟩
  rw [hunbound, hbound]
  exact fun h => nomatch congrArg Node.kind (Outcome.done.inj h)

end Schemata
