import Schemata.Operator.Reduction
import Schemata.Instantiation.Run
import Schemata.Proofs.Instantiation.Nesting
import Schemata.Proofs.Node.Annotations
/-!
# Handing flags and annotations on

What a node inherits goes on to what it is instantiated to, whichever step is taken first.  For annotations this needs
that those in the middle are in order, and an operator writes its options over what it inherits.

- `m.HandsOn context origin`: what `m` inherits from `origin` goes on in this way.

Main statement: `run_inherit`.
-/
namespace Schemata

/-- **What a node inherits goes on to what becomes of it**: a reference that is followed and a call have their annotations
in order, and an operator that is reduced has no options that are in the way. -/
structure Node.HandsOn (m : Node) (context : Context) (origin : Node) : Prop where
  reference : ∀ name, m.kind = .ref name → context.has name = false ∨ m.annotations.Sorted
  call : ∀ target arguments, m.kind = .call target arguments → m.annotations.Sorted
  operator : ∀ operator operands options, m.kind = .deferred operator operands options →
    canReduce context operator operands = false ∨ origin.annotations = [] ∨ options = [] ∧ m.annotations.Sorted

variable {limits : Limits} {context : Context} {s : State} {m origin : Node}

/-- A new node in the middle changes nothing. -/
theorem Node.inherit_of_inherit (n : Node) (kind : Kind Node) (origin : Node) :
    n.inherit ((Node.of kind).inherit origin) = n.inherit origin := by
  rw [← Node.inherit_inherit n (m := .of kind) Annotations.sorted_nil, Node.inherit_of]

/-- **A step hands on what a node inherits.** -/
theorem step_inherit (h : m.HandsOn context origin) (evaluate : Evaluator) :
    step limits evaluate context s (m.inherit origin) =
      step limits evaluate context s m >>= fun r => .done (r.inherit origin) := by
  obtain ⟨kind, modifiers, annotations⟩ := m
  cases kind with
  | ref name =>
    simp only [step, Node.inherit]
    cases ht : context.get? name with
    | none => rfl
    | some target =>
      have hsorted : annotations.Sorted := (h.reference name rfl).resolve_left (by simp [Fields.has, ht])
      dsimp only
      split
      · rfl
      · rw [bind_assoc]
        refine congrArg _ (funext fun r => congrArg Outcome.done ?_)
        exact (Node.inherit_inherit r (m := ⟨.ref name, modifiers, annotations⟩) hsorted origin).symm
  | call target arguments =>
    simp only [step, Node.inherit]
    rw [bind_assoc]
    refine congrArg _ (funext fun r => congrArg Outcome.done ?_)
    exact (Node.inherit_inherit r (h.call target arguments rfl) origin).symm
  | deferred operator operands options =>
    simp only [step, Node.inherit, reduce]
    split
    · rename_i hcan
      have hoptions := (h.operator operator operands options rfl).resolve_left (by simpa using hcan)
      rw [bind_assoc]
      refine congrArg _ (funext fun reduction => ?_)
      cases reduction with
      | waiting operands => rfl
      | done result =>
        simp only [Outcome.done_bind, Outcome.pure_eq, Outcome.done.injEq, Node.mk.injEq, true_and]
        refine ⟨by simp [Modifiers.merge, Bool.or_assoc], ?_⟩
        rcases hoptions with hnone | ⟨rfl, hsorted⟩
        · rw [hnone]
          rfl
        · exact (Annotations.override_override _ hsorted _).symm
    · rfl
  | cyclic definitions root => rfl
  | _ =>
    simp only [step, Node.inherit, bind_assoc]
    rfl

theorem run_inherit (h : m.HandsOn context origin) (fuel : Nat) :
    run limits fuel context s (m.inherit origin) = run limits fuel context s m >>= fun r => .done (r.inherit origin) := by
  cases fuel with
  | zero => rfl
  | succ fuel =>
    simp only [run, step_inherit h, bind_assoc]

end Schemata
