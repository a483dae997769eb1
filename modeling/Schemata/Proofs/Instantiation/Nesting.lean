import Schemata.Proofs.Operator.Plans
/-!
# Nested steps

A step hands further nodes to the evaluator, and each of them takes a step of its own inside of it.

- `stepAt limits p` is the step at a point, on top of an evaluator; `run` is this step over and over.
- `Heir` lists what the state of a nested step may be.  It comes from the state around it, except below a deferred
  operator, where it may also start afresh.
- `Nested limits query k p` says that the run of a query comes to the point `p` inside `k` steps.

Main statement: `planned_stepAt`, a step asks under states that it hands on, and nothing else decides how it ends.
-/
namespace Schemata

open Planned

/-! ## States -/

theorem State.eq_of_descend {limits : Limits} {s t : State} (h : s.descend limits = .done t) :
    s.depth < limits.maxDepth ∧ t = { s with depth := s.depth + 1 } := by
  unfold descend at h
  split at h
  · cases h
  · cases h
    exact ⟨by omega, rfl⟩

theorem State.eq_of_enter {limits : Limits} {s inner : State} {name : String} {arguments : List Node}
    (h : s.enter limits name arguments = .done inner) :
    ∃ frames, (frames = s.frames ∨ frames = s.frames.tail) ∧
      inner = { s with frames := ⟨name, arguments⟩ :: frames } := by
  unfold enter at h
  split at h
  · cases h
    exact ⟨s.frames.tail, .inr rfl, rfl⟩
  · unfold push at h
    dsimp only at h
    split at h
    · cases h
    · cases h
      exact ⟨s.frames, .inl rfl, rfl⟩

/-! ## One step -/

/-- **The step at a point**, if the depth limit allows it, on top of an evaluator. -/
def stepAt (limits : Limits) (p : Point) (evaluate : Evaluator) : Outcome Node := do
  step limits evaluate p.context (← p.state.descend limits) p.node

theorem run_succ (limits : Limits) (fuel : Nat) (p : Point) :
    (run limits (fuel + 1)).answer p = stepAt limits p (run limits fuel) := rfl

theorem stepAt_of_descend {limits : Limits} {p : Point} {s : State} (h : p.state.descend limits = .done s)
    (evaluate : Evaluator) : stepAt limits p evaluate = step limits evaluate p.context s p.node := by
  rw [stepAt, h]
  rfl

theorem run_of_descend {limits : Limits} {fuel : Nat} {context : Context} {s t : State} {n : Node}
    (h : s.descend limits = .done t) : run limits (fuel + 1) context s n = step limits (run limits fuel) context t n := by
  rw [run, h]
  rfl

def Kind.isStructural {α : Type} : Kind α → Bool
  | .cyclic .. | .ref _ | .call .. | .deferred .. | .generic .. => false
  | _ => true

theorem step_of_isStructural {limits : Limits} {n : Node} (h : n.kind.isStructural = true) (evaluate : Evaluator)
    (context : Context) (s : State) :
    step limits evaluate context s n = do return n.rebuild (← n.kind.traverse (evaluate context s)) := by
  obtain ⟨kind, modifiers, annotations⟩ := n
  cases kind <;> first | rfl | cases h

theorem step_of_call {limits : Limits} {evaluate : Evaluator} {context : Context} {s : State} {n target : Node}
    {arguments : List Node} (hk : n.kind = .call target arguments) : step limits evaluate context s n = do
      return (← call limits evaluate context s target arguments).inherit n := by
  simp only [step, hk]

/-- **What the state of a step nested inside a step at `n` may be**, where that step has gone down to the state `s`. -/
inductive Heir (limits : Limits) (n : Node) (s : State) : State → Prop
  | same : Heir limits n s s
  | declared (parameters : List (Parameter Node)) : Heir limits n s (s.declare parameters)
  /-- Inside of the expansion of a call.  A named call that is being expanded already is not expanded again. -/
  | entered {name : String} {arguments : List Node} {inner : State}
      (new : name = anonymous ∨ s.isExpanding name arguments = false)
      (enter : s.enter limits name arguments = .done inner) : Heir limits n s inner
  /-- Definitions of a bundle or of a module. -/
  | fresh {operator : Operator} {operands : List Node} {options : Annotations}
      (deferred : n.kind = .deferred operator operands options) : Heir limits n s .initial

section
variable {limits : Limits} {allowed : Point → Prop}

theorem planned_bindParameters {state : State} (h : ∀ context n, allowed ⟨context, state, n⟩) (scope : Context)
    (parameters : List (Parameter Node)) (bindings : Fields Node) (arguments : List Node) :
    Planned allowed fun evaluate => bindParameters evaluate scope state bindings parameters arguments := by
  induction parameters generalizing bindings arguments with
  | nil => exact const (.done bindings)
  | cons p ps ih =>
    refine bind (question (h scope _)) fun constraint => ?_
    -- The argument, or the default in its place, is checked and bound alike.
    have hcheck : ∀ candidate, Planned allowed fun evaluate =>
        if candidate.isConcrete && constraint.isConcrete && !candidate.fits constraint then
          .failed (.constraintViolation p.name constraint candidate)
        else bindParameters evaluate scope state (bindings.insert p.name candidate) ps arguments.tail := by
      intro candidate
      split
      · exact const _
      · exact ih _ _
    cases arguments with
    | nil => exact bind (question (h scope _)) hcheck
    | cons argument arguments => exact hcheck argument

theorem planned_expansion {context : Context} {s : State} {name : String} {arguments : List Node}
    (hs : ∀ context n, allowed ⟨context, s, n⟩)
    (hinner : ∀ inner n, s.enter limits name arguments = .done inner → allowed ⟨context, inner, n⟩)
    (parameters : List (Parameter Node)) (body : Node) :
    Planned allowed fun evaluate => expansion limits evaluate context s name parameters body arguments := by
  refine bind (planned_bindParameters hs _ parameters [] arguments) fun bindings => ?_
  cases henter : s.enter limits name arguments with
  | done inner => exact question (hinner inner _ henter)
  | failed e => exact const (.failed e)
  | exhausted => exact const .exhausted

theorem planned_expandGeneric {context : Context} {s : State} {n : Node}
    (h : ∀ context state n', Heir limits n s state → allowed ⟨context, state, n'⟩) (name : String)
    (parameters : List (Parameter Node)) (body : Node) (arguments : List Node) :
    Planned allowed fun evaluate => expandGeneric limits evaluate context s name parameters body arguments := by
  simp only [expandGeneric]
  by_cases hrep : (name != anonymous && s.isExpanding name arguments) = true
  · simp only [hrep, if_true]
    exact const _
  · have hnew : name = anonymous ∨ s.isExpanding name arguments = false := by
      by_cases ha : name = anonymous
      · exact .inl ha
      · exact .inr (by simpa [ha] using hrep)
    simp only [hrep]
    have hexpansion := planned_expansion (fun c n' => h c s n' .same)
      (fun inner n' henter => h context inner n' (.entered hnew henter)) parameters body
    exact bind hexpansion fun expanded => question (h context s _ .same)

theorem planned_callee {context : Context} {s : State} (h : ∀ context n, allowed ⟨context, s, n⟩) (target : Node) :
    Planned allowed fun evaluate => callee evaluate context s target := by
  simp only [callee]
  split
  · exact const _
  · split <;> exact const _
  · refine bind (question (h context target)) fun resolved => ?_
    split <;> exact const _

section
variable {context : Context} {s : State} {n : Node}
  (h : ∀ context state n', Heir limits n s state → allowed ⟨context, state, n'⟩)
include h

/-- What a call goes on with, once it is known what it calls. -/
theorem planned_called (arguments : List Node) (found : Callee) :
    Planned allowed fun evaluate => match found with
      | .generic name parameters body => expandGeneric limits evaluate context s name parameters body arguments
      | .other target => return .call target arguments := by
  cases found with
  | generic name parameters body => exact planned_expandGeneric h name parameters body arguments
  | other target => exact const _

/-- What a call goes on with, once its arguments are instantiated. -/
theorem planned_supplied (target : Node) (arguments : List Node) :
    Planned allowed fun evaluate => do
      if arguments.any s.dependsOnDeclared then return .call target arguments
      match ← callee evaluate context s target with
      | .generic name parameters body => expandGeneric limits evaluate context s name parameters body arguments
      | .other target => return .call target arguments := by
  by_cases hdep : arguments.any s.dependsOnDeclared = true
  · simp only [hdep, if_true]
    exact const _
  · simp only [hdep]
    exact bind (planned_callee (fun context n' => h context s n' .same) target) (planned_called h arguments)

theorem planned_call (target : Node) (arguments : List Node) :
    Planned allowed fun evaluate => call limits evaluate context s target arguments :=
  bind (mapM fun argument _ => question (h context s argument .same)) (planned_supplied h target)

end

/-- **A step asks under states that it hands on.** -/
theorem planned_step {context : Context} {s : State} {n : Node}
    (h : ∀ context state n', Heir limits n s state → allowed ⟨context, state, n'⟩) :
    Planned allowed fun evaluate => step limits evaluate context s n := by
  have hs : ∀ context n', allowed ⟨context, s, n'⟩ := fun context n' => h context s n' .same
  obtain ⟨kind, modifiers, annotations⟩ := n
  cases kind with
  | cyclic definitions root => exact const _
  | ref name =>
    simp only [step]
    cases context.get? name with
    | none => exact const _
    | some target =>
      dsimp only
      split
      · exact const _
      · exact then_const (question (hs context target)) _
  | call target arguments => exact then_const (planned_call h target arguments) _
  | deferred operator operands options =>
    exact planned_reduce (fun context n' => h context .initial n' (.fresh rfl)) hs _ operands options
  | generic parameters body =>
    exact then_const (traverse fun c _ => question (h _ _ c (.declared parameters))) _
  | _ => exact then_const (traverse fun c _ => question (hs context c)) _

/-- The step at a point keeps to a plan if it does so below the depth limit. -/
theorem planned_stepAt_of_descend {p : Point} (h : ∀ s, p.state.descend limits = .done s →
    Planned allowed fun evaluate => step limits evaluate p.context s p.node) : Planned allowed (stepAt limits p) := by
  cases hd : p.state.descend limits with
  | done s =>
    have heq : stepAt limits p = fun evaluate => step limits evaluate p.context s p.node :=
      funext fun evaluate => stepAt_of_descend hd evaluate
    rw [heq]
    exact h s hd
  | failed e =>
    have heq : stepAt limits p = fun _ => .failed e := funext fun evaluate => by rw [stepAt, hd]; rfl
    rw [heq]
    exact const _
  | exhausted =>
    have heq : stepAt limits p = fun _ => .exhausted := funext fun evaluate => by rw [stepAt, hd]; rfl
    rw [heq]
    exact const _

/-- **The step at a point keeps to a plan.** -/
theorem planned_stepAt (limits : Limits) (p : Point) :
    Planned (fun q => ∃ s, p.state.descend limits = .done s ∧ Heir limits p.node s q.state) (stepAt limits p) :=
  planned_stepAt_of_descend fun s hd => planned_step fun _ _ _ hh => ⟨s, hd, hh⟩

end

/-! ## Calls -/

/-- A generic with the name that it is called by, and the arguments of the call. -/
structure GenericCall where
  name : String
  parameters : List (Parameter Node)
  body : Node
  arguments : List Node

def GenericCall.key (c : GenericCall) : String := expansionName c.name c.arguments

/-- **The step at `p` comes to a call of a generic**, in a state gone down to. -/
structure Calls (limits : Limits) (evaluate : Evaluator) (p : Point) (s : State) (c : GenericCall) : Prop where
  descend : p.state.descend limits = .done s
  site : ∃ target operands, p.node.kind = .call target operands ∧
    operands.mapM (evaluate p.context s) = .done c.arguments ∧
    callee evaluate p.context s target = .done (.generic c.name c.parameters c.body)

/-! ## Nested steps -/

/-- **The step at `p` comes to `q`**, where nested steps have fuel enough to end. -/
def Invokes (limits : Limits) (p q : Point) : Prop := ∃ fuel, Asks (stepAt limits p) (run limits fuel) q

theorem Invokes.heir {limits : Limits} {p q : Point} (h : Invokes limits p q) :
    ∃ s, p.state.descend limits = .done s ∧ Heir limits p.node s q.state := by
  obtain ⟨fuel, h⟩ := h
  exact (planned_stepAt limits p).allowed_of_asks h

/-- **What can be asked for**: a node, a module or a bundle. -/
inductive Query where
  | node (context : Context) (n : Node)
  | module (context : Context)
  | cyclic (context : Context) (name : String) (n : Node)

namespace Query

/-- How a query ends on top of an evaluator; what it gives is a list of named nodes, without names for a node. -/
def outcome (evaluate : Evaluator) : Query → Outcome Context
  | .node context n => do return [("", ← evaluate context .initial n)]
  | .module context => assemble evaluate context context.names
  | .cyclic context name n => do return [(name, ← packageDefinition evaluate context name n)]

/-- The steps that a query begins with: they are inside of no other. -/
def Opens (limits : Limits) (query : Query) (p : Point) : Prop :=
  ∃ fuel, Asks (fun evaluate => query.outcome evaluate) (run limits fuel) p

theorem planned_outcome (query : Query) :
    Planned (fun q => q.state = .initial) fun evaluate => query.outcome evaluate := by
  cases query with
  | node context n =>
    have hq : Planned (fun q => q.state = .initial) fun evaluate => evaluate context .initial n := question rfl
    exact then_const hq _
  | module context => exact planned_assemble (fun _ _ => rfl) context context.names
  | cyclic context name n => exact then_const (planned_packageDefinition (fun _ _ => rfl) context name n) _

theorem Opens.state_eq {limits : Limits} {query : Query} {p : Point} (h : query.Opens limits p) :
    p.state = .initial := by
  obtain ⟨fuel, h⟩ := h
  exact query.planned_outcome.allowed_of_asks h

theorem opens_node (limits : Limits) (context : Context) (n : Node) :
    (Query.node context n).Opens limits ⟨context, .initial, n⟩ := by
  refine ⟨0, Asks.of_failed (e := .depthExceeded 0) (fun other h => ?_) ?_⟩
  · have ho : other context .initial n = .failed (.depthExceeded 0) := h
    simp only [outcome, ho]
    rfl
  · intro h
    cases h

end Query

/-- **The run of a query comes to `p` inside of `k` steps.** -/
inductive Nested (limits : Limits) (query : Query) : Nat → Point → Prop
  | opens {p : Point} (h : query.Opens limits p) : Nested limits query 0 p
  | invokes {k : Nat} {p q : Point} (hp : Nested limits query k p) (h : Invokes limits p q) :
    Nested limits query (k + 1) q

end Schemata
