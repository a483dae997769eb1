import Mathlib.Data.List.Chain
import Schemata.Proofs.Instantiation.Repetition
import Schemata.Proofs.Operator.Causes
/-!
# The discipline of the call stack

A call of the generic on top of the call stack takes its place, and any other call goes on top while there is room.  So no
step runs too deep or inside of too many calls, and two calls of one generic never stand next to each other.

- `State.Disciplined limits s`: what every state of a run satisfies.
- `Attempted limits query c`: the run of a query comes to expand the call `c`, if the limit on calls lets it.

Main statement: `call_stack_discipline`.
-/
namespace Schemata

open Planned

variable {limits : Limits} {query : Query} {p q : Point} {c : GenericCall}

/-! ## States -/

/-- The names of the calls, innermost first. -/
def State.generics (s : State) : List String := s.frames.map (·.name)

/-- **A state within its limits**, where no call is directly inside of a call of the same generic. -/
structure State.Disciplined (limits : Limits) (s : State) : Prop where
  depth : s.depth ≤ limits.maxDepth
  calls : s.frames.length ≤ limits.maxCallDepth
  apart : s.generics.IsChain (· ≠ ·)

namespace State

variable {s t : State}

theorem disciplined_initial (limits : Limits) : State.initial.Disciplined limits :=
  ⟨Nat.zero_le _, Nat.zero_le _, .nil⟩

theorem generics_replaceTop {name : String} (h : s.peek = some name) (arguments : List Node) :
    (s.replaceTop name arguments).generics = s.generics := by
  obtain ⟨frames, declared, depth⟩ := s
  cases frames with
  | nil => cases h
  | cons top older =>
    cases h
    rfl

namespace Disciplined

theorem descend (h : s.Disciplined limits) (hd : s.descend limits = .done t) : t.Disciplined limits := by
  obtain ⟨hlt, rfl⟩ := eq_of_descend hd
  exact ⟨hlt, h.calls, h.apart⟩

theorem declare (h : s.Disciplined limits) (parameters : List (Parameter Node)) :
    (s.declare parameters).Disciplined limits := ⟨h.depth, h.calls, h.apart⟩

/-- **Entering a call keeps the discipline**: in the place of the call on top the names stay, on top of it another one is
added. -/
theorem enter (h : s.Disciplined limits) {name : String} {arguments : List Node}
    (he : s.enter limits name arguments = .done t) : t.Disciplined limits := by
  rw [State.enter] at he
  by_cases htop : s.peek = some name
  · rw [if_pos (by simp [htop])] at he
    cases he
    have hgenerics := generics_replaceTop htop arguments
    have hlength : (s.replaceTop name arguments).frames.length = s.frames.length := by
      simpa [generics] using congrArg List.length hgenerics
    exact ⟨h.depth, hlength ▸ h.calls, hgenerics ▸ h.apart⟩
  · rw [if_neg (by simpa using htop), push] at he
    dsimp only at he
    split at he
    · cases he
    · rename_i hroom
      cases he
      refine ⟨h.depth, by simpa using hroom, List.IsChain.cons h.apart fun top hhead => ?_⟩
      rintro rfl
      exact htop (by simpa [generics, peek, List.head?_map] using hhead)

end Disciplined
end State

/-- **What a step hands on is disciplined** where its own state is. -/
theorem Heir.disciplined {n : Node} {s t : State} (h : Heir limits n s t) (hs : s.Disciplined limits) :
    t.Disciplined limits := by
  cases h with
  | same => exact hs
  | declared parameters => exact hs.declare parameters
  | entered new enter => exact hs.enter enter
  | fresh deferred => exact State.disciplined_initial limits

/-- **Every state of a run is disciplined**, by induction on the nesting. -/
theorem Nested.disciplined {k : Nat} (h : Nested limits query k p) : p.state.Disciplined limits := by
  induction h with
  | opens ho => exact ho.state_eq ▸ State.disciplined_initial limits
  | invokes hp hpq ih =>
    obtain ⟨s, hd, hh⟩ := hpq.heir
    exact hh.disciplined (ih.descend hd)

/-! ## Runs that call one generic -/

/-- **A call that the run of a query comes to expand**, whether or not the limit on calls lets it. -/
def Attempted (limits : Limits) (query : Query) (c : GenericCall) : Prop :=
  ∃ k p s fuel target operands, Nested limits query k p ∧ p.state.descend limits = .done s ∧
    p.node.kind = .call target operands ∧ c.Due (run limits fuel) p.context s target operands

theorem Expands.attempted {k : Nat} (hp : Nested limits query k p) (h : Expands limits p c q) :
    Attempted limits query c := by
  cases h with
  | @body fuel s inner bindings calls closed new binds enter =>
    obtain ⟨target, operands, hkind, harguments, hfound⟩ := calls.site
    exact ⟨k, p, s, fuel, target, operands, hp, calls.descend, hkind, harguments, closed, hfound, new, bindings, binds⟩

/-- An evaluator that says more lets the same calls come to be expanded. -/
theorem GenericCall.Due.mono {evaluate other : Evaluator} {context : Context} {s : State} {target : Node}
    {operands : List Node} (h : c.Due evaluate context s target operands)
    (hother : ∀ q, (evaluate.answer q).LiftsTo (other.answer q)) : c.Due other context s target operands := by
  have hoperands : Planned (fun _ => True) fun evaluate : Evaluator => operands.mapM (evaluate context s) :=
    Planned.mapM fun _ _ => question trivial
  have hcallee : Planned (fun _ => True) fun evaluate => callee evaluate context s target :=
    planned_callee (fun _ _ => trivial) target
  have hbind : Planned (fun _ => True) fun evaluate => bindParameters evaluate
      (Fields.without context (c.parameters.map (·.name))) s [] c.parameters c.arguments :=
    planned_bindParameters (fun _ _ => trivial) _ _ _ _
  obtain ⟨bindings, hbindings⟩ := h.binds
  exact ⟨(hoperands.liftsTo hother).done h.arguments, h.closed, (hcallee.liftsTo hother).done h.found, h.new,
    bindings, (hbind.liftsTo hother).done hbindings⟩

/-- **Only the called generic is on the call stack.** -/
theorem Nested.generics_eq {generic : String} (hsame : ∀ c, Attempted limits query c → c.name = generic) {k : Nat}
    (h : Nested limits query k p) : ∀ name ∈ p.state.generics, name = generic := by
  induction h with
  | opens ho =>
    rw [ho.state_eq]
    exact fun _ hname => absurd hname List.not_mem_nil
  | @invokes k p q hp hpq ih =>
    rcases hpq.expands_or_frames with ⟨c, hc⟩ | hfresh | hframes
    · have hname : c.name = generic := hsame c (hc.attempted hp)
      rcases hc.frames.2 with ⟨-, hq⟩ | ⟨-, hq⟩ <;> rw [State.generics, hq, List.map_cons, List.forall_mem_cons]
      · refine ⟨hname, fun name hmem => ih name ?_⟩
        rw [List.map_tail] at hmem
        exact List.mem_of_mem_tail hmem
      · exact ⟨hname, ih⟩
    · rw [hfresh]
      exact fun _ hname => absurd hname List.not_mem_nil
    · rw [State.generics, hframes]
      exact ih

/-- Calls of one generic take each other's place. -/
theorem Nested.frames_length_le {generic : String} (hsame : ∀ c, Attempted limits query c → c.name = generic) {k : Nat}
    (h : Nested limits query k p) : p.state.frames.length ≤ 1 := by
  have hgenerics := h.generics_eq hsame
  have hapart := h.disciplined.apart
  have hlength : p.state.generics.length = p.state.frames.length := List.length_map ..
  rw [← hlength]
  match p.state.generics, hgenerics, hapart with
  | [], _, _ => exact Nat.zero_le 1
  | [_], _, _ => exact Nat.le_refl 1
  | inner :: outer :: _, hgenerics, hapart =>
    have hinner := hgenerics inner List.mem_cons_self
    have houter := hgenerics outer (List.mem_cons_of_mem _ List.mem_cons_self)
    exact absurd (hinner.trans houter.symm) (List.isChain_cons_cons.1 hapart).1

/-- Any cause but the limit on calls. -/
def NotCalls (cause : Option InstantiationError) : Prop :=
  ∀ limit callstack, cause ≠ some (.callDepthExceeded limit callstack)

theorem ownCauses_notCalls : OwnCauses NotCalls where
  mismatch _ _ _ _ _ h := by cases h
  arity _ _ _ _ _ h := by cases h
  missing _ _ _ h := by cases h

theorem notCalls_none : NotCalls none := fun _ _ h => by cases h

/-- **A run that calls one generic never has too many calls**, by induction on the fuel. -/
theorem Nested.stopsBy_notCalls {generic : String} (hsame : ∀ c, Attempted limits query c → c.name = generic)
    (hroom : 1 ≤ limits.maxCallDepth) {fuel k : Nat} (h : Nested limits query k p) :
    ((run limits fuel).answer p).StopsBy NotCalls := by
  induction fuel generalizing k p with
  | zero => exact notCalls_none
  | succ fuel ih =>
    -- What is not asked may as well be left open.
    let asked : Evaluator := (run limits fuel).within (Asks (stepAt limits p) (run limits fuel))
    have hasked : stepAt limits p asked = stepAt limits p (run limits fuel) :=
      (planned_stepAt limits p).within_asks (run limits fuel)
    have hanswer : ∀ q, (asked.answer q).StopsBy NotCalls := by
      intro q
      by_cases hq : Asks (stepAt limits p) (run limits fuel) q
      · rw [Evaluator.answer_within_of hq]
        exact ih (.invokes h ⟨fuel, hq⟩)
      · rw [Evaluator.answer_within_of_not hq]
        exact notCalls_none
    have hevaluate : ∀ context s n, (asked context s n).StopsBy NotCalls := fun context s n => hanswer ⟨context, s, n⟩
    rw [run_succ, ← hasked, stepAt]
    refine Outcome.StopsBy.bind ?_ fun s hd => ?_
    · exact State.stopsBy_descend (fun _ _ hcause => by cases hcause) p.state
    · refine step_stopsBy hevaluate (fun _ _ _ _ _ hcause => by cases hcause) (fun target operands c hkind hc => ?_)
        fun operator operands options _ => reduce_stopsBy ownCauses_notCalls hevaluate
          (Setting.firstOpens ownCauses_notCalls hevaluate notCalls_none) _ operands options
      have hdue := hc.mono ((run limits fuel).within_liftsTo _)
      have hname : c.name = generic := hsame c ⟨k, p, s, fuel, target, operands, h, hd, hkind, hdue⟩
      obtain ⟨-, rfl⟩ := State.eq_of_descend hd
      refine State.stopsBy_enter ?_ c.arguments
      show p.state.peek = some c.name ∨ p.state.frames.length < limits.maxCallDepth
      have hgenerics := h.generics_eq hsame
      cases hframes : p.state.frames with
      | nil => exact .inr hroom
      | cons top older =>
        rw [State.generics, hframes, List.map_cons, List.forall_mem_cons] at hgenerics
        exact .inl (by rw [State.peek, hframes, hname, ← hgenerics.1]; rfl)

/-! ## The law -/

/-- **The discipline of the call stack.**  Every state that a step runs under keeps to the limits, and no two calls of one
generic stand next to each other in it.  So a run that comes to expand calls of one generic only is never inside of more
than one call, and never fails for too many of them, as soon as one is allowed. -/
theorem call_stack_discipline (limits : Limits) (query : Query) :
    (∀ k p s, Nested limits query k p → p.state.descend limits = .done s → s.Disciplined limits) ∧
    ∀ generic : String, (∀ c, Attempted limits query c → c.name = generic) →
      (∀ k p s, Nested limits query k p → p.state.descend limits = .done s → s.frames.length ≤ 1) ∧
      (1 ≤ limits.maxCallDepth → ∀ fuel limit callstack,
        query.outcome (run limits fuel) ≠ .failed (.callDepthExceeded limit callstack)) := by
  refine ⟨fun k p s hp hd => hp.disciplined.descend hd, fun generic hsame => ⟨fun k p s hp hd => ?_, ?_⟩⟩
  · obtain ⟨-, rfl⟩ := State.eq_of_descend hd
    exact hp.frames_length_le hsame
  · intro hroom fuel limit callstack hfailed
    have hstops : (query.outcome (run limits fuel)).StopsBy NotCalls :=
      query.stopsBy_of_asks ownCauses_notCalls fun q hq => Nested.stopsBy_notCalls hsame hroom (.opens ⟨fuel, hq⟩)
    rw [hfailed] at hstops
    exact hstops limit callstack rfl

/-- All calls of the run of a generic that calls itself. -/
theorem Chain.name_eq_of_attempted (h : Attempted {} (.node context node) c) : c.name = "F" := by
  obtain ⟨k, p, s, fuel, target, operands, hp, hd, hkind, hc⟩ := h
  have hcalls : Calls {} (run {} fuel) p s c := ⟨hd, target, operands, hkind, hc.arguments, hc.found⟩
  rcases nested hp with ⟨-, rfl⟩ | ⟨-, rfl | ⟨definitions, root, hclosed⟩⟩ | ⟨-, rfl⟩
  · rw [eq_of_calls rfl rfl hcalls]
    rfl
  · cases hkind
  · rw [hclosed] at hkind
    cases hkind
  · rw [eq_of_calls rfl rfl hcalls]
    rfl

/-- A generic that calls itself is inside of one call at most, and comes to be. -/
theorem call_stack_discipline_chain :
    (∀ c, Attempted {} (.node Chain.context Chain.node) c → c.name = "F") ∧
      Nested {} (.node Chain.context Chain.node) 1 Chain.body ∧ Chain.body.state.frames.length = 1 ∧
      (∀ k p s, Nested {} (.node Chain.context Chain.node) k p → p.state.descend {} = .done s → s.frames.length ≤ 1) ∧
      ∀ fuel limit callstack, (Query.node Chain.context Chain.node).outcome (run {} fuel) ≠
        .failed (.callDepthExceeded limit callstack) := by
  have hsame : ∀ c, Attempted {} (.node Chain.context Chain.node) c → c.name = "F" := fun c => Chain.name_eq_of_attempted
  have hlaw := (call_stack_discipline {} (.node Chain.context Chain.node)).2 "F" hsame
  have hbody : Nested {} (.node Chain.context Chain.node) 1 Chain.body :=
    .invokes (.opens (Query.opens_node _ _ _)) Chain.expands.invokes
  exact ⟨hsame, hbody, rfl, hlaw.1, hlaw.2 (by decide)⟩

end Schemata
