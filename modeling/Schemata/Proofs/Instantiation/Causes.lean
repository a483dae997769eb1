import Schemata.Proofs.Instantiation.Nesting
import Schemata.Proofs.Node.Parts
/-!
# What stops a run

Apart from operators, a step adds two causes only to those that come from nested steps: a constraint that an argument
violates, and the limit on calls.

- `Outcome.StopsBy causes`: an outcome that is not done has one of the causes; none stands for fuel that is spent.
- `GenericCall.Due`: a call has come so far that only the limit on calls can keep it from being expanded.

Main statement: `step_stopsBy`.
-/
namespace Schemata

/-- **An outcome is done or has one of the causes.** -/
def Outcome.StopsBy {α : Type} (causes : Option InstantiationError → Prop) : Outcome α → Prop
  | .done _ => True
  | .failed e => causes (some e)
  | .exhausted => causes none

variable {causes : Option InstantiationError → Prop} {α β : Type}

namespace Outcome

theorem StopsBy.bind {x : Outcome α} {f : α → Outcome β} (hx : x.StopsBy causes)
    (hf : ∀ a, x = .done a → (f a).StopsBy causes) : (x >>= f).StopsBy causes := by
  cases x with
  | done a => exact hf a rfl
  | failed e => exact hx
  | exhausted => exact hx

theorem StopsBy.then {x : Outcome α} {f : α → β} (hx : x.StopsBy causes) : (x >>= fun a => .done (f a)).StopsBy causes :=
  hx.bind fun _ _ => trivial

theorem stopsBy_mapM {f : α → Outcome β} {xs : List α} (h : ∀ x ∈ xs, (f x).StopsBy causes) :
    (xs.mapM f).StopsBy causes := by
  induction xs with
  | nil => trivial
  | cons x xs ih =>
    rw [List.mapM_cons]
    exact (h x List.mem_cons_self).bind fun y _ => (ih fun z hz => h z (List.mem_cons_of_mem x hz)).then

end Outcome

theorem stopsBy_traverse {f : α → Outcome β} {kind : Kind α} (h : ∀ c ∈ kind.parts, (f c).StopsBy causes) :
    (kind.traverse f).StopsBy causes := by
  have hfields : ∀ fs : List (String × α), (∀ c ∈ fs.map Prod.snd, (f c).StopsBy causes) →
      (fs.mapM fun e : String × α => f e.2 >>= fun y => Outcome.done (e.1, y)).StopsBy causes :=
    fun fs hfs => Outcome.stopsBy_mapM fun e he => (hfs e.2 (List.mem_map_of_mem he)).then
  have hparameter : ∀ {γ : Type} (p : Parameter α) (g : β → β → γ), (∀ c ∈ p.parts, (f c).StopsBy causes) →
      (f p.constraint >>= fun x => f p.default >>= fun y => Outcome.done (g x y)).StopsBy causes :=
    fun p _ hp => (hp p.constraint (by simp [Parameter.parts])).bind fun _ _ =>
      (hp p.default (by simp [Parameter.parts])).then
  cases kind with
  | primitive | literal | ref => trivial
  | array item | wrapper w item => exact (h item List.mem_cons_self).then
  | tuple xs | union xs | intersect xs | templatePattern xs | deferred _ xs => exact (Outcome.stopsBy_mapM h).then
  | object fs | cyclic fs => exact (hfields fs h).then
  | function xs c | constructor xs c =>
    refine (Outcome.stopsBy_mapM fun x hx => h x (List.mem_append_left _ hx)).bind fun _ _ => ?_
    exact (h c (List.mem_append_right _ List.mem_cons_self)).then
  | dictionary key value =>
    exact (h key (by simp [Kind.parts])).bind fun _ _ => (h value (by simp [Kind.parts])).then
  | parameter p => exact hparameter p _ h
  | generic ps body =>
    refine Outcome.StopsBy.bind ?_ fun _ _ => (h body (by simp [Kind.parts])).then
    exact Outcome.stopsBy_mapM fun p hp =>
      hparameter p _ fun c hc => h c (List.mem_append_left _ (List.mem_flatMap.2 ⟨p, hp, hc⟩))
  | call target xs =>
    refine (h target List.mem_cons_self).bind fun _ _ => ?_
    exact (Outcome.stopsBy_mapM fun x hx => h x (List.mem_cons_of_mem target hx)).then

namespace Outcome

/-- With one cause only, what is not done has failed for it. -/
theorem StopsBy.eq_failed {x : Outcome α} {e : InstantiationError} (h : x.StopsBy (· = some e)) (hx : ∀ a, x ≠ .done a) :
    x = .failed e := by
  cases x with
  | done a => exact absurd rfl (hx a)
  | failed other => exact congrArg failed (Option.some.inj h)
  | exhausted => cases h

/-- **A list fails** where one step fails and the others are done or fail alike. -/
theorem mapM_eq_failed {f : α → Outcome β} {xs : List α} {e : InstantiationError}
    (h : ∀ x ∈ xs, (f x).StopsBy (· = some e)) (hfailed : ∃ x ∈ xs, f x = .failed e) : xs.mapM f = .failed e := by
  refine (stopsBy_mapM h).eq_failed fun ys hys => ?_
  obtain ⟨x, hx, he⟩ := hfailed
  obtain ⟨y, -, hy⟩ := exists_of_mem_left (forall₂_of_mapM hys) hx
  rw [he] at hy
  cases hy

end Outcome

/-- **A traversal fails** where one part fails and the others are done or fail alike. -/
theorem Kind.traverse_eq_failed {f : α → Outcome β} {kind : Kind α} {e : InstantiationError}
    (h : ∀ c ∈ kind.parts, (f c).StopsBy (· = some e)) (hfailed : ∃ c ∈ kind.parts, f c = .failed e) :
    kind.traverse f = .failed e := by
  refine (stopsBy_traverse h).eq_failed fun r hr => ?_
  obtain ⟨c, hc, he⟩ := hfailed
  obtain ⟨d, -, hd⟩ := exists_of_mem_left (Kind.forall₂_of_traverse hr).2 hc
  rw [he] at hd
  cases hd

/-! ## Calls that come to be expanded -/

/-- **The parameters of a call are bound.** -/
def GenericCall.Binds (evaluate : Evaluator) (context : Context) (s : State) (c : GenericCall) : Prop :=
  ∃ bindings, bindParameters evaluate (Fields.without context (c.parameters.map (·.name))) s [] c.parameters c.arguments =
    .done bindings

/-- **A call comes to be expanded** where a target is applied to operands: it is closed and new, and its parameters are
bound.  Only the limit on calls can still be in its way. -/
structure GenericCall.Due (evaluate : Evaluator) (context : Context) (s : State) (target : Node) (operands : List Node)
    (c : GenericCall) : Prop where
  arguments : operands.mapM (evaluate context s) = .done c.arguments
  closed : c.arguments.any s.dependsOnDeclared = false
  found : callee evaluate context s target = .done (.generic c.name c.parameters c.body)
  new : c.name = anonymous ∨ s.isExpanding c.name c.arguments = false
  binds : c.Binds evaluate context s

theorem State.stopsBy_descend {limits : Limits} (hdepth : causes (some (.depthExceeded limits.maxDepth))) (s : State) :
    (s.descend limits).StopsBy causes := by
  rw [descend]
  split
  · exact hdepth
  · trivial

/-- A call whose generic is on top of the call stack always has room; any other needs some. -/
theorem State.stopsBy_enter {limits : Limits} {s : State} {name : String}
    (hroom : s.peek = some name ∨ s.frames.length < limits.maxCallDepth) (arguments : List Node) :
    (s.enter limits name arguments).StopsBy causes := by
  rw [enter]
  split
  · trivial
  · rename_i htop
    have hlt : s.frames.length < limits.maxCallDepth := hroom.resolve_left fun hpeek => htop (by simp [hpeek])
    rw [push, if_neg (by simp only [List.length_cons]; omega)]
    trivial

/-! ## Steps -/

section
variable {limits : Limits} {evaluate : Evaluator} {context : Context} {s : State}
  (hevaluate : ∀ context s n, (evaluate context s n).StopsBy causes)
  (hviolation : ∀ parameter constraint received, causes (some (.constraintViolation parameter constraint received)))
include hevaluate hviolation

theorem stopsBy_bindParameters (scope : Context) (bindings : Fields Node) (parameters : List (Parameter Node))
    (arguments : List Node) : (bindParameters evaluate scope s bindings parameters arguments).StopsBy causes := by
  induction parameters generalizing bindings arguments with
  | nil => trivial
  | cons p ps ih =>
    refine (hevaluate _ _ _).bind fun constraint _ => ?_
    have hcheck : ∀ candidate, (if candidate.isConcrete && constraint.isConcrete && !candidate.fits constraint then
        .failed (.constraintViolation p.name constraint candidate)
        else bindParameters evaluate scope s (bindings.insert p.name candidate) ps arguments.tail).StopsBy causes := by
      intro candidate
      split
      · exact hviolation _ _ _
      · exact ih _ _
    cases arguments with
    | nil => exact (hevaluate _ _ _).bind fun candidate _ => hcheck candidate
    | cons argument arguments => exact hcheck argument

/-- An expansion stops for the causes of nested steps, for a violated constraint, or because there is no room on the call
stack, once the parameters are bound. -/
theorem stopsBy_expandGeneric (c : GenericCall)
    (henter : (c.name = anonymous ∨ s.isExpanding c.name c.arguments = false) → c.Binds evaluate context s →
      (s.enter limits c.name c.arguments).StopsBy causes) :
    (expandGeneric limits evaluate context s c.name c.parameters c.body c.arguments).StopsBy causes := by
  simp only [expandGeneric]
  split
  · trivial
  · rename_i hrepeats
    have hnew : c.name = anonymous ∨ s.isExpanding c.name c.arguments = false := by
      rwa [Bool.not_eq_true, Bool.and_eq_false_iff, bne_eq_false_iff_eq] at hrepeats
    refine Outcome.StopsBy.bind ?_ fun _ _ => hevaluate _ _ _
    refine (stopsBy_bindParameters hevaluate hviolation _ _ _ _).bind fun bindings hbindings => ?_
    exact (henter hnew ⟨bindings, hbindings⟩).bind fun _ _ => hevaluate _ _ _

omit hviolation in
theorem stopsBy_callee (target : Node) : (callee evaluate context s target).StopsBy causes := by
  simp only [callee]
  split
  · trivial
  · split <;> trivial
  · refine (hevaluate _ _ _).bind fun resolved _ => ?_
    split <;> trivial

theorem stopsBy_call (target : Node) (operands : List Node)
    (henter : ∀ c : GenericCall, c.Due evaluate context s target operands →
      (s.enter limits c.name c.arguments).StopsBy causes) :
    (call limits evaluate context s target operands).StopsBy causes := by
  refine (Outcome.stopsBy_mapM fun c _ => hevaluate context s c).bind fun arguments harguments => ?_
  split
  · trivial
  · rename_i hopen
    refine (stopsBy_callee hevaluate target).bind fun found hfound => ?_
    cases found with
    | generic name parameters body =>
      exact stopsBy_expandGeneric hevaluate hviolation ⟨name, parameters, body, arguments⟩ fun hnew hbinds =>
        henter _ ⟨harguments, Bool.eq_false_iff.2 hopen, hfound, hnew, hbinds⟩
    | other target => trivial

/-- **A step stops for the causes of nested steps**, for a violated constraint, because a call is one too many, or as the
reduction of an operator does. -/
theorem step_stopsBy {n : Node}
    (henter : ∀ (target : Node) (operands : List Node) (c : GenericCall), n.kind = .call target operands →
      c.Due evaluate context s target operands → (s.enter limits c.name c.arguments).StopsBy causes)
    (hreduce : ∀ operator operands options, n.kind = .deferred operator operands options →
      (reduce ⟨limits.maxTemplateCombinations, evaluate, context, s, operator⟩ n operands options).StopsBy causes) :
    (step limits evaluate context s n).StopsBy causes := by
  obtain ⟨kind, modifiers, annotations⟩ := n
  cases kind with
  | cyclic => trivial
  | ref name =>
    simp only [step]
    split
    · trivial
    · split
      · trivial
      · exact (hevaluate _ _ _).then
  | call target operands =>
    exact (stopsBy_call hevaluate hviolation target operands fun c hc => henter target operands c rfl hc).then
  | deferred operator operands options => exact hreduce operator operands options rfl
  | _ => exact (stopsBy_traverse fun c _ => hevaluate _ _ c).then

end

/-! ## What is asked decides -/

/-- A function that keeps to a plan stops for good causes if all that it asks does. -/
theorem Planned.stopsBy_of_asks {allowed : Point → Prop} {f : Evaluator → Outcome β} (h : Planned allowed f)
    (hf : ∀ evaluate : Evaluator, (∀ context s n, (evaluate context s n).StopsBy causes) → (f evaluate).StopsBy causes)
    {evaluate : Evaluator} (hasked : ∀ q, Asks f evaluate q → (evaluate.answer q).StopsBy causes) :
    (f evaluate).StopsBy causes := by
  classical
  let tame : Evaluator := fun context s n =>
    if Asks f evaluate ⟨context, s, n⟩ then evaluate context s n else .done n
  have htame : f tame = f evaluate := h.eq_of_asks fun q hq => if_pos hq
  rw [← htame]
  refine hf tame fun context s n => ?_
  show (if Asks f evaluate ⟨context, s, n⟩ then evaluate context s n else .done n).StopsBy causes
  split
  · exact hasked _ ‹_›
  · trivial

end Schemata
