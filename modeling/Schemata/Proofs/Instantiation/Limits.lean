import Schemata.Proofs.Instantiation.Nesting
/-!
# Limits only reject

Two runs of one request under two limits take the same way until the tighter limit stops its run.  No step catches an
error or looks at how much room is left, so whatever the tighter run ends with otherwise is what the wider run ends with.

`Outcome.LiftsTo` is the relation between the two runs; it holds of one step for one evaluator (`step_liftsTo`), of a
plan for two evaluators (`Planned.liftsTo`), and so of whole runs (`run_liftsTo`).
-/
namespace Schemata

/-! ## The relation -/

/-- Whether a limit decided on an outcome, or nothing did. -/
def Outcome.cutShort {α : Type} : Outcome α → Bool
  | .failed (.depthExceeded _) | .failed (.callDepthExceeded _ _) | .exhausted => true
  | _ => false

/-- **An outcome under limits and the one under wider limits**: the same, unless the first is cut short. -/
def Outcome.LiftsTo {α : Type} (x y : Outcome α) : Prop := x.cutShort = false → y = x

/-- **Wider limits** on depth and on calls; templates are bounded alike. -/
structure Limits.Within (limits wider : Limits) : Prop where
  depth : limits.maxDepth ≤ wider.maxDepth
  calls : limits.maxCallDepth ≤ wider.maxCallDepth
  templates : limits.maxTemplateCombinations = wider.maxTemplateCombinations

namespace Outcome

variable {α β : Type}

theorem LiftsTo.refl (x : Outcome α) : x.LiftsTo x := fun _ => rfl

theorem LiftsTo.trans {x y z : Outcome α} (hxy : x.LiftsTo y) (hyz : y.LiftsTo z) : x.LiftsTo z := by
  intro hx
  have hy : y = x := hxy hx
  rw [← hy]
  exact hyz (hy ▸ hx)

theorem LiftsTo.of_cutShort {x y : Outcome α} (h : x.cutShort = true) : x.LiftsTo y := by
  intro hx
  rw [h] at hx
  cases hx

theorem LiftsTo.done {x y : Outcome α} (h : x.LiftsTo y) {a : α} (hx : x = .done a) : y = .done a := by
  rw [← hx]
  exact h (by rw [hx]; rfl)

theorem cutShort_bind {x : Outcome α} {f : α → Outcome β} (h : x.cutShort = true) : (x >>= f).cutShort = true := by
  cases x with
  | done a => cases h
  | failed e => cases e <;> exact h
  | exhausted => exact h

/-- Only what the first step gives has to lift. -/
theorem LiftsTo.bind_of_done {x y : Outcome α} {f g : α → Outcome β} (hx : x.LiftsTo y)
    (hf : ∀ a, x = .done a → (f a).LiftsTo (g a)) : (x >>= f).LiftsTo (y >>= g) := by
  cases hc : x.cutShort with
  | true => exact .of_cutShort (cutShort_bind hc)
  | false =>
    rw [hx hc]
    cases x with
    | done a => exact hf a rfl
    | failed e => exact .refl _
    | exhausted => exact .refl _

theorem LiftsTo.bind {x y : Outcome α} {f g : α → Outcome β} (hx : x.LiftsTo y) (hf : ∀ a, (f a).LiftsTo (g a)) :
    (x >>= f).LiftsTo (y >>= g) := hx.bind_of_done fun a _ => hf a

end Outcome

/-- **What keeps to a plan lifts with its evaluator.** -/
theorem Planned.liftsTo {β : Type} {allowed : Point → Prop} {f : Evaluator → Outcome β} (h : Planned allowed f)
    {evaluate other : Evaluator} (he : ∀ q, (evaluate.answer q).LiftsTo (other.answer q)) :
    (f evaluate).LiftsTo (f other) := by
  obtain ⟨plan, -, hf⟩ := h
  rw [hf, hf]
  clear hf
  induction plan with
  | stop outcome => exact .refl _
  | ask q next ih => exact .bind (he q) ih

/-! ## What a step comes to -/

theorem Evaluator.of_within_eq_done {evaluate : Evaluator} {asked : Point → Prop} {context : Context} {s : State}
    {n m : Node} (h : evaluate.within asked context s n = .done m) :
    asked ⟨context, s, n⟩ ∧ evaluate context s n = .done m := by
  rw [Evaluator.within] at h
  split at h
  · exact ⟨‹_›, h⟩
  · cases h

theorem Evaluator.within_liftsTo (evaluate : Evaluator) (asked : Point → Prop) (q : Point) :
    ((evaluate.within asked).answer q).LiftsTo (evaluate.answer q) := by
  by_cases h : asked q
  · rw [Evaluator.answer_within_of h]
    exact .refl _
  · rw [Evaluator.answer_within_of_not h]
    exact .of_cutShort rfl

/-- **A run that is done ends with a step** on top of an evaluator that answers only what the step comes to. -/
theorem exists_step_of_run {limits : Limits} {fuel : Nat} {p : Point} {m : Node}
    (h : (run limits (fuel + 1)).answer p = .done m) :
    ∃ s evaluate, p.state.descend limits = .done s ∧ step limits evaluate p.context s p.node = .done m ∧
      (∀ q, (evaluate.answer q).LiftsTo ((run limits fuel).answer q)) ∧
      ∀ context t n r, evaluate context t n = .done r →
        Invokes limits p ⟨context, t, n⟩ ∧ run limits fuel context t n = .done r := by
  rw [run_succ] at h
  obtain ⟨s, hs, -⟩ := Outcome.bind_eq_done.1 h
  let asked : Point → Prop := Asks (stepAt limits p) (run limits fuel)
  refine ⟨s, (run limits fuel).within asked, hs, ?_, (run limits fuel).within_liftsTo asked, fun context t n r hr => ?_⟩
  · rw [← stepAt_of_descend hs, (planned_stepAt limits p).within_asks]
    exact h
  · obtain ⟨hasked, hdone⟩ := Evaluator.of_within_eq_done hr
    exact ⟨⟨fuel, hasked⟩, hdone⟩

/-! ## One step under two limits -/

section
variable {limits wider : Limits} (h : limits.Within wider)
include h

theorem State.descend_liftsTo (s : State) : (s.descend limits).LiftsTo (s.descend wider) := by
  unfold State.descend
  split
  · exact .of_cutShort rfl
  · have hw : ¬ wider.maxDepth ≤ s.depth := by have := h.depth; omega
    rw [if_neg hw]
    exact .refl _

theorem State.push_liftsTo (s : State) (name : String) (arguments : List Node) :
    (s.push limits name arguments).LiftsTo (s.push wider name arguments) := by
  simp only [State.push]
  split
  · exact .of_cutShort rfl
  · have hw : ¬ wider.maxCallDepth < (Frame.mk name arguments :: s.frames).length := by have := h.calls; omega
    rw [if_neg hw]
    exact .refl _

theorem State.enter_liftsTo (s : State) (name : String) (arguments : List Node) :
    (s.enter limits name arguments).LiftsTo (s.enter wider name arguments) := by
  unfold State.enter
  split
  · exact .refl _
  · exact s.push_liftsTo h name arguments

variable (evaluate : Evaluator) (context : Context)

theorem expansion_liftsTo (state : State) (name : String) (parameters : List (Parameter Node)) (body : Node)
    (arguments : List Node) :
    (expansion limits evaluate context state name parameters body arguments).LiftsTo
      (expansion wider evaluate context state name parameters body arguments) := by
  refine .bind (.refl _) fun bindings => ?_
  exact .bind (state.enter_liftsTo h name arguments) fun inner => .refl _

theorem expandGeneric_liftsTo (state : State) (name : String) (parameters : List (Parameter Node)) (body : Node)
    (arguments : List Node) :
    (expandGeneric limits evaluate context state name parameters body arguments).LiftsTo
      (expandGeneric wider evaluate context state name parameters body arguments) := by
  simp only [expandGeneric]
  split
  · exact .refl _
  · exact .bind (expansion_liftsTo h evaluate context state name parameters body arguments) fun _ => .refl _

theorem call_liftsTo (state : State) (target : Node) (arguments : List Node) :
    (call limits evaluate context state target arguments).LiftsTo
      (call wider evaluate context state target arguments) := by
  refine .bind (.refl _) fun arguments => ?_
  split
  · exact .refl _
  · refine .bind (.refl _) fun callee => ?_
    cases callee with
    | generic name parameters body => exact expandGeneric_liftsTo h evaluate context state name parameters body arguments
    | other target => exact .refl _

/-- Only calls look at limits that may differ. -/
theorem step_liftsTo (state : State) (n : Node) :
    (step limits evaluate context state n).LiftsTo (step wider evaluate context state n) := by
  obtain ⟨kind, modifiers, annotations⟩ := n
  cases kind with
  | call target arguments => exact .bind (call_liftsTo h evaluate context state target arguments) fun _ => .refl _
  | deferred operator operands options =>
    simp only [step, h.templates]
    exact .refl _
  | _ => exact .refl _

omit context in
theorem stepAt_liftsTo (p : Point) : (stepAt limits p evaluate).LiftsTo (stepAt wider p evaluate) :=
  .bind (p.state.descend_liftsTo h) fun s => step_liftsTo h evaluate p.context s p.node

end

/-! ## Whole runs -/

/-- **A run lifts to wider limits and more fuel**, by induction on the fuel. -/
theorem run_liftsTo {limits wider : Limits} (h : limits.Within wider) {fuel more : Nat} (hf : fuel ≤ more) (p : Point) :
    ((run limits fuel).answer p).LiftsTo ((run wider more).answer p) := by
  induction fuel generalizing more p with
  | zero => exact .of_cutShort rfl
  | succ fuel ih =>
    obtain ⟨more, rfl⟩ : ∃ m, more = m + 1 := ⟨more - 1, by omega⟩
    rw [run_succ, run_succ]
    -- First the evaluator changes, then the limits of the step itself.
    have hevaluator : (stepAt limits p (run limits fuel)).LiftsTo (stepAt limits p (run wider more)) :=
      (planned_stepAt limits p).liftsTo fun q => ih (by omega) q
    exact hevaluator.trans (stepAt_liftsTo h (run wider more) p)

theorem ampleFuel_le {limits wider : Limits} (h : limits.Within wider) : ampleFuel limits ≤ ampleFuel wider := by
  have := h.depth
  unfold ampleFuel
  omega

end Schemata
