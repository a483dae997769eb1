import Schemata.Proofs.Instantiation.Resolution
import Schemata.Proofs.Instantiation.Depth
import Schemata.Proofs.Operator.States
/-!
# Runs at less depth

Nothing looks at the depth but the limit on it.  So a run ends as before when it begins less deep, unless the limit cut
it short.

- `Evaluator.moved evaluate d d'`: what is asked at the depth `d` is answered as at `d'`.

Main statement: `run_shallower`.
-/
namespace Schemata

/-- **An evaluator that takes one depth for another.** -/
def Evaluator.moved (evaluate : Evaluator) (depth other : Nat) : Evaluator :=
  fun context s n => evaluate context (if s.depth = depth then { s with depth := other } else s) n

section
variable {limits : Limits} {evaluate : Evaluator} {s : State} {other : Nat}

theorem moved_of_depth {t : State} {depth : Nat} (h : t.depth = depth) (context : Context) (n : Node) :
    evaluate.moved depth other context t n = evaluate context { t with depth := other } n := by
  rw [Evaluator.moved, if_pos h]

theorem moved_initial {depth : Nat} (h : 0 < depth) (context : Context) (n : Node) :
    evaluate.moved depth other context .initial n = evaluate context .initial n := by
  have hne : State.initial.depth ≠ depth := Nat.ne_of_lt h
  rw [Evaluator.moved, if_neg hne]

/-- A call is entered at any depth alike. -/
theorem State.enter_depth (s : State) (other : Nat) (name : String) (arguments : List Node) :
    ({ s with depth := other } : State).enter limits name arguments =
      s.enter limits name arguments >>= fun inner => .done { inner with depth := other } := by
  unfold enter
  have hpeek : ({ s with depth := other } : State).peek = s.peek := rfl
  rw [hpeek]
  split
  · rfl
  · unfold push
    dsimp only
    split <;> rfl

theorem bindParameters_moved (scope : Context) (bindings : Fields Node) (parameters : List (Parameter Node))
    (arguments : List Node) :
    bindParameters (evaluate.moved s.depth other) scope s bindings parameters arguments =
      bindParameters evaluate scope { s with depth := other } bindings parameters arguments := by
  induction parameters generalizing bindings arguments with
  | nil => rfl
  | cons p ps ih => simp only [bindParameters, moved_of_depth rfl, ih]

theorem expandGeneric_moved (context : Context) (name : String) (parameters : List (Parameter Node)) (body : Node)
    (arguments : List Node) :
    expandGeneric limits (evaluate.moved s.depth other) context s name parameters body arguments =
      expandGeneric limits evaluate context { s with depth := other } name parameters body arguments := by
  have hexpanding : ({ s with depth := other } : State).isExpanding name arguments = s.isExpanding name arguments := rfl
  have hbody : ∀ n, (s.enter limits name arguments >>= fun inner => evaluate.moved s.depth other context inner n) =
      ({ s with depth := other } : State).enter limits name arguments >>= fun inner => evaluate context inner n := by
    intro n
    rw [s.enter_depth other]
    cases henter : s.enter limits name arguments with
    | done inner =>
      obtain ⟨frames, -, rfl⟩ := State.eq_of_enter henter
      exact moved_of_depth rfl context n
    | failed e => rfl
    | exhausted => rfl
  simp only [expandGeneric, expansion, hexpanding, bindParameters_moved, hbody, moved_of_depth rfl]

theorem call_moved (context : Context) (target : Node) (arguments : List Node) :
    call limits (evaluate.moved s.depth other) context s target arguments =
      call limits evaluate context { s with depth := other } target arguments := by
  have hevaluate : evaluate.moved s.depth other context s = evaluate context { s with depth := other } :=
    funext (moved_of_depth rfl context)
  have hcallee : callee (evaluate.moved s.depth other) context s target =
      callee evaluate context { s with depth := other } target := by
    simp only [callee, hevaluate]
  simp only [call, hevaluate, hcallee, expandGeneric_moved]
  rfl

/-- **A step at another depth** asks there what it asks here. -/
theorem step_moved (evaluate : Evaluator) {s : State} (h : 0 < s.depth) (other : Nat) (context : Context) (n : Node) :
    step limits (evaluate.moved s.depth other) context s n =
      step limits evaluate context { s with depth := other } n := by
  have hevaluate : ∀ scope, evaluate.moved s.depth other scope s = evaluate scope { s with depth := other } :=
    fun scope => funext (moved_of_depth rfl scope)
  obtain ⟨kind, modifiers, annotations⟩ := n
  cases kind with
  | call target arguments => simp only [step, call_moved]
  | deferred operator operands options =>
    let setting : Setting := ⟨limits.maxTemplateCombinations, evaluate.moved s.depth other, context, s, operator⟩
    have hfresh : ∀ scope m, evaluate scope .initial m = setting.evaluate scope .initial m :=
      fun scope m => (moved_initial h scope m).symm
    have hstate : ∀ scope m, evaluate scope { s with depth := other } m = setting.evaluate scope setting.state m :=
      fun scope m => (moved_of_depth rfl scope m).symm
    exact (reduce_under hfresh hstate _ operands options).symm
  | generic parameters body =>
    have hdeclared : ∀ scope, evaluate.moved s.depth other scope (s.declare parameters) =
        evaluate scope (({ s with depth := other } : State).declare parameters) :=
      fun scope => funext (moved_of_depth rfl scope)
    simp only [step, hdeclared]
  | _ => simp only [step, hevaluate]

end

/-- **A run ends as before at less depth**, by induction on the fuel. -/
theorem run_shallower (limits : Limits) {fuel more : Nat} (hf : fuel ≤ more) (context : Context) {s : State} {depth : Nat}
    (hd : depth ≤ s.depth) (n : Node) :
    (run limits fuel context s n).LiftsTo (run limits more context { s with depth } n) := by
  induction fuel generalizing more context s depth n with
  | zero => exact .of_cutShort rfl
  | succ fuel ih =>
    obtain ⟨more, rfl⟩ : ∃ m, more = m + 1 := ⟨more - 1, by omega⟩
    by_cases hdeep : limits.maxDepth ≤ s.depth
    · exact .of_cutShort (congrArg Outcome.cutShort (run_too_deep (p := ⟨context, s, n⟩) hdeep fuel))
    · let t : State := { s with depth := s.depth + 1 }
      have ht : s.descend limits = .done t := by rw [State.descend, if_neg hdeep]
      have ht' : ({ s with depth } : State).descend limits = .done { t with depth := depth + 1 } := by
        rw [State.descend, if_neg (by dsimp only; omega)]
      rw [run_of_descend ht, run_of_descend ht', ← step_moved (run limits more) (s := t) (Nat.succ_pos _) (depth + 1)]
      have hplanned : Planned (fun _ => True) fun evaluate => step limits evaluate context t n :=
        planned_step fun _ _ _ _ => trivial
      refine hplanned.liftsTo fun q => ?_
      show (run limits fuel q.context q.state q.node).LiftsTo
        ((run limits more).moved t.depth (depth + 1) q.context q.state q.node)
      by_cases hq : q.state.depth = t.depth
      · rw [moved_of_depth hq]
        refine ih (by omega) q.context ?_ q.node
        rw [hq]
        exact Nat.succ_le_succ hd
      · rw [Evaluator.moved, if_neg hq]
        exact run_liftsTo ⟨Nat.le_refl _, Nat.le_refl _, rfl⟩ (by omega : fuel ≤ more) q

end Schemata
