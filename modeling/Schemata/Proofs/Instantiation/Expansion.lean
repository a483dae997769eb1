import Schemata.Proofs.Instantiation.Depth
/-!
# Expansions

A step that comes to a call may expand it: it binds the parameters and goes on with the body, inside of the call.  No
other step changes the call stack of the steps inside of it, unless it starts afresh (`Invokes.expands_or_frames`).

- `Expands limits p c q`: the step at `p` expands the call `c`, and `q` is where it instantiates the body.
- `Frame.repeats`: a call repeats one that is on the call stack already.
-/
namespace Schemata

open Planned

variable {limits : Limits} {p q : Point} {c : GenericCall}

/-! ## Frames -/

/-- The place of a call on the call stack. -/
def GenericCall.frame (c : GenericCall) : Frame := ⟨c.name, c.arguments⟩

/-- **Whether a newer call repeats an older one**: the same generic with equal arguments. -/
def Frame.repeats (older newer : Frame) : Bool :=
  older.name == newer.name && Node.sameAll older.arguments newer.arguments

theorem State.isExpanding_eq (s : State) (c : GenericCall) :
    s.isExpanding c.name c.arguments = s.frames.any fun older => older.repeats c.frame := rfl

/-! ## Steps that expand -/

/-- **The step at `p` expands a call**, with bound parameters, and instantiates its body at `q`. -/
inductive Expands (limits : Limits) (p : Point) (c : GenericCall) : Point → Prop
  | body {fuel : Nat} {s inner : State} {bindings : Fields Node} (calls : Calls limits (run limits fuel) p s c)
    (closed : c.arguments.any s.dependsOnDeclared = false)
    (new : c.name = anonymous ∨ s.isExpanding c.name c.arguments = false)
    (binds : bindParameters (run limits fuel) (Fields.without p.context (c.parameters.map (·.name))) s [] c.parameters
      c.arguments = .done bindings)
    (enter : s.enter limits c.name c.arguments = .done inner) :
    Expands limits p c ⟨p.context, inner, c.body.substitute bindings⟩

/-- What does not look at an evaluator asks nothing. -/
theorem not_asks_const {β : Type} {outcome : Outcome β} {evaluate : Evaluator} :
    ¬ Asks (fun _ => outcome) evaluate q := by
  rintro ⟨other, -, hne⟩
  exact hne rfl

/-- A question asks itself and nothing else. -/
theorem asks_question_iff {context : Context} {s : State} {n : Node} {evaluate : Evaluator} :
    Asks (fun evaluate => evaluate context s n) evaluate q ↔ q = ⟨context, s, n⟩ := by
  have hplan : ∀ evaluate : Evaluator, evaluate context s n =
      (Plan.ask ⟨context, s, n⟩ fun r => .stop (.done r)).follow evaluate := fun evaluate => by
    simp only [Plan.follow, Evaluator.answer]
    cases evaluate context s n <;> rfl
  rw [Plan.asks_iff_mem _ hplan, Plan.questions, List.mem_cons]
  refine or_iff_left fun h => ?_
  split at h <;> simp [Plan.questions] at h

/-- What an expansion asks once its parameters are bound: its body. -/
theorem asks_body_iff {context : Context} {s : State} {name : String} {arguments : List Node} {n : Node}
    {evaluate : Evaluator} :
    Asks (fun evaluate => s.enter limits name arguments >>= fun inner => evaluate context inner n) evaluate q ↔
      ∃ inner, s.enter limits name arguments = .done inner ∧ q = ⟨context, inner, n⟩ := by
  cases s.enter limits name arguments with
  | done inner =>
    simp only [Outcome.done_bind, asks_question_iff, Outcome.done.injEq, exists_eq_left']
  | failed e =>
    simp only [Outcome.failed_bind, reduceCtorEq, false_and, exists_false, iff_false]
    exact not_asks_const
  | exhausted =>
    simp only [Outcome.exhausted_bind, reduceCtorEq, false_and, exists_false, iff_false]
    exact not_asks_const

theorem planned_body {allowed : Point → Prop} {context : Context} {s : State} {name : String} {arguments : List Node}
    {n : Node} (h : ∀ inner, s.enter limits name arguments = .done inner → allowed ⟨context, inner, n⟩) :
    Planned allowed fun evaluate => s.enter limits name arguments >>= fun inner => evaluate context inner n := by
  cases henter : s.enter limits name arguments with
  | done inner => exact question (h inner henter)
  | failed e => exact const (.failed e)
  | exhausted => exact const .exhausted

theorem asks_expansion_iff {context : Context} {s : State} {name : String} {parameters : List (Parameter Node)}
    {body : Node} {arguments : List Node} {evaluate : Evaluator} :
    Asks (fun evaluate => expansion limits evaluate context s name parameters body arguments) evaluate q ↔
      Asks (fun evaluate =>
        bindParameters evaluate (Fields.without context (parameters.map (·.name))) s [] parameters arguments) evaluate q ∨
      ∃ bindings,
        bindParameters evaluate (Fields.without context (parameters.map (·.name))) s [] parameters arguments =
          .done bindings ∧
        ∃ inner, s.enter limits name arguments = .done inner ∧ q = ⟨context, inner, body.substitute bindings⟩ := by
  have hbind : Planned (fun _ => True) fun evaluate =>
      bindParameters evaluate (Fields.without context (parameters.map (·.name))) s [] parameters arguments :=
    planned_bindParameters (fun _ _ => trivial) _ _ _ _
  have hbody : ∀ bindings, Planned (fun _ => True) fun evaluate =>
      s.enter limits name arguments >>= fun inner => evaluate context inner (body.substitute bindings) :=
    fun bindings => planned_body fun _ _ => trivial
  refine (asks_bind_iff hbind hbody).trans (or_congr Iff.rfl (exists_congr fun bindings => and_congr Iff.rfl ?_))
  exact asks_body_iff

/-- What a call of a generic asks: what its expansion asks, and the result once more, unless it repeats another call. -/
theorem asks_expandGeneric_iff {context : Context} {s : State} {evaluate : Evaluator} :
    Asks (fun evaluate => expandGeneric limits evaluate context s c.name c.parameters c.body c.arguments) evaluate q ↔
      (c.name = anonymous ∨ s.isExpanding c.name c.arguments = false) ∧
      (Asks (fun evaluate => expansion limits evaluate context s c.name c.parameters c.body c.arguments) evaluate q ∨
        ∃ expanded, expansion limits evaluate context s c.name c.parameters c.body c.arguments = .done expanded ∧
          q = ⟨context, s, packaged c.key expanded⟩) := by
  have hnew : (c.name != anonymous && s.isExpanding c.name c.arguments) = false ↔
      (c.name = anonymous ∨ s.isExpanding c.name c.arguments = false) := by
    rw [Bool.and_eq_false_iff, bne_eq_false_iff_eq]
  simp only [expandGeneric]
  cases hrepeats : (c.name != anonymous && s.isExpanding c.name c.arguments) with
  | true =>
    rw [hrepeats] at hnew
    simp only [if_true, ← hnew, reduceCtorEq, false_and, iff_false]
    exact not_asks_const
  | false =>
    rw [hrepeats] at hnew
    simp only [Bool.false_eq_true, if_false, ← hnew, true_and]
    have hexpansion : Planned (fun _ => True) fun evaluate =>
        expansion limits evaluate context s c.name c.parameters c.body c.arguments :=
      planned_expansion (fun _ _ => trivial) (fun _ _ _ => trivial) _ _
    have hagain : ∀ expanded, Planned (fun _ => True) fun evaluate : Evaluator => evaluate context s (packaged c.key expanded) :=
      fun expanded => question trivial
    refine (asks_bind_iff hexpansion hagain).trans ?_
    exact or_congr Iff.rfl (exists_congr fun expanded => and_congr Iff.rfl asks_question_iff)

/-- What a call asks: its arguments, what it calls, and what the call of a generic asks. -/
theorem asks_call_iff {context : Context} {s : State} {target : Node} {operands : List Node} {evaluate : Evaluator} :
    Asks (fun evaluate => call limits evaluate context s target operands) evaluate q ↔
      Asks (fun evaluate => operands.mapM (evaluate context s)) evaluate q ∨
      ∃ arguments, operands.mapM (evaluate context s) = .done arguments ∧ arguments.any s.dependsOnDeclared = false ∧
        (Asks (fun evaluate => callee evaluate context s target) evaluate q ∨
          ∃ name parameters body, callee evaluate context s target = .done (.generic name parameters body) ∧
            Asks (fun evaluate => expandGeneric limits evaluate context s name parameters body arguments) evaluate q) := by
  have harguments : Planned (fun _ => True) fun evaluate : Evaluator => operands.mapM (evaluate context s) :=
    Planned.mapM fun _ _ => question trivial
  refine (asks_bind_iff harguments
    (planned_supplied (n := target) (fun _ _ _ _ => trivial) target : ∀ arguments, Planned (fun _ => True) _)).trans ?_
  refine or_congr Iff.rfl (exists_congr fun arguments => and_congr Iff.rfl ?_)
  cases hopen : arguments.any s.dependsOnDeclared with
  | true =>
    simp only [if_true, reduceCtorEq, false_and, iff_false]
    exact not_asks_const
  | false =>
    simp only [Bool.false_eq_true, if_false, true_and]
    have hcallee : Planned (fun _ => True) fun evaluate => callee evaluate context s target :=
      planned_callee (fun _ _ => trivial) target
    refine (asks_bind_iff hcallee
      (planned_called (n := target) (fun _ _ _ _ => trivial) arguments : ∀ found, Planned (fun _ => True) _)).trans ?_
    refine or_congr Iff.rfl ⟨?_, ?_⟩
    · rintro ⟨found, hfound, hasks⟩
      cases found with
      | generic name parameters body => exact ⟨name, parameters, body, hfound, hasks⟩
      | other target => exact absurd hasks not_asks_const
    · rintro ⟨name, parameters, body, hfound, hasks⟩
      exact ⟨_, hfound, hasks⟩

theorem planned_call_any {context : Context} {s : State} (target : Node) (operands : List Node) :
    Planned (fun _ => True) fun evaluate => call limits evaluate context s target operands :=
  planned_call (n := target) (fun _ _ _ _ => trivial) target operands

/-! ## What steps do to the call stack -/

/-- A step hands on its call stack, unless it comes to a call or starts afresh. -/
theorem planned_step_of_not_call {context : Context} {s : State} {n : Node}
    (h : ∀ target operands, n.kind ≠ .call target operands) :
    Planned (fun q => q.state = .initial ∨ q.state.frames = s.frames) fun evaluate => step limits evaluate context s n := by
  obtain ⟨kind, modifiers, annotations⟩ := n
  cases kind with
  | call target operands => exact absurd rfl (h target operands)
  | cyclic definitions root => exact const _
  | ref name =>
    simp only [step]
    cases context.get? name with
    | none => exact const _
    | some target =>
      dsimp only
      split
      · exact const _
      · exact then_const (question (.inr rfl)) _
  | deferred operator operands options => exact planned_reduce (fun _ _ => .inl rfl) (fun _ _ => .inr rfl) _ operands options
  | _ => exact then_const (traverse fun c _ => question (.inr rfl)) _

theorem Expands.kind (h : Expands limits p c q) :
    ∃ target operands, p.node.kind = .call target operands := by
  obtain ⟨calls, -, -, -, -⟩ := h
  obtain ⟨target, operands, hkind, -⟩ := calls.site
  exact ⟨target, operands, hkind⟩

theorem Expands.invokes (h : Expands limits p c q) : Invokes limits p q := by
  cases h with
  | @body fuel s inner bindings calls closed new binds enter =>
    obtain ⟨target, operands, hkind, harguments, hcallee⟩ := calls.site
    have hbody : Asks (fun evaluate => expansion limits evaluate p.context s c.name c.parameters c.body c.arguments)
        (run limits fuel) ⟨p.context, inner, c.body.substitute bindings⟩ :=
      asks_expansion_iff.2 (.inr ⟨bindings, binds, inner, enter, rfl⟩)
    have hcall : Asks (fun evaluate => call limits evaluate p.context s target operands) (run limits fuel)
        ⟨p.context, inner, c.body.substitute bindings⟩ :=
      asks_call_iff.2 (.inr ⟨c.arguments, harguments, closed,
        .inr ⟨c.name, c.parameters, c.body, hcallee, asks_expandGeneric_iff.2 ⟨new, .inl hbody⟩⟩⟩)
    refine ⟨fuel, ?_⟩
    have hstep : stepAt limits p = fun evaluate =>
        call limits evaluate p.context s target operands >>= fun r => .done (r.inherit p.node) := by
      funext evaluate
      rw [stepAt_of_descend calls.descend, step, hkind]
      rfl
    rw [hstep]
    have hinherit : ∀ r : Node, Planned (fun _ => True) fun _ => Outcome.done (r.inherit p.node) := fun r => const _
    exact (asks_bind_iff (planned_call_any target operands) hinherit).2 (.inl hcall)

/-- **What a call comes to**: its arguments, its target, what binds its parameters, its body, and the result once more. -/
theorem Invokes.of_call {target : Node} {operands : List Node} (h : Invokes limits p q)
    (hkind : p.node.kind = .call target operands) :
    ∃ fuel s, p.state.descend limits = .done s ∧
      (Asks (fun evaluate => operands.mapM (evaluate p.context s)) (run limits fuel) q ∨
        Asks (fun evaluate => callee evaluate p.context s target) (run limits fuel) q ∨
        ∃ c : GenericCall, Calls limits (run limits fuel) p s c ∧
          (c.name = anonymous ∨ s.isExpanding c.name c.arguments = false) ∧
          (Asks (fun evaluate => bindParameters evaluate (Fields.without p.context (c.parameters.map (·.name))) s []
              c.parameters c.arguments) (run limits fuel) q ∨
            Expands limits p c q ∨
            ∃ expanded, expansion limits (run limits fuel) p.context s c.name c.parameters c.body c.arguments =
              .done expanded ∧ q = ⟨p.context, s, packaged c.key expanded⟩)) := by
  obtain ⟨s, hd, -⟩ := h.heir
  obtain ⟨fuel, h⟩ := h
  have hstep : stepAt limits p = fun evaluate => step limits evaluate p.context s p.node :=
    funext fun evaluate => stepAt_of_descend hd evaluate
  have hasks : Asks (fun evaluate => call limits evaluate p.context s target operands) (run limits fuel) q := by
    rw [hstep] at h
    simp only [step, hkind] at h
    exact asks_of_then_const (planned_call_any target operands) h
  refine ⟨fuel, s, hd, ?_⟩
  rcases asks_call_iff.1 hasks with
    harguments | ⟨arguments, harguments, hclosed, hcallee | ⟨name, parameters, body, hfound, hgeneric⟩⟩
  · exact .inl harguments
  · exact .inr (.inl hcallee)
  · let c : GenericCall := ⟨name, parameters, body, arguments⟩
    have hcalls : Calls limits (run limits fuel) p s c := ⟨hd, target, operands, hkind, harguments, hfound⟩
    obtain ⟨hnew, hexpansion⟩ := (asks_expandGeneric_iff (c := c)).1 hgeneric
    refine .inr (.inr ⟨c, hcalls, hnew, ?_⟩)
    rcases hexpansion with hexpansion | hagain
    · rcases asks_expansion_iff.1 hexpansion with hbinds | ⟨bindings, hbinds, inner, henter, rfl⟩
      · exact .inl hbinds
      · exact .inr (.inl (.body hcalls hclosed hnew hbinds henter))
    · exact .inr (.inr hagain)

/-- **Only the body of an expanded call has another call stack**, as long as nothing starts afresh. -/
theorem Invokes.expands_or_frames (h : Invokes limits p q) :
    (∃ c, Expands limits p c q) ∨ q.state = .initial ∨ q.state.frames = p.state.frames := by
  by_cases hcall : ∀ target operands, p.node.kind ≠ .call target operands
  · obtain ⟨s, hd, -⟩ := h.heir
    obtain ⟨fuel, h⟩ := h
    have hstep : stepAt limits p = fun evaluate => step limits evaluate p.context s p.node :=
      funext fun evaluate => stepAt_of_descend hd evaluate
    rw [hstep] at h
    have hframes : s.frames = p.state.frames := by rw [(State.eq_of_descend hd).2]
    rw [← hframes]
    exact .inr ((planned_step_of_not_call hcall).allowed_of_asks h)
  obtain ⟨target, operands, hkind⟩ : ∃ target operands, p.node.kind = .call target operands := by
    simpa using hcall
  obtain ⟨fuel, s, hd, hasks⟩ := h.of_call hkind
  -- All that a call asks besides the body comes under its own state.
  have hsame : q.state = s → q.state = .initial ∨ q.state.frames = p.state.frames := by
    rintro rfl
    exact .inr (by rw [(State.eq_of_descend hd).2])
  rcases hasks with harguments | hcallee | ⟨c, -, -, hbinds | hbody | ⟨expanded, -, rfl⟩⟩
  · have hplanned : Planned (fun q => q.state = s) fun evaluate : Evaluator => operands.mapM (evaluate p.context s) :=
      Planned.mapM fun _ _ => question rfl
    exact .inr (hsame (hplanned.allowed_of_asks harguments))
  · have hplanned : Planned (fun q => q.state = s) fun evaluate => callee evaluate p.context s target :=
      planned_callee (fun _ _ => rfl) target
    exact .inr (hsame (hplanned.allowed_of_asks hcallee))
  · have hplanned : Planned (fun q => q.state = s) fun evaluate => bindParameters evaluate
        (Fields.without p.context (c.parameters.map (·.name))) s [] c.parameters c.arguments :=
      planned_bindParameters (fun _ _ => rfl) _ _ _ _
    exact .inr (hsame (hplanned.allowed_of_asks hbinds))
  · exact .inl ⟨c, hbody⟩
  · exact .inr (hsame rfl)

end Schemata
