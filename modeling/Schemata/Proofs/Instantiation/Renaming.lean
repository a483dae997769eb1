import Schemata.Proofs.Instantiation.Nesting
import Schemata.Proofs.Operator.Reduction
/-!
# Instantiation under other names

A step does under other names what it did before (`step_rename`), and so does a run (`run_rename`), except where a name
is made of the text of another:

- A call goes by a key that displays its arguments, so the key has to follow the names in it.
- The definitions of an inline module are properties, so their names have to stay.

`Natural ρ limits query` says that the run of a query comes to nothing else.
-/
namespace Schemata

open Planned

variable {ρ : Equiv.Perm String} {limits : Limits} {evaluate evaluate' : Evaluator} {context : Context} {s : State}

/-! ## States -/

namespace State

theorem descend_rename (s : State) : (s.rename ρ).descend limits = (s.descend limits).rename ρ (State.rename ρ) := by
  rw [descend, descend, depth_rename]
  split <;> rfl

theorem declare_rename (s : State) (parameters : List (Parameter Node)) :
    (s.rename ρ).declare (parameters.map fun p => ⟨ρ p.name, p.constraint.rename ρ, p.default.rename ρ⟩) =
      (s.declare parameters).rename ρ := by
  simp [declare, rename]

theorem dependsOnDeclared_rename (s : State) (n : Node) :
    (s.rename ρ).dependsOnDeclared (n.rename ρ) = s.dependsOnDeclared n := by
  rw [dependsOnDeclared, dependsOnDeclared, declared_rename, Node.references_rename, List.any_map, List.isEmpty_map]
  exact congrArg (_ && List.any _ ·) (funext fun name => contains_map s.declared name)

theorem sameAll_rename (xs ys : List Node) :
    Node.sameAll (xs.map (Node.rename ρ)) (ys.map (Node.rename ρ)) = Node.sameAll xs ys := by
  induction xs generalizing ys with
  | nil => cases ys <;> simp [Node.sameAll]
  | cons x xs ih =>
    cases ys with
    | nil => simp [Node.sameAll]
    | cons y ys => simp only [List.map_cons, Node.sameAll, Node.sameAs_rename, ih]

theorem isExpanding_rename (s : State) (name : String) (arguments : List Node) :
    (s.rename ρ).isExpanding (ρ name) (arguments.map (Node.rename ρ)) = s.isExpanding name arguments := by
  rw [isExpanding, isExpanding, frames_rename, List.any_map]
  refine congrArg (List.any _) (funext fun frame => ?_)
  exact congrArg₂ (· && ·) (beq_map frame.name name) (sameAll_rename frame.arguments arguments)

theorem enter_rename (s : State) (name : String) (arguments : List Node) :
    (s.rename ρ).enter limits (ρ name) (arguments.map (Node.rename ρ)) =
      (s.enter limits name arguments).rename ρ (State.rename ρ) := by
  have hpeek : ((s.rename ρ).peek == some (ρ name)) = (s.peek == some name) := by
    have hmap : (s.rename ρ).peek = s.peek.map ρ := by
      simp [peek, rename, Frame.rename, List.head?_map, Function.comp_def]
    rw [hmap]
    cases s.peek with
    | none => rfl
    | some top => exact beq_map top name
  rw [enter, enter, hpeek]
  split
  · simp [replaceTop, rename, Outcome.rename, Frame.rename]
  · simp only [push]
    have hlength : (Frame.mk (ρ name) (arguments.map (Node.rename ρ)) :: (s.rename ρ).frames).length =
        (Frame.mk name arguments :: s.frames).length := by simp [rename]
    rw [hlength]
    split
    · simp [callstack, rename, Outcome.rename, InstantiationError.rename, Frame.rename]
    · rfl

end State

/-! ## Calls -/

def Callee.rename (ρ : String → String) : Callee → Callee
  | .generic name parameters body =>
    .generic (ρ name) (parameters.map fun p => ⟨ρ p.name, p.constraint.rename ρ, p.default.rename ρ⟩) (body.rename ρ)
  | .other target => .other (target.rename ρ)

/-- Parameters hide the same names. -/
theorem without_parameters_rename (context : Context) (parameters : List (Parameter Node)) :
    Fields.without (context.rename ρ)
        ((parameters.map fun p => (⟨ρ p.name, p.constraint.rename ρ, p.default.rename ρ⟩ : Parameter Node)).map
          (·.name)) =
      Context.rename ρ (Fields.without context (parameters.map (·.name))) := by
  have hnames : (parameters.map fun p => (⟨ρ p.name, p.constraint.rename ρ, p.default.rename ρ⟩ : Parameter Node)).map
      (·.name) = (parameters.map (·.name)).map ρ := by simp
  rw [hnames]
  exact Fields.without_rename context (parameters.map (·.name))

theorem packaged_rename (key : String) (expanded : Node) :
    packaged (ρ key) (expanded.rename ρ) = (packaged key expanded).rename ρ := by
  rw [packaged, packaged, Node.references_rename, contains_map]
  split
  · exact (Node.rename_of ρ (.cyclic [(key, expanded)] key)).symm
  · rfl

section
variable (h : evaluate.Renames ρ evaluate')
include h

theorem bindParameters_rename (scope : Context) (s : State) (bindings : Fields Node) (parameters : List (Parameter Node))
    (arguments : List Node) :
    bindParameters evaluate' (scope.rename ρ) (s.rename ρ) (bindings.rename ρ (Node.rename ρ))
        (parameters.map fun p => ⟨ρ p.name, p.constraint.rename ρ, p.default.rename ρ⟩) (arguments.map (Node.rename ρ)) =
      (bindParameters evaluate scope s bindings parameters arguments).rename ρ (Fields.rename ρ (Node.rename ρ)) := by
  induction parameters generalizing bindings arguments with
  | nil => rfl
  | cons p ps ih =>
    have hconstraint := h scope s (p.constraint.substitute bindings)
    have hdefault := h scope s (p.default.substitute bindings)
    rw [← Node.substitute_rename] at hconstraint hdefault
    rw [List.map_cons, bindParameters, bindParameters]
    refine Outcome.bind_rename hconstraint fun constraint _ => ?_
    -- The argument, or the default in its place, is checked and bound alike.
    have hcandidate : ∀ candidate : Node,
        (if (candidate.rename ρ).isConcrete && (constraint.rename ρ).isConcrete &&
            !(candidate.rename ρ).fits (constraint.rename ρ) then
          .failed (.constraintViolation (ρ p.name) (constraint.rename ρ) (candidate.rename ρ))
        else bindParameters evaluate' (scope.rename ρ) (s.rename ρ)
          ((bindings.rename ρ (Node.rename ρ)).insert (ρ p.name) (candidate.rename ρ))
          (ps.map fun p => ⟨ρ p.name, p.constraint.rename ρ, p.default.rename ρ⟩) (arguments.map (Node.rename ρ)).tail) =
        Outcome.rename ρ (Fields.rename ρ (Node.rename ρ))
          (if candidate.isConcrete && constraint.isConcrete && !candidate.fits constraint then
            .failed (.constraintViolation p.name constraint candidate)
          else bindParameters evaluate scope s (bindings.insert p.name candidate) ps arguments.tail) := by
      intro candidate
      rw [Node.isConcrete_rename, Node.isConcrete_rename, fits_rename_both, Fields.insert_rename ρ.injective,
        ← List.map_tail, ih]
      split <;> rfl
    cases arguments with
    | nil => exact Outcome.bind_rename hdefault fun candidate _ => hcandidate candidate
    | cons argument arguments => exact hcandidate argument

theorem expansion_rename (context : Context) (s : State) (name : String) (parameters : List (Parameter Node)) (body : Node)
    (arguments : List Node) :
    expansion limits evaluate' (context.rename ρ) (s.rename ρ) (ρ name)
        (parameters.map fun p => ⟨ρ p.name, p.constraint.rename ρ, p.default.rename ρ⟩) (body.rename ρ)
        (arguments.map (Node.rename ρ)) =
      (expansion limits evaluate context s name parameters body arguments).rename ρ (Node.rename ρ) := by
  rw [expansion, expansion, without_parameters_rename]
  refine Outcome.bind_rename (bindParameters_rename h _ s [] parameters arguments) fun bindings _ => ?_
  refine Outcome.bind_rename (s.enter_rename name arguments) fun inner _ => ?_
  rw [Node.substitute_rename]
  exact h context inner _

theorem expandGeneric_rename (hρ : Consistent ρ) (context : Context) (s : State) (name : String)
    (parameters : List (Parameter Node)) (body : Node) (arguments : List Node)
    (hkey : expansionName (ρ name) (arguments.map (Node.rename ρ)) = ρ (expansionName name arguments)) :
    expandGeneric limits evaluate' (context.rename ρ) (s.rename ρ) (ρ name)
        (parameters.map fun p => ⟨ρ p.name, p.constraint.rename ρ, p.default.rename ρ⟩) (body.rename ρ)
        (arguments.map (Node.rename ρ)) =
      (expandGeneric limits evaluate context s name parameters body arguments).rename ρ (Node.rename ρ) := by
  have hnamed : (ρ name != anonymous) = (name != anonymous) := by
    rw [← bne_map (ρ := ρ) name anonymous, hρ.anonymous]
  rw [expandGeneric, expandGeneric, hnamed, s.isExpanding_rename, hkey]
  split
  · exact congrArg Outcome.done (Node.rename_of ρ (.ref (expansionName name arguments))).symm
  · refine Outcome.bind_rename (expansion_rename h context s name parameters body arguments) fun expanded _ => ?_
    rw [packaged_rename]
    exact h context s _

theorem callee_rename (hρ : Consistent ρ) (context : Context) (s : State) (target : Node) :
    callee evaluate' (context.rename ρ) (s.rename ρ) (target.rename ρ) =
      (callee evaluate context s target).rename ρ (Callee.rename ρ) := by
  have hanonymous := hρ.anonymous
  unfold callee
  rw [Node.kind_rename]
  cases target.kind with
  | generic parameters body =>
    refine congrArg Outcome.done ?_
    rw [Callee.rename, hanonymous]
  | ref name =>
    dsimp only [Kind.relabel]
    rw [chase_rename]
    cases chase context name <;> rfl
  | _ =>
    refine Outcome.bind_rename (h context s target) fun resolved _ => ?_
    rw [Node.kind_rename]
    cases resolved.kind with
    | generic parameters body =>
      refine congrArg Outcome.done ?_
      rw [Callee.rename, hanonymous]
    | _ => rfl

/-- **A call under other names**, where its key follows them. -/
theorem call_rename (hρ : Consistent ρ) (context : Context) (s : State) (target : Node) (operands : List Node)
    (hkey : ∀ name parameters body arguments, operands.mapM (evaluate context s) = .done arguments →
      arguments.any s.dependsOnDeclared = false →
      callee evaluate context s target = .done (.generic name parameters body) →
      expansionName (ρ name) (arguments.map (Node.rename ρ)) = ρ (expansionName name arguments)) :
    call limits evaluate' (context.rename ρ) (s.rename ρ) (target.rename ρ) (operands.map (Node.rename ρ)) =
      (call limits evaluate context s target operands).rename ρ (Node.rename ρ) := by
  refine Outcome.bind_rename (Outcome.mapM_rename fun n _ => h context s n) fun arguments harguments => ?_
  have hdepends : (arguments.map (Node.rename ρ)).any (s.rename ρ).dependsOnDeclared =
      arguments.any s.dependsOnDeclared := by
    rw [List.any_map]
    exact congrArg (List.any _) (funext s.dependsOnDeclared_rename)
  rw [hdepends]
  cases hany : arguments.any s.dependsOnDeclared with
  | true => exact congrArg Outcome.done (Node.rename_of ρ (.call target arguments)).symm
  | false =>
    refine Outcome.bind_rename (callee_rename h hρ context s target) fun found hfound => ?_
    cases found with
    | generic name parameters body =>
      exact expandGeneric_rename h hρ context s name parameters body arguments
        (hkey name parameters body arguments harguments hany hfound)
    | other target => exact congrArg Outcome.done (Node.rename_of ρ (.call target arguments)).symm

/-! ## One step -/

/-- **One step under other names**, where keys of calls follow them and definitions of modules stay. -/
theorem step_rename (hρ : Consistent ρ) (context : Context) (s : State) (n : Node)
    (hkey : ∀ target operands name parameters body arguments, n.kind = .call target operands →
      operands.mapM (evaluate context s) = .done arguments → arguments.any s.dependsOnDeclared = false →
      callee evaluate context s target = .done (.generic name parameters body) →
      expansionName (ρ name) (arguments.map (Node.rename ρ)) = ρ (expansionName name arguments))
    (hfixed : ∀ operator operands options, n.kind = .deferred operator operands options →
      DefinesFixed ρ operator operands) :
    step limits evaluate' (context.rename ρ) (s.rename ρ) (n.rename ρ) =
      (step limits evaluate context s n).rename ρ (Node.rename ρ) := by
  obtain ⟨kind, modifiers, annotations⟩ := n
  have hstructural : ∀ {kind : Kind Node}, kind.isStructural = true →
      step limits evaluate' (context.rename ρ) (s.rename ρ) (Node.rename ρ ⟨kind, modifiers, annotations⟩) =
        (step limits evaluate context s ⟨kind, modifiers, annotations⟩).rename ρ (Node.rename ρ) := by
    intro kind hk
    have hk' : (Node.rename ρ ⟨kind, modifiers, annotations⟩).kind.isStructural = true := by
      rw [Node.rename_mk]
      cases kind <;> first | rfl | cases hk
    rw [step_of_isStructural hk', step_of_isStructural (n := ⟨kind, modifiers, annotations⟩) hk, Node.rename_mk]
    refine Outcome.bind_rename (Kind.traverse_relabel fun c _ => h context s c) fun result _ => ?_
    exact congrArg Outcome.done (Node.rename_mk ρ result modifiers annotations).symm
  have hstays : ∀ kind : Kind Node, (Outcome.done ⟨kind.relabel ρ (Node.rename ρ), modifiers, annotations⟩) =
      Outcome.rename ρ (Node.rename ρ) (.done ⟨kind, modifiers, annotations⟩) :=
    fun kind => congrArg Outcome.done (Node.rename_mk ρ kind modifiers annotations).symm
  have hinherits : ∀ (kind : Kind Node) (m : Node),
      (Outcome.done ((m.rename ρ).inherit ⟨kind.relabel ρ (Node.rename ρ), modifiers, annotations⟩)) =
        Outcome.rename ρ (Node.rename ρ) (.done (m.inherit ⟨kind, modifiers, annotations⟩)) :=
    fun kind m => congrArg Outcome.done (by rw [Node.inherit_rename, Node.rename_mk])
  cases kind with
  | cyclic definitions root =>
    rw [Node.rename_mk]
    exact hstays (.cyclic definitions root)
  | ref name =>
    rw [Node.rename_mk]
    simp only [Kind.relabel, step]
    rw [Context.get?_rename]
    cases context.get? name with
    | none => exact hstays (.ref name)
    | some target =>
      dsimp only [Option.map_some]
      rw [show [ρ name] = [name].map ρ from rfl, leadsBack_rename]
      split
      · exact hstays (.ref name)
      · exact Outcome.bind_rename (h context s target) fun m _ => hinherits (.ref name) m
  | call target operands =>
    rw [Node.rename_mk]
    refine Outcome.bind_rename (call_rename h hρ context s target operands fun name parameters body arguments => ?_)
      fun m _ => hinherits (.call target operands) m
    exact hkey target operands name parameters body arguments rfl
  | deferred operator operands options =>
    let setting : Setting := ⟨limits.maxTemplateCombinations, evaluate, context, s, operator⟩
    have hreduce := reduce_rename (s := setting) h hρ ⟨.deferred operator operands options, modifiers, annotations⟩
      operands options (hfixed operator operands options rfl)
    rw [Node.rename_mk] at hreduce ⊢
    exact hreduce
  | generic parameters body =>
    rw [Node.rename_mk]
    let scope := Fields.without context (parameters.map (·.name))
    have htraverse : (Kind.relabel ρ (Node.rename ρ) (.generic parameters body)).traverse
          (evaluate' (Context.rename ρ scope) ((s.declare parameters).rename ρ)) =
        (Kind.traverse (evaluate scope (s.declare parameters)) (.generic parameters body)).rename ρ
          (Kind.relabel ρ (Node.rename ρ)) :=
      Kind.traverse_relabel fun c _ => h scope (s.declare parameters) c
    rw [← without_parameters_rename, ← State.declare_rename] at htraverse
    exact Outcome.bind_rename htraverse fun result _ => hstays result
  | _ => exact hstructural rfl

end

/-! ## Runs -/

/-- A point under other names. -/
def Point.rename (ρ : String → String) (p : Point) : Point := ⟨p.context.rename ρ, p.state.rename ρ, p.node.rename ρ⟩

/-- **What a query comes to keeps names apart from texts**: keys of calls follow the names in them, and no name of a
definition of an inline module is changed. -/
structure Natural (ρ : String → String) (limits : Limits) (query : Query) : Prop where
  /-- A call whose arguments depend on no parameter around it. -/
  calls : ∀ k p fuel s c, Nested limits query k p → Calls limits (run limits fuel) p s c →
    c.arguments.any s.dependsOnDeclared = false →
      expansionName (ρ c.name) (c.arguments.map (Node.rename ρ)) = ρ c.key
  modules : ∀ k p operator operands options, Nested limits query k p →
    p.node.kind = .deferred operator operands options → DefinesFixed ρ operator operands

theorem stepAt_rename (h : evaluate.Renames ρ evaluate') (hρ : Consistent ρ) {p : Point}
    (hkey : ∀ s c, Calls limits evaluate p s c → c.arguments.any s.dependsOnDeclared = false →
      expansionName (ρ c.name) (c.arguments.map (Node.rename ρ)) = ρ c.key)
    (hfixed : ∀ operator operands options, p.node.kind = .deferred operator operands options →
      DefinesFixed ρ operator operands) :
    stepAt limits (p.rename ρ) evaluate' = (stepAt limits p evaluate).rename ρ (Node.rename ρ) := by
  refine Outcome.bind_rename (p.state.descend_rename) fun s hs => ?_
  refine step_rename h hρ p.context s p.node (fun target operands name parameters body arguments hk ha hd hc => ?_) hfixed
  exact hkey s ⟨name, parameters, body, arguments⟩ ⟨hs, target, operands, hk, ha, hc⟩ hd

theorem MissingName.rename_symm_rename (name : MissingName) : (name.rename ρ).rename ρ.symm = name := by
  cases name <;> simp [rename]

theorem InstantiationError.rename_symm_rename (error : InstantiationError) :
    (error.rename ρ).rename ρ.symm = error := by
  cases error <;> simp [rename, MissingName.rename_symm_rename]

theorem Outcome.rename_symm_rename (outcome : Outcome Node) :
    (outcome.rename ρ (Node.rename ρ)).rename ρ.symm (Node.rename ρ.symm) = outcome := by
  cases outcome <;> simp [rename, InstantiationError.rename_symm_rename]

/-- An evaluator seen through other names: it asks another under these names and takes the names of the answer back. -/
def Evaluator.through (ρ : Equiv.Perm String) (evaluate : Evaluator) : Evaluator := fun context s n =>
  (evaluate (context.rename ρ) (s.rename ρ) (n.rename ρ)).rename ρ.symm (Node.rename ρ.symm)

theorem Evaluator.renames_through (ρ : Equiv.Perm String) (evaluate : Evaluator) :
    (evaluate.through ρ).Renames ρ evaluate :=
  fun _ _ _ => (Outcome.rename_symm_rename (ρ := ρ.symm) _).symm

/-- An evaluator that answers alike what a step comes to leads it to the same calls. -/
theorem Calls.of_answers {other : Evaluator} {p : Point} {c : GenericCall}
    (hsame : ∀ q, Asks (stepAt limits p) evaluate q → other.answer q = evaluate.answer q)
    (hc : Calls limits other p s c) (hfree : c.arguments.any s.dependsOnDeclared = false) :
    Calls limits evaluate p s c := by
  obtain ⟨hs, target, operands, hk, hoperands, hcallee⟩ := hc
  have hmapM : Planned (fun _ => True) fun evaluate => operands.mapM fun operand => evaluate p.context s operand :=
    Planned.mapM fun operand _ => question trivial
  have hfind : Planned (fun _ => True) fun evaluate => callee evaluate p.context s target :=
    planned_callee (fun _ _ => trivial) target
  have hcalled := @planned_called limits (fun _ => True) p.context s p.node (fun _ _ _ _ => trivial) c.arguments
  have hsupplied := @planned_supplied limits (fun _ => True) p.context s p.node (fun _ _ _ _ => trivial) target
  have hcall := @planned_call limits (fun _ => True) p.context s p.node (fun _ _ _ _ => trivial) target operands
  have hstep : stepAt limits p = fun evaluate => do
      return (← call limits evaluate p.context s target operands).inherit p.node := by
    funext evaluate
    rw [stepAt_of_descend hs, step, hk]
  have hasked : ∀ q, Asks (fun evaluate => call limits evaluate p.context s target operands) evaluate q →
      other.answer q = evaluate.answer q := by
    intro q hq
    refine hsame q ?_
    rw [hstep]
    exact (asks_bind_iff hcall fun m => (const _ : Planned (fun _ => True) _)).2 (.inl hq)
  have hoperands' : operands.mapM (evaluate p.context s) = .done c.arguments := by
    rw [← hoperands]
    exact (hmapM.eq_of_asks fun q hq => hasked q ((asks_bind_iff hmapM hsupplied).2 (.inl hq))).symm
  have hcallee' : callee evaluate p.context s target = .done (.generic c.name c.parameters c.body) := by
    rw [← hcallee]
    refine (hfind.eq_of_asks fun q hq => hasked q ?_).symm
    refine (asks_bind_iff hmapM hsupplied).2 (.inr ⟨_, hoperands', ?_⟩)
    simp only [hfree]
    exact (asks_bind_iff hfind hcalled).2 (.inl hq)
  exact ⟨hs, target, operands, hk, hoperands', hcallee'⟩

/-- **A run does under other names what it does**, at every point that it comes to.  By induction on the fuel, with the
run seen through the other names as the evaluator. -/
theorem run_rename (hρ : Consistent ρ) {query : Query} (hnatural : Natural ρ limits query) (fuel : Nat) {k : Nat}
    {p : Point} (hp : Nested limits query k p) :
    (run limits fuel).answer (p.rename ρ) = ((run limits fuel).answer p).rename ρ (Node.rename ρ) := by
  induction fuel generalizing k p with
  | zero => rfl
  | succ fuel ih =>
    have hsame : ∀ q, Asks (stepAt limits p) (run limits fuel) q →
        ((run limits fuel).through ρ).answer q = (run limits fuel).answer q := by
      intro q hq
      have hnested : Nested limits query (k + 1) q := .invokes hp ⟨fuel, hq⟩
      exact (congrArg (Outcome.rename ρ.symm (Node.rename ρ.symm)) (ih hnested)).trans (Outcome.rename_symm_rename _)
    have hstep : stepAt limits p ((run limits fuel).through ρ) = stepAt limits p (run limits fuel) :=
      (planned_stepAt limits p).eq_of_asks hsame
    rw [run_succ, run_succ, ← hstep]
    refine stepAt_rename (Evaluator.renames_through ρ (run limits fuel)) hρ (fun s c hc hfree => ?_) ?_
    · exact hnatural.calls k p fuel s c hp (hc.of_answers hsame hfree) hfree
    · exact fun operator operands options hk => hnatural.modules k p operator operands options hp hk

/-- **Instantiation under other names.** -/
theorem instantiate_rename (hρ : Consistent ρ) {context : Context} {n : Node}
    (hnatural : Natural ρ limits (.node context n)) :
    instantiate limits (context.rename ρ) (n.rename ρ) = (instantiate limits context n).rename ρ (Node.rename ρ) :=
  run_rename hρ hnatural (ampleFuel limits) (.opens (Query.opens_node limits context n))

end Schemata
