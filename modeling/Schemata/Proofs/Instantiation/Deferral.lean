import Schemata.Proofs.Instantiation.Causes
import Schemata.Proofs.Instantiation.Forgetting
import Schemata.Proofs.Instantiation.Shallower
/-!
# Violations that are found later

A constraint is only checked when argument and constraint are known.  What a poorer context leaves undecided can be
instantiated again in a richer one; where no step forgets anything, this gives what the richer context makes of the node
itself (`Remembers.run_retry`), violations of constraints included.

Main statement: `deferring_keeps_violations`.  What it excepts loses violations (`violations_lost`), whichever lookup an
expansion comes too early for and whichever way a reduction is not final.
-/
namespace Schemata

open Relation (ReflTransGen)

section
variable {limits : Limits} {context wider : Context}

/-! ## Retrying -/

theorem liftsTo_traverse {f g : Node → Outcome Node} {kind : Kind Node}
    (h : ∀ c ∈ kind.parts, (f c).LiftsTo (g c)) : (kind.traverse f).LiftsTo (kind.traverse g) := by
  classical
  let asking (f : Node → Outcome Node) : Evaluator := fun _ _ c => f c
  let other : Node → Outcome Node := fun c => if c ∈ kind.parts then g c else f c
  have hplanned : Planned (fun q => q.node ∈ kind.parts) fun evaluate =>
      kind.traverse fun c => evaluate [] .initial c :=
    Planned.traverse fun c hc => Planned.question hc
  have hlifts : ∀ q, ((asking f).answer q).LiftsTo ((asking other).answer q) := by
    intro q
    by_cases hq : q.node ∈ kind.parts
    · have hg : (asking other).answer q = g q.node := if_pos hq
      rw [hg]
      exact h _ hq
    · have hf : (asking other).answer q = f q.node := if_neg hq
      rw [hf]
      exact .refl _
  have hlift : (kind.traverse f).LiftsTo (kind.traverse other) := hplanned.liftsTo hlifts
  have hsame : ∀ q, Asks (fun evaluate => kind.traverse fun c => evaluate [] .initial c) (asking g) q →
      (asking other).answer q = (asking g).answer q := fun q hq => if_pos (hplanned.allowed_of_asks hq)
  have hother : kind.traverse other = kind.traverse g := hplanned.eq_of_asks hsame
  rwa [hother] at hlift

/-- What is retried of a list is what each node of it is retried as. -/
theorem liftsTo_retried {f : Node → Outcome Node} {ns ms : List Node}
    (h : List.Forall₂ (fun n m => (f n).LiftsTo (f m)) ns ms) : (ns.mapM f).LiftsTo (ms.mapM f) := by
  induction h with
  | nil => exact .refl _
  | cons hnm _ ih =>
    rw [List.mapM_cons, List.mapM_cons]
    exact hnm.bind fun _ => ih.bind fun _ => .refl _

/-- What is made of the parts of a node is made of their replacements. -/
theorem step_liftsTo_of_isStructural {evaluate : Evaluator} {s : State} {n : Node} (hs : n.kind.isStructural = true)
    {after : Node → Node} (h : ∀ c ∈ n.kind.parts, (evaluate context s c).LiftsTo (evaluate context s (after c))) :
    (step limits evaluate context s n).LiftsTo
      (step limits evaluate context s (n.rebuild (n.kind.map after))) := by
  have hafter : (n.rebuild (n.kind.map after)).kind.isStructural = true := by rwa [Node.rebuild, Kind.isStructural_map]
  rw [step_of_isStructural hs, step_of_isStructural hafter, Node.rebuild, Kind.traverse_map]
  exact (liftsTo_traverse h).bind fun _ => .refl _

theorem step_liftsTo_of_generic {evaluate : Evaluator} {s : State} {n : Node} {parameters : List (Parameter Node)}
    {body : Node} (hk : n.kind = .generic parameters body) {after : Node → Node}
    (h : ∀ c ∈ n.kind.parts,
      (evaluate (Fields.without context (parameters.map (·.name))) (s.declare parameters) c).LiftsTo
        (evaluate (Fields.without context (parameters.map (·.name))) (s.declare parameters) (after c))) :
    (step limits evaluate context s n).LiftsTo
      (step limits evaluate context s (n.rebuild (n.kind.map after))) := by
  obtain ⟨kind, modifiers, annotations⟩ := n
  cases hk
  have hnames : (parameters.map fun p =>
      (⟨p.name, after p.constraint, after p.default⟩ : Parameter Node)).map (·.name) = parameters.map (·.name) := by
    rw [List.map_map]
    rfl
  have htraverse := Kind.traverse_map
    (evaluate (Fields.without context (parameters.map (·.name))) (s.declare parameters)) after (.generic parameters body)
  simp only [Kind.map, State.declare] at htraverse
  simp only [step, Node.rebuild, Kind.map, State.declare, hnames, htraverse]
  exact (liftsTo_traverse h).bind fun _ => .refl _

/-- A call that stayed is made again. -/
theorem step_call_inherit {evaluate : Evaluator} {s : State} (target : Node) (arguments : List Node) (origin : Node) :
    step limits evaluate context s ((Node.call target arguments).inherit origin) =
      call limits evaluate context s target arguments >>= fun r => .done (r.inherit origin) := by
  have hkind : ((Node.call target arguments).inherit origin).kind = .call target arguments := rfl
  rw [step_of_call hkind]
  exact congrArg _ (funext fun r => congrArg Outcome.done (Node.inherit_of_inherit r _ origin))

/-- A reference that is not bound is its own result, unless the run is cut short. -/
theorem liftsTo_of_unbound {fuel : Nat} {s : State} {n : Node} {name : String} (hk : n.kind = .ref name)
    (h : context.get? name = none) : (run limits fuel context s n).LiftsTo (.done n) := by
  cases fuel with
  | zero => exact .of_cutShort rfl
  | succ fuel =>
    by_cases hdeep : limits.maxDepth ≤ s.depth
    · exact .of_cutShort (congrArg Outcome.cutShort (run_too_deep (p := ⟨context, s, n⟩) hdeep fuel))
    · rw [run_of_descend (t := { s with depth := s.depth + 1 }) (by rw [State.descend, if_neg hdeep]),
        step_of_stays hk (.inl h)]
      exact .refl _

/-- **What is called does not change** when the target was instantiated before, to something that is still no generic. -/
theorem callee_liftsTo {fuel : Nat} {s : State} {target resolved : Node} (hname : ∀ name, target.kind ≠ .ref name)
    (hgeneric : ∀ parameters body, target.kind ≠ .generic parameters body)
    (hresolved : ∀ parameters body, resolved.kind ≠ .generic parameters body)
    (hunbound : ∀ name, resolved.kind = .ref name → context.get? name = none)
    (h : (run limits fuel context s target).LiftsTo (run limits fuel context s resolved)) :
    (callee (run limits fuel) context s target).LiftsTo (callee (run limits fuel) context s resolved) := by
  rw [callee_of_computed hname hgeneric]
  by_cases href : ∃ name, resolved.kind = .ref name
  · obtain ⟨name, hk⟩ := href
    have hcallee : callee (run limits fuel) context s resolved = .done (.other resolved) := by
      simp only [callee, hk, chase_of_unbound (hunbound name hk)]
      rfl
    have hother : Callee.ofNode resolved = .other resolved := by simp [Callee.ofNode, hk]
    rw [hcallee, ← hother]
    exact (h.trans (liftsTo_of_unbound hk (hunbound name hk))).bind fun _ => .refl _
  · rw [callee_of_computed (fun name hk => href ⟨name, hk⟩) hresolved]
    exact h.bind fun _ => .refl _

/-- **A call whose target was instantiated before** comes to what the call itself does, when no argument depends on a
parameter of a generic around. -/
theorem call_liftsTo_resolved {evaluate : Evaluator} {s : State} {target resolved : Node} {operands arguments : List Node}
    (hoperands : (operands.mapM (evaluate context s)).LiftsTo (arguments.mapM (evaluate context s)))
    (hclosed : ∀ captured, operands.mapM (evaluate context s) = .done captured →
      captured.any s.dependsOnDeclared = false)
    (hcallee : (callee evaluate context s target).LiftsTo (callee evaluate context s resolved)) :
    (call limits evaluate context s target operands).LiftsTo (call limits evaluate context s resolved arguments) := by
  refine hoperands.bind_of_done fun captured hcaptured => ?_
  rw [if_neg (by simp [hclosed captured hcaptured]), if_neg (by simp [hclosed captured hcaptured])]
  exact hcallee.bind fun _ => .refl _

/-- A call of a name that stayed has kept its target. -/
theorem eq_of_callee_other {evaluate : Evaluator} {s : State} {target resolved : Node} {name : String}
    (hk : target.kind = .ref name) (h : callee evaluate context s target = .done (.other resolved)) :
    resolved = target := by
  simp only [callee, hk] at h
  split at h <;> cases h
  rfl

section
variable {fuel : Nat} {s t : State} {n : Node} (hwithin : context.Within wider)
  (hacyclic : ∀ name, isCyclic wider name = false) (hordered : wider.Ordered) (hframes : s.frames = [])
  (h : Remembers limits wider ⟨Fields.without context s.declared, s, n⟩) (ht : s.descend limits = .done t)
include hwithin hacyclic hordered hframes h ht

/-- A reference that was followed is followed again, to what its target was instantiated to. -/
theorem Remembers.retry_reference {name : String} {target r : Node} (hk : n.kind = .ref name)
    (hn : Fields.get? (Fields.without context s.declared) name = some target)
    (hback : leadsBack [name] (Fields.without wider s.declared) target = false)
    (hinvokes : Invokes limits ⟨Fields.without context s.declared, s, n⟩ ⟨Fields.without context s.declared, t, target⟩)
    (hrun : run limits fuel (Fields.without context s.declared) t target = .done r)
    (hretry : (run limits fuel (Fields.without wider s.declared) t target).LiftsTo
      (run limits fuel (Fields.without wider s.declared) t r)) :
    (run limits (fuel + 1) (Fields.without wider s.declared) s n).LiftsTo
      (run limits (fuel + 1) (Fields.without wider s.declared) s (r.inherit n)) := by
  obtain ⟨-, rfl⟩ := State.eq_of_descend ht
  let t : State := { s with depth := s.depth + 1 }
  have hrest := run_rest hwithin hacyclic hordered (s := t) hframes (h.invokes hinvokes) hrun
  have hbound : wider.get? name = some target := hwithin name target (context.without_within _ name target hn)
  have htarget : target.annotations.Sorted := (Node.isOrdered_iff.1 (hordered name target hbound)).1
  have hhands : r.HandsOn (Fields.without wider s.declared) n := by
    refine hrest.handsOn (.inr ⟨htarget, ?_⟩)
    by_cases hnone : n.annotations = []
    · exact .inl hnone
    · refine .inr fun q operator operands options hq hdeferred hlacks => ?_
      by_contra hsome
      exact h _ .refl (.options hk hnone (.head hinvokes hq) hdeferred hsome hlacks)
  rw [run_inherit hhands, run_of_descend ht, step_of_follows hk (hwithin.without s.declared name target hn) hback]
  exact (hretry.trans (run_shallower limits (Nat.le_succ fuel) _ (Nat.le_succ s.depth) r)).bind fun _ => .refl _

/-- A call that stayed has kept its target or has it instantiated, and is made again as it was left. -/
theorem Remembers.retry_call {evaluate : Evaluator} {target : Node} {operands arguments : List Node} {r : Node}
    (hk : n.kind = .call target operands) (hlifts : ∀ q, (evaluate.answer q).LiftsTo ((run limits fuel).answer q))
    (hasked : ∀ c d, evaluate (Fields.without context s.declared) t c = .done d →
      Invokes limits ⟨Fields.without context s.declared, s, n⟩ ⟨Fields.without context s.declared, t, c⟩ ∧
        run limits fuel (Fields.without context s.declared) t c = .done d)
    (hretry : ∀ c d, evaluate (Fields.without context s.declared) t c = .done d →
      (run limits fuel (Fields.without wider s.declared) t c).LiftsTo
        (run limits fuel (Fields.without wider s.declared) t d))
    (hsupplied : operands.mapM (evaluate (Fields.without context s.declared) t) = .done arguments)
    (hstays : r = .call target arguments ∧ arguments.any t.dependsOnDeclared = true ∨
      ∃ resolved, r = .call resolved arguments ∧ arguments.any t.dependsOnDeclared = false ∧
        callee evaluate (Fields.without context s.declared) t target = .done (.other resolved)) :
    ∃ resolved, r = .call resolved arguments ∧
      (call limits (run limits fuel) (Fields.without wider s.declared) t target operands).LiftsTo
        (call limits (run limits fuel) (Fields.without wider s.declared) t resolved arguments) := by
  obtain ⟨-, rfl⟩ := State.eq_of_descend ht
  let t : State := { s with depth := s.depth + 1 }
  have hoperands := liftsTo_retried ((Outcome.forall₂_of_mapM hsupplied).imp hretry)
  rcases hstays with ⟨rfl, -⟩ | ⟨resolved, rfl, hclosed, hcallee⟩
  · exact ⟨target, rfl, hoperands.bind fun _ => .refl _⟩
  · refine ⟨resolved, rfl, ?_⟩
    by_cases hname : ∃ name, target.kind = .ref name
    · obtain ⟨name, hname⟩ := hname
      rw [eq_of_callee_other hname hcallee]
      exact hoperands.bind fun _ => .refl _
    · have hname : ∀ name, target.kind ≠ .ref name := fun name hk => hname ⟨name, hk⟩
      have hgeneric : ∀ parameters body, target.kind ≠ .generic parameters body := by
        intro parameters body hk
        simp [callee, hk] at hcallee
      rw [callee_of_computed hname hgeneric] at hcallee
      obtain ⟨found, hfound, hother⟩ := Outcome.bind_eq_done.1 hcallee
      obtain ⟨rfl, hresolved⟩ := Callee.ofNode_eq_other (Outcome.done.inj hother)
      obtain ⟨hinvokes, hrun⟩ := hasked _ _ hfound
      have hrest := run_rest hwithin hacyclic hordered (s := t) hframes (h.invokes hinvokes) hrun
      have htarget := callee_liftsTo hname hgeneric hresolved (hrest.unbound hname) (hretry _ _ hfound)
      refine call_liftsTo_resolved hoperands (fun captured hcaptured => ?_) htarget
      have hsupply : Planned (fun _ => True) fun evaluate : Evaluator =>
          operands.mapM (evaluate (Fields.without context s.declared) t) :=
        Planned.mapM fun _ _ => Planned.question trivial
      rw [Bool.eq_false_iff]
      exact fun hdepends =>
        h _ .refl (.capture hk hname ht ((hsupply.liftsTo hlifts).done hsupplied) hclosed hcaptured hdepends)

/-- What a call is expanded to is the same in either context, and final. -/
theorem Remembers.retry_expanded {c : GenericCall} {q : Point} {expanded r : Node}
    (hexpands : Expands limits ⟨Fields.without context s.declared, s, n⟩ c q)
    (hinvokes : Invokes limits ⟨Fields.without context s.declared, s, n⟩
      ⟨Fields.without context s.declared, t, expanded⟩)
    (hrun : run limits fuel (Fields.without context s.declared) t expanded = .done r)
    (hretry : (run limits fuel (Fields.without wider s.declared) t expanded).LiftsTo
      (run limits fuel (Fields.without wider s.declared) t r))
    (hdone : run limits (fuel + 1) (Fields.without context s.declared) s n = .done (r.inherit n)) :
    (run limits (fuel + 1) (Fields.without wider s.declared) s n).LiftsTo
      (run limits (fuel + 1) (Fields.without wider s.declared) s (r.inherit n)) := by
  obtain ⟨-, rfl⟩ := State.eq_of_descend ht
  let t : State := { s with depth := s.depth + 1 }
  have hdecided := h.decided hexpands
  have hinside := hdecided.invokes hinvokes
  have hagain := hinside.run_keeps hwithin hacyclic (s := t) (fun _ hx => hx) _ hrun
  have hrest := run_rest hwithin hacyclic hordered (s := t) hframes (h.invokes hinvokes) hrun
  have hhands : r.HandsOn (Fields.without wider s.declared) n := hrest.handsOn (.inl hinside.knows)
  have hinherit : run limits fuel (Fields.without wider s.declared) t (r.inherit n) = .done (r.inherit n) := by
    rw [run_inherit hhands, hretry.done hagain]
    rfl
  rw [hdecided.run_keeps hwithin hacyclic (fun _ hx => hx) _ hdone]
  exact fun _ => (run_shallower limits (Nat.le_succ fuel) _ (s := t) (Nat.le_succ s.depth) (r.inherit n)).done hinherit

end

/-- **Where nothing is forgotten, a richer context makes of a result what it makes of the node itself**, by induction on
the fuel. -/
theorem Remembers.run_retry (hwithin : context.Within wider) (hacyclic : ∀ name, isCyclic wider name = false)
    (hordered : wider.Ordered) {fuel : Nat} {s : State} {n m : Node} (hframes : s.frames = [])
    (h : Remembers limits wider ⟨Fields.without context s.declared, s, n⟩)
    (hdone : run limits fuel (Fields.without context s.declared) s n = .done m) :
    (run limits fuel (Fields.without wider s.declared) s n).LiftsTo
      (run limits fuel (Fields.without wider s.declared) s m) := by
  induction fuel generalizing s n m with
  | zero => cases hdone
  | succ fuel ih =>
    let p : Point := ⟨Fields.without context s.declared, s, n⟩
    obtain ⟨t, evaluate, ht, hstep, hlifts, hasked⟩ := exists_step_of_run (p := p) hdone
    obtain ⟨-, rfl⟩ := State.eq_of_descend ht
    let t : State := { s with depth := s.depth + 1 }
    have hhidden := hwithin.without s.declared
    have hretry : ∀ c d, evaluate p.context t c = .done d →
        (run limits fuel (Fields.without wider s.declared) t c).LiftsTo
          (run limits fuel (Fields.without wider s.declared) t d) := by
      intro c d hd
      obtain ⟨hinvokes, hrun⟩ := hasked _ _ _ _ hd
      exact ih (s := t) hframes (h.invokes hinvokes) hrun
    cases hk : n.kind with
    | ref name =>
      cases hn : Fields.get? (Fields.without context s.declared) name with
      | none =>
        rw [step_of_stays hk (.inl hn)] at hstep
        cases hstep
        exact .refl _
      | some target =>
        have hback : leadsBack [name] (Fields.without wider s.declared) target = false := by
          have hclear := isCyclic_without hacyclic s.declared name
          rwa [isCyclic, hhidden name target hn] at hclear
        rw [step_of_follows hk hn (hhidden.leadsBack_eq_false hback)] at hstep
        obtain ⟨r, hr, hm⟩ := Outcome.bind_eq_done.1 hstep
        cases hm
        obtain ⟨hinvokes, hrun⟩ := hasked _ _ _ _ hr
        exact h.retry_reference hwithin hacyclic hordered hframes ht hk hn hback hinvokes hrun (hretry _ _ hr)
    | call target operands =>
      rw [step_of_call hk] at hstep
      obtain ⟨r, hr, hm⟩ := Outcome.bind_eq_done.1 hstep
      cases hm
      rcases call_cases (p := p) ht hk hframes hlifts hr with
        ⟨arguments, hsupplied, hstays⟩ | ⟨c, q, expanded, hexpands, hr⟩
      · obtain ⟨resolved, rfl, hagain⟩ := h.retry_call hwithin hacyclic hordered hframes ht hk hlifts
          (fun c d => hasked _ _ c d) hretry hsupplied hstays
        rw [run_of_descend ht, run_of_descend ht, step_of_call hk, step_call_inherit]
        exact hagain.bind fun _ => .refl _
      · obtain ⟨hinvokes, hrun⟩ := hasked _ _ _ _ hr
        exact h.retry_expanded hwithin hacyclic hordered hframes ht hexpands hinvokes hrun (hretry _ _ hr) hdone
    | deferred operator operands options =>
      by_cases hreduces : Reduces p
      · obtain ⟨hsame, hfinal⟩ := (h.settles .refl hreduces).final hdone (fun _ hx => hx) hhidden
        rw [hsame, hfinal]
        exact .refl _
      rw [step_of_waits hk (canReduce_of_not_reduces hreduces hk)] at hstep
      cases hstep
      exact .refl _
    | cyclic definitions root =>
      rw [step_of_bundle hk] at hstep
      cases hstep
      exact .refl _
    | generic parameters body =>
      simp only [step, show p.node.kind = .generic parameters body from hk] at hstep
      obtain ⟨kind, hkind, hm⟩ := Outcome.bind_eq_done.1 hstep
      cases hm
      obtain ⟨after, hafter, rfl⟩ := Kind.traverse_eq_done_iff.1 hkind
      rw [← hk] at hafter ⊢
      rw [run_of_descend ht, run_of_descend ht]
      refine step_liftsTo_of_generic hk fun c hc => ?_
      have hc := hafter c hc
      rw [Fields.without_without] at hc ⊢
      obtain ⟨hinvokes, hrun⟩ := hasked _ _ _ _ hc
      exact ih (s := t.declare parameters) hframes (h.invokes hinvokes) hrun
    | _ =>
      have hs : n.kind.isStructural = true := by rw [hk]; rfl
      rw [step_of_isStructural hs] at hstep
      obtain ⟨kind, hkind, hm⟩ := Outcome.bind_eq_done.1 hstep
      cases hm
      obtain ⟨after, hafter, rfl⟩ := Kind.traverse_eq_done_iff.1 hkind
      rw [run_of_descend ht, run_of_descend ht]
      exact step_liftsTo_of_isStructural hs fun c hc => hretry _ _ (hafter c hc)

/-! ## Violations -/

theorem Outcome.cutShort_of_violates {α : Type} {x : Outcome α} (h : x.violates = true) : x.cutShort = false := by
  cases x with
  | done a => cases h
  | failed e => cases e <;> first | rfl | cases h
  | exhausted => cases h

/-- **Where operators are reduced to something final only**, a run is done, is cut short or finds a violated constraint. -/
theorem run_violates {fuel : Nat} {p : Point}
    (hsettles : ∀ q, Inside limits p q → Reduces q → Settles limits wider q) :
    (∃ m, (run limits fuel).answer p = .done m) ∨ ((run limits fuel).answer p).cutShort = true ∨
      ((run limits fuel).answer p).violates = true := by
  let causes (cause : Option InstantiationError) : Prop :=
    ∀ e, cause = some e →
      (Outcome.failed e : Outcome Node).cutShort = true ∨ (Outcome.failed e : Outcome Node).violates = true
  have hstops : ((run limits fuel).answer p).StopsBy causes := by
    induction fuel generalizing p with
    | zero => exact fun e he => by cases he
    | succ fuel ih =>
      by_cases hreduces : Reduces p
      · cases hends : (run limits (fuel + 1)).answer p with
        | done m => trivial
        | failed e =>
          intro cause hcause
          cases hcause
          have hfails := (hsettles p .refl hreduces).ends (fuel + 1)
          rw [hends] at hfails
          exact hfails.resolve_left (by simp)
        | exhausted => exact fun e he => by cases he
      rw [run_succ]
      refine (planned_stepAt limits p).stopsBy_of_asks (fun evaluate hevaluate => ?_) fun q hq => ?_
      · have hviolation : ∀ parameter constraint received,
            causes (some (.constraintViolation parameter constraint received)) := by
          intro _ _ _ e he
          cases he
          exact .inr rfl
        by_cases hdeep : limits.maxDepth ≤ p.state.depth
        · rw [stepAt, State.descend, if_pos hdeep]
          intro e he
          cases he
          exact .inl rfl
        · have hd : p.state.descend limits = .done { p.state with depth := p.state.depth + 1 } := by
            rw [State.descend, if_neg hdeep]
          rw [stepAt_of_descend hd]
          refine step_stopsBy hevaluate hviolation (fun _ _ c _ _ => ?_) fun operator operands options hk => ?_
          · rw [State.enter]
            split
            · trivial
            · unfold State.push
              dsimp only
              split
              · intro e he
                cases he
                exact .inl rfl
              · trivial
          · rw [reduce, if_neg (by simp [canReduce_of_not_reduces hreduces hk])]
            trivial
      · exact ih fun r hr => hsettles r (.head ⟨fuel, hq⟩ hr)
  cases houtcome : (run limits fuel).answer p with
  | done m => exact .inl ⟨m, rfl⟩
  | failed e =>
    rw [houtcome] at hstops
    exact .inr (hstops e rfl)
  | exhausted => exact .inr (.inl rfl)

/-! ## References -/

/-- **What a reference comes to**: what it is bound to. -/
theorem Invokes.of_reference {p q : Point} {name : String} (h : Invokes limits p q) (hk : p.node.kind = .ref name) :
    ∃ s target, p.state.descend limits = .done s ∧ p.context.get? name = some target ∧
      q = ⟨p.context, s, target⟩ := by
  obtain ⟨s, hd, -⟩ := h.heir
  obtain ⟨fuel, h⟩ := h
  have hstep : stepAt limits p = fun evaluate => step limits evaluate p.context s p.node :=
    funext fun evaluate => stepAt_of_descend hd evaluate
  rw [hstep] at h
  by_cases hstays : Stays p.context name
  · simp only [step_of_stays hk hstays] at h
    exact absurd h not_asks_const
  · obtain ⟨target, hbound, hclear⟩ := not_stays_iff.1 hstays
    simp only [step_of_follows hk hbound hclear] at h
    have hquestion : Planned (fun _ => True) fun evaluate : Evaluator => evaluate p.context s target :=
      Planned.question trivial
    exact ⟨s, target, hd, hbound, asks_question_iff.1 (Planned.asks_of_then_const hquestion h)⟩

/-! ## The law -/

/-- **A violated constraint is not lost by deferring**, unless it is forgotten.  Let a richer context, where no name leads
back, find an argument of a call in a node that violates its constraint.  Then a run in the poorer context that is not cut
short finds a violation too, or leaves a result in which the richer context finds the same one; or it comes to a step that
forgets something. -/
theorem deferring_keeps_violations (hwithin : context.Within wider) (hacyclic : ∀ name, isCyclic wider name = false)
    (hordered : wider.Ordered) (limits : Limits) (n : Node) (hviolates : (instantiate limits wider n).violates = true)
    (hcut : (instantiate limits context n).cutShort = false) :
    (instantiate limits context n).violates = true ∨
      (∃ m, instantiate limits context n = .done m ∧ instantiate limits wider m = instantiate limits wider n) ∨
      ∃ p, Inside limits ⟨context, .initial, n⟩ p ∧ Forgets limits wider p := by
  by_cases hforgets : ∃ p, Inside limits ⟨context, .initial, n⟩ p ∧ Forgets limits wider p
  · exact .inr (.inr hforgets)
  · have hremembers : Remembers limits wider ⟨context, .initial, n⟩ := fun q hq hf => hforgets ⟨q, hq, hf⟩
    have hends : (∃ m, instantiate limits context n = .done m) ∨ (instantiate limits context n).cutShort = true ∨
        (instantiate limits context n).violates = true := run_violates fun q hq => hremembers.settles hq
    rcases hends with ⟨m, hm⟩ | hshort | hviolation
    · have hpoor : Fields.without context State.initial.declared = context := Fields.without_nil context
      have hrich : Fields.without wider State.initial.declared = wider := Fields.without_nil wider
      have hdone : run limits (ampleFuel limits) (Fields.without context State.initial.declared) .initial n = .done m := by
        rwa [hpoor]
      have hretry := Remembers.run_retry hwithin hacyclic hordered (s := .initial) rfl (by rwa [hpoor]) hdone
      rw [hrich] at hretry
      exact .inr (.inl ⟨m, hm, hretry (Outcome.cutShort_of_violates hviolates)⟩)
    · exact absurd (hcut.symm.trans hshort) (by simp)
    · exact .inl hviolation

end

namespace Postponed

/-- An alias, whose end is not known yet. -/
def poorer : Context := [("Name", .reference "X")]

/-- With the end of the alias, and a generic that it does not suit. -/
def richer : Context :=
  poorer ++ [("X", .number), ("F", .generic [.bounded "T" .string, .free "K"]
    (.object [("value", .reference "T"), ("key", .reference "K")]))]

/-- The operator is reduced in either context. -/
def awaited : Node := .awaited .boolean

def node : Node := .call (.reference "F") [.reference "Name", awaited]

def start : Point := ⟨poorer, .initial, node⟩

def known : Point := ⟨poorer, { depth := 1 }, .reference "Name"⟩

def unbound : Point := ⟨poorer, { depth := 2 }, .reference "X"⟩

def operator : Point := ⟨poorer, { depth := 1 }, awaited⟩

def operand : Point := ⟨poorer, { depth := 2 }, .boolean⟩

theorem not_calls {evaluate : Evaluator} {s : State} {c : GenericCall} : ¬ Calls {} evaluate start s c := by
  rintro ⟨-, target, operands, hkind, -, hcallee⟩
  cases hkind
  cases hcallee

theorem invokes_start {q : Point} (h : Invokes {} start q) : q = known ∨ q = operator := by
  obtain ⟨fuel, s, hd, harguments | hcallee | ⟨c, hcalls, -⟩⟩ := h.of_call (p := start) rfl
  · cases hd
    have hplanned : Planned (fun q => q = known ∨ q = operator) fun evaluate : Evaluator =>
        [.reference "Name", awaited].mapM (evaluate poorer { depth := 1 }) := by
      refine Planned.mapM fun n hn => Planned.question ?_
      rcases List.mem_pair.1 hn with rfl | rfl
      · exact .inl rfl
      · exact .inr rfl
    exact hplanned.allowed_of_asks harguments
  · have hconst : (fun evaluate => callee evaluate poorer s (.reference "F")) =
        fun _ => .done (.other (.reference "F")) := rfl
    rw [show start.context = poorer from rfl, hconst] at hcallee
    exact absurd hcallee not_asks_const
  · exact absurd hcalls not_calls

theorem invokes_operator {q : Point} (h : Invokes {} operator q) : q = operand := by
  obtain ⟨fuel, h⟩ := h
  have hplanned : Planned (fun q => q = operand) (stepAt {} operator) := by
    show Planned (fun q => q = operand) fun evaluate =>
      reduce (settingOf 10000 poorer { depth := 2 } .awaited evaluate) awaited [.boolean] []
    have hreduce : canReduce poorer .awaited [.boolean] = true := rfl
    simp only [reduce, settingOf, hreduce, if_true]
    refine Planned.then_const (Planned.bind (Planned.mapM fun n hn => Planned.question ?_) fun operands => ?_) _
    · rw [List.mem_singleton.1 hn]
      rfl
    · exact Planned.then_const (planned_awaitedValue operands) _
  exact hplanned.allowed_of_asks h

theorem not_invokes_operand {q : Point} : ¬ Invokes {} operand q := by
  rintro ⟨fuel, h⟩
  exact not_asks_const h

theorem eq_of_inside {p : Point} (h : Inside {} start p) :
    p = start ∨ p = known ∨ p = unbound ∨ p = operator ∨ p = operand := by
  induction h with
  | refl => exact .inl rfl
  | tail _ hpq ih =>
    rcases ih with rfl | rfl | rfl | rfl | rfl
    · rcases invokes_start hpq with rfl | rfl
      · exact .inr (.inl rfl)
      · exact .inr (.inr (.inr (.inl rfl)))
    · obtain ⟨s, target, hd, hbound, rfl⟩ := hpq.of_reference (p := known) rfl
      cases hd
      cases hbound
      exact .inr (.inr (.inl rfl))
    · obtain ⟨s, target, hd, hbound, rfl⟩ := hpq.of_reference (p := unbound) rfl
      cases hbound
    · exact .inr (.inr (.inr (.inr (invokes_operator hpq))))
    · exact absurd hpq not_invokes_operand

theorem run_awaited (fuel : Nat) (context : Context) :
    run {} (fuel + 2) context { depth := 1 } awaited = .done .boolean := by
  with_unfolding_all rfl

theorem settles_operator : Settles {} richer operator where
  ends fuel := by
    match fuel with
    | 0 | 1 => exact .inr (.inl rfl)
    | fuel + 2 => exact .inl ⟨_, run_awaited fuel _⟩
  formed {fuel m} h := by
    match fuel with
    | 0 | 1 => cases h
    | fuel + 2 =>
      cases (run_awaited fuel _).symm.trans h
      rfl
  final {fuel m hidden} h _ _ := by
    match fuel with
    | 0 | 1 => cases h
    | fuel + 2 =>
      cases (run_awaited fuel _).symm.trans h
      exact ⟨run_awaited fuel _, by with_unfolding_all rfl⟩

theorem not_forgets {p : Point} (h : Inside {} start p) : ¬ Forgets {} richer p := by
  rcases eq_of_inside h with rfl | rfl | rfl | rfl | rfl
  · intro hf
    cases hf with
    | expansion expands =>
      obtain ⟨calls, -, -, -, -⟩ := expands
      exact not_calls calls
    | reduction reduces =>
      obtain ⟨operator, operands, options, hdeferred, -⟩ := reduces
      cases hdeferred
    | options kind => cases kind
    | capture kind computed =>
      cases kind
      exact computed "F" rfl
  · exact not_forgets_of_reference rfl rfl
  · exact not_forgets_of_reference rfl rfl
  · exact not_forgets_of_operator rfl settles_operator
  · exact fun hf => absurd hf.waits (by decide)

end Postponed

open Postponed in
/-- An argument that is known too late is checked when the call is retried. -/
theorem deferring_keeps_violations_alias :
    poorer.Within richer ∧ (∀ name, isCyclic richer name = false) ∧ richer.Ordered ∧
      (instantiate {} richer node).violates = true ∧ (instantiate {} poorer node).cutShort = false ∧
      (∀ p, Inside {} start p → ¬ Forgets {} richer p) ∧
      (instantiate {} poorer node).violates = false ∧
      ∃ m, instantiate {} poorer node = .done m ∧
        instantiate {} richer m = instantiate {} richer node := by
  have hwithin : poorer.Within richer := .append _ _
  have hacyclic : ∀ name, isCyclic richer name = false := isCyclic_eq_false_of_all (by decide +kernel)
  have hordered : richer.Ordered := .of_all (by decide +kernel)
  have hviolates : (instantiate {} richer node).violates = true := by decide +kernel
  have hcut : (instantiate {} poorer node).cutShort = false := by decide +kernel
  have hfirst : (instantiate {} poorer node).violates = false := by decide +kernel
  refine ⟨hwithin, hacyclic, hordered, hviolates, hcut, fun p => not_forgets, hfirst, ?_⟩
  rcases deferring_keeps_violations hwithin hacyclic hordered {} node hviolates hcut with
    hviolation | hretry | ⟨p, hp, hforgets⟩
  · exact absurd (hfirst.symm.trans hviolation) (by simp)
  · exact hretry
  · exact absurd hforgets (not_forgets hp)

/-! ## Violations that are lost -/

/-- **A violation is lost**: the richer context finds one in a node, but neither the poorer context does, nor the richer
one in what the poorer one leaves. -/
structure LosesViolation (context wider : Context) (n : Node) : Prop where
  within : context.Within wider
  acyclic : ∀ name, isCyclic wider name = false
  ordered : wider.Ordered
  found : (instantiate {} wider n).violates = true
  uncut : (instantiate {} context n >>= instantiate {} wider).cutShort = false
  lost : (instantiate {} context n >>= instantiate {} wider).violates = false

theorem losesViolation_append {context more : Context} {n : Node}
    (hacyclic : ((context ++ more).all fun e => !isCyclic (context ++ more) e.1) = true)
    (hordered : ((context ++ more).all fun e => e.2.isOrdered) = true)
    (hfound : (instantiate {} (context ++ more) n).violates = true)
    (huncut : (instantiate {} context n >>= instantiate {} (context ++ more)).cutShort = false)
    (hlost : (instantiate {} context n >>= instantiate {} (context ++ more)).violates = false) :
    LosesViolation context (context ++ more) n :=
  ⟨.append _ _, isCyclic_eq_false_of_all hacyclic, .of_all hordered, hfound, huncut, hlost⟩

/-- **Whatever forgets, loses violations.**  A call is expanded before its argument is known, or inside of a bundle that
closes; an operator drops the call, or fails first; and an argument that differs in an annotation, or in the target of a
call, makes the call inside a repetition, whose result is not known. -/
theorem violations_lost :
    let strict : Node := .generic [.bounded "T" .string] (.object [("value", .reference "T")])
    let number : Node := .generic [.bounded "T" .number] (.reference "T")
    let bundle : Node := .generic [.free "T"]
      (.object [("next", .call (.reference "F") [.reference "T"]), ("g", .call (.reference "G") [.reference "T"])])
    let picked : Node := .generic [.free "T"]
      (.deferred .pick [.object [("a", .reference "T"), ("b", .call (.reference "G") [.reference "T"])], .text "a"])
    let mismatched : Node := .deferred .pick [.string, .text "k"]
    let asked (argument : Node) : Node := .generic [.free "T"]
      (.object [("value", .call (.reference "G") [.call (.reference "F") [argument]])])
    let keys : Node := .of (.deferred .keyOf [.reference "X"] [("k", .string "keys")])
    let noted (n : Node) (text : String) : Node := { n with annotations := [("k", .string text)] }
    let calling (argument operand : Node) : Node :=
      .generic [.free "T"] (.call (.call (.reference "C") [argument]) [operand])
    let captured : Node := .object [("value", .reference "T")]
    LosesViolation [("F", strict)] ([("F", strict)] ++ [("X", .number)]) (.call (.reference "F") [.reference "X"]) ∧
    LosesViolation [("F", bundle)] ([("F", bundle)] ++ [("G", strict)]) (.call (.reference "F") [.number]) ∧
    LosesViolation [("F", picked)] ([("F", picked)] ++ [("G", strict)]) (.call (.reference "F") [.number]) ∧
    LosesViolation [] ([] ++ [("G", strict)])
      (.call (.reference "F") [.object [("a", .call (.reference "G") [.number]), ("b", mismatched)]]) ∧
    LosesViolation [("A", keys)]
      ([("A", keys)] ++ [("X", .object [("a", .number)]), ("F", asked (noted (.text "a") "keys")), ("G", number)])
      (.call (.reference "F") [noted (.reference "A") "node"]) ∧
    LosesViolation [("A", .number)]
      ([("A", .number)] ++ [("X", captured), ("F", asked (calling .number captured)), ("G", number)])
      (.call (.reference "F") [calling (.reference "A") (.reference "X")]) := by
  refine ⟨?_, ?_, ?_, ?_, ?_, ?_⟩ <;>
    exact losesViolation_append (by decide +kernel) (by decide +kernel) (by decide +kernel) (by decide +kernel)
      (by decide +kernel)

/-- **Each kind of lack loses violations**, outside of bundles and where no check is skipped.  A generic without
constraints puts its argument aside and leaves a reference, a call or an operator that waits.  The richer context makes
each of these call the same generic again, by way of `K`.  Inside of the expansion that call is a repetition, so the
first member waits and the second violates its constraint; without the expansion around it the first member fails. -/
theorem violations_lost_in_expansions :
    let number : Node := .generic [.bounded "T" .number] (.reference "T")
    let again : Node := .call (.reference "K") [.boolean]
    let repeating : Node := .generic [.free "T"] (.object [("a", .call (.reference "F") [.number])])
    let members : Node := .object [
      ("first", .deferred .index [.deferred .index [again, .text "a"], .text "none"]),
      ("second", .call (.reference "G") [.deferred .keyOf [again]])]
    let leaving (waiting : Node) : Context := [("F", .generic [.free "T"] (.object [("value", waiting)]))]
    let loses (waiting : Node) (more : Context) : Prop :=
      instantiate {} (leaving waiting) (.call (.reference "F") [.number]) = .done (.object [("value", waiting)]) ∧
        LosesViolation (leaving waiting) (leaving waiting ++ (more ++ [("K", repeating), ("G", number)]))
          (.call (.reference "F") [.number])
    loses (.reference "X") [("X", members)] ∧
    loses (.call (.reference "H") [.boolean]) [("H", .generic [.free "T"] members)] ∧
    loses (.deferred .keyOf [.reference "X"]) [("X", members)] := by
  refine ⟨⟨by with_unfolding_all rfl, ?_⟩, ⟨by with_unfolding_all rfl, ?_⟩, ⟨by with_unfolding_all rfl, ?_⟩⟩ <;>
    exact losesViolation_append (by decide +kernel) (by decide +kernel) (by decide +kernel) (by decide +kernel)
      (by decide +kernel)

/-- **Each way of not being final loses violations**, outside of expansions: an operator fails before the call is made;
it leaves the name of a generic, whose expansion goes by that name only then; it drops the call; and it hands out a part
of a bundle, where the richer context has another definition of the same name. -/
theorem violations_lost_in_reductions :
    let strict : Node := .generic [.bounded "T" .string] (.object [("value", .reference "T")])
    let number : Node := .generic [.bounded "T" .number] (.reference "T")
    let asking : Node := .call (.reference "G") [.number]
    let mismatched : Node := .deferred .pick [.string, .text "k"]
    let named : Node := .deferred .index [.object [("a", .reference "F")], .text "a"]
    let repeating : Node := .generic [.free "T"]
      (.object [("value", .call (.reference "G") [.call (.reference "F") [.number]])])
    let bundle : Node := .cyclic [("A", .object [("next", .reference "A")])] "A"
    LosesViolation [] ([] ++ [("G", strict)]) (.object [("a", asking), ("b", mismatched)]) ∧
    LosesViolation [] ([] ++ [("F", repeating), ("G", number)]) (.call named [.number]) ∧
    LosesViolation [] ([] ++ [("G", strict)]) (.deferred .pick [.object [("a", .boolean), ("b", asking)], .text "a"]) ∧
    LosesViolation [] ([] ++ [("A", mismatched), ("G", strict)])
      (.object [("a", .deferred .interface [bundle]), ("b", asking)]) := by
  refine ⟨?_, ?_, ?_, ?_⟩ <;>
    exact losesViolation_append (by decide +kernel) (by decide +kernel) (by decide +kernel) (by decide +kernel)
      (by decide +kernel)

end Schemata
