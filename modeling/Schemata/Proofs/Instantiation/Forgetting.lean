import Schemata.Proofs.Instantiation.Agreement
import Schemata.Proofs.Instantiation.Handover
/-!
# What a result remembers

A result remembers what was not known when it was made: a reference stays, a call of something unknown stays, and an
operator waits.  Some steps lose sight of it.

- `Forgets limits wider p`: the step at `p` makes something that a richer context comes too late for.
- `Remembers limits wider p`: no step inside of `p` does.
- `Rest limits wider p m`: how `m`, the result of a run from `p`, comes to be a reference, a call or an operator.

Main statement: `run_rest`, every result of a run that remembers has rests of this kind only.
-/
namespace Schemata

open Relation (ReflTransGen)

variable {limits : Limits} {context wider : Context}

/-! ## What is forgotten -/

/-- **What the result of a step no longer remembers**, so that a richer context comes too late for it. -/
inductive Forgets (limits : Limits) (wider : Context) (p : Point) : Prop
  /-- A call is expanded although something that comes up inside is only known in the richer context. -/
  | expansion {c : GenericCall} {q r : Point} (expands : Expands limits p c q) (inside : Inside limits p r)
    (lacks : Lacks wider r)
  /-- An operator is reduced, but not to something final: it fails, drops what the richer context would have kept, or hands
  out parts of a bundle as they are. -/
  | reduction (reduces : Reduces p) (unsettled : ¬ Settles limits wider p)
  /-- An operator that waits inherits annotations, and will write its options over them. -/
  | options {name : String} {r : Point} {operator : Operator} {operands : List Node} {options : Annotations}
    (kind : p.node.kind = .ref name) (annotated : p.node.annotations ≠ []) (inside : Inside limits p r)
    (deferred : r.node.kind = .deferred operator operands options) (optional : options ≠ []) (lacks : Lacks wider r)
  /-- The target of a call is instantiated that should have stayed: with what only the richer context knows, an argument
  depends on a parameter of a generic around. -/
  | capture {target : Node} {operands arguments captured : List Node} {s : State} {fuel : Nat}
    (kind : p.node.kind = .call target operands) (computed : ∀ name, target.kind ≠ .ref name)
    (descend : p.state.descend limits = .done s)
    (supplied : operands.mapM (run limits fuel p.context s) = .done arguments)
    (closed : arguments.any s.dependsOnDeclared = false)
    (retried : operands.mapM (run limits fuel (p.offered wider) s) = .done captured)
    (depends : captured.any s.dependsOnDeclared = true)

/-- **Nothing is forgotten** in the run from a point. -/
def Remembers (limits : Limits) (wider : Context) (p : Point) : Prop :=
  ∀ q, Inside limits p q → ¬ Forgets limits wider q

theorem Remembers.invokes {p q : Point} (h : Remembers limits wider p) (hq : Invokes limits p q) :
    Remembers limits wider q :=
  fun r hr => h r (.head hq hr)

theorem Remembers.settles {p q : Point} (h : Remembers limits wider p) (hq : Inside limits p q) (hr : Reduces q) :
    Settles limits wider q := by
  by_contra hunsettled
  exact h q hq (.reduction hr hunsettled)

/-- Inside of a call that is expanded nothing is lacking. -/
theorem Remembers.decided {p q : Point} {c : GenericCall} (h : Remembers limits wider p) (he : Expands limits p c q) :
    Decided limits wider p :=
  ⟨fun _ hr hl => h p .refl (.expansion he hr hl), fun _ hq => h.settles hq⟩

/-- Only forms that wait for names forget. -/
theorem Forgets.waits {p : Point} (h : Forgets limits wider p) : p.node.kind.waits = true := by
  cases h with
  | expansion expands =>
    obtain ⟨target, operands, hkind⟩ := expands.kind
    rw [hkind]
    rfl
  | reduction reduces =>
    obtain ⟨operator, operands, options, hkind, -⟩ := reduces
    rw [hkind]
    rfl
  | options kind =>
    rw [kind]
    rfl
  | capture kind =>
    rw [kind]
    rfl

/-- A reference without annotations of its own forgets nothing. -/
theorem not_forgets_of_reference {p : Point} {name : String} (hk : p.node.kind = .ref name)
    (hplain : p.node.annotations = []) : ¬ Forgets limits wider p := by
  intro h
  cases h with
  | expansion expands => simpa [hk] using expands.kind
  | reduction reduces => simp [Reduces, hk] at reduces
  | options kind annotated => exact annotated hplain
  | capture kind => simp [hk] at kind

/-- An operator forgets nothing when what it is reduced to is final. -/
theorem not_forgets_of_operator {p : Point} {operator : Operator} {operands : List Node} {options : Annotations}
    (hk : p.node.kind = .deferred operator operands options) (hsettles : Settles limits wider p) :
    ¬ Forgets limits wider p := by
  intro h
  cases h with
  | expansion expands => simpa [hk] using expands.kind
  | reduction _ unsettled => exact unsettled hsettles
  | options kind => simp [hk] at kind
  | capture kind => simp [hk] at kind

/-! ## Calls outside of expansions -/

/-- What an instantiated target is called as. -/
def Callee.ofNode (n : Node) : Callee :=
  match n.kind with
  | .generic parameters body => .generic anonymous parameters body
  | _ => .other n

theorem Callee.ofNode_eq_other {n other : Node} (h : Callee.ofNode n = .other other) :
    n = other ∧ ∀ parameters body, other.kind ≠ .generic parameters body := by
  unfold Callee.ofNode at h
  split at h
  · cases h
  · rename_i hgeneric
    cases h
    exact ⟨rfl, hgeneric⟩

section
variable {evaluate : Evaluator} {s : State} {target : Node}

theorem callee_of_computed (hname : ∀ name, target.kind ≠ .ref name)
    (hgeneric : ∀ parameters body, target.kind ≠ .generic parameters body) :
    callee evaluate context s target = evaluate context s target >>= fun n => .done (Callee.ofNode n) := by
  have hmatch : ∀ n : Node, (match n.kind with
      | .generic parameters body => (pure (.generic anonymous parameters body) : Outcome Callee)
      | _ => pure (.other n)) = .done (Callee.ofNode n) := by
    intro n
    unfold Callee.ofNode
    cases n.kind <;> rfl
  simp only [callee]
  cases hk : target.kind with
  | ref name => exact absurd hk (hname name)
  | generic parameters body => exact absurd hk (hgeneric parameters body)
  | _ => exact congrArg _ (funext hmatch)

/-- **A call outside of expansions stays or is expanded.**  It stays with its target when an argument depends on a
parameter of a generic around, and with the instantiated target when that is no generic. -/
theorem call_cases {fuel : Nat} {p : Point} {operands : List Node} {r : Node} (hd : p.state.descend limits = .done s)
    (hk : p.node.kind = .call target operands) (hframes : s.frames = [])
    (hlifts : ∀ q, (evaluate.answer q).LiftsTo ((run limits fuel).answer q))
    (h : call limits evaluate p.context s target operands = .done r) :
    (∃ arguments, operands.mapM (evaluate p.context s) = .done arguments ∧
      (r = .call target arguments ∧ arguments.any s.dependsOnDeclared = true ∨
        ∃ resolved, r = .call resolved arguments ∧ arguments.any s.dependsOnDeclared = false ∧
          callee evaluate p.context s target = .done (.other resolved))) ∨
    ∃ c q expanded, Expands limits p c q ∧ evaluate p.context s (packaged c.key expanded) = .done r := by
  obtain ⟨arguments, harguments, h⟩ := Outcome.bind_eq_done.1 h
  cases hopen : arguments.any s.dependsOnDeclared with
  | true =>
    rw [if_pos hopen] at h
    cases h
    exact .inl ⟨arguments, harguments, .inl ⟨rfl, hopen⟩⟩
  | false =>
    rw [if_neg (by simp [hopen])] at h
    obtain ⟨found, hfound, h⟩ := Outcome.bind_eq_done.1 h
    cases found with
    | other resolved =>
      cases h
      exact .inl ⟨arguments, harguments, .inr ⟨resolved, rfl, hopen, hfound⟩⟩
    | generic name parameters body =>
      have hnew : s.isExpanding name arguments = false := by simp [State.isExpanding, hframes]
      simp only [expandGeneric, hnew, Bool.and_false, Bool.false_eq_true, if_false] at h
      obtain ⟨expanded, hexpanded, h⟩ := Outcome.bind_eq_done.1 h
      obtain ⟨bindings, hbindings, hbody⟩ := Outcome.bind_eq_done.1 hexpanded
      obtain ⟨inner, henter, -⟩ := Outcome.bind_eq_done.1 hbody
      -- The run itself comes to what the evaluator that is asked gave.
      have hsupply : Planned (fun _ => True) fun evaluate : Evaluator => operands.mapM (evaluate p.context s) :=
        Planned.mapM fun _ _ => Planned.question trivial
      have hcallee : Planned (fun _ => True) fun evaluate => callee evaluate p.context s target :=
        planned_callee (fun _ _ => trivial) target
      have hbind : Planned (fun _ => True) fun evaluate =>
          bindParameters evaluate (Fields.without p.context (parameters.map (·.name))) s [] parameters arguments :=
        planned_bindParameters (fun _ _ => trivial) _ _ _ _
      have hcalls : Calls limits (run limits fuel) p s ⟨name, parameters, body, arguments⟩ :=
        ⟨hd, target, operands, hk, (hsupply.liftsTo hlifts).done harguments, (hcallee.liftsTo hlifts).done hfound⟩
      exact .inr ⟨_, _, expanded, .body hcalls hopen (.inr hnew) ((hbind.liftsTo hlifts).done hbindings) henter, h⟩

end

/-! ## What is left in a result -/

/-- **A reference or an operator is left as it is** at a point `q` that the run from `p` comes to. -/
structure LeftAt (limits : Limits) (p : Point) (m : Node) (q : Point) : Prop where
  inside : Inside limits p q
  kind : q.node.kind = m.kind
  uncalled : ∀ target arguments, m.kind ≠ .call target arguments
  context : q.context = p.context
  declared : q.state.declared = p.state.declared
  waits : ¬ Reduces q
  unbound : ∀ name, m.kind = .ref name → p.context.has name = false

/-- **Where the form of a result comes from**, outside of expansions.  Annotations are in order where several nodes have
handed theirs on, or nothing is lacking. -/
inductive Rest (limits : Limits) (wider : Context) (p : Point) (m : Node) : Prop
  | left {q : Point} (left : LeftAt limits p m q)
    (order : m = p.node ∨ (∃ name, p.node.kind = .ref name) ∧ m.annotations.Sorted ∨ ¬ Lacks wider q)
  | call {target : Node} {arguments : List Node} (kind : m.kind = .call target arguments) (sorted : m.annotations.Sorted)
  | settled (kind : m.kind.waits = false)

/-- What a reference is followed to hands its rest on. -/
theorem Rest.of_reference {p : Point} {s : State} {target r : Node} {name : String} (hk : p.node.kind = .ref name)
    (hs : s.declared = p.state.declared) (hq : Invokes limits p ⟨p.context, s, target⟩)
    (htarget : target.annotations.Sorted) (h : Rest limits wider ⟨p.context, s, target⟩ r) :
    Rest limits wider p (r.inherit p.node) := by
  cases h with
  | @left q hleft order =>
    have handed : r.annotations.Sorted → (r.inherit p.node).annotations.Sorted :=
      fun hr => Annotations.sorted_override hr _
    refine .left (q := q) { hleft with inside := .head hq hleft.inside, declared := hleft.declared.trans hs } (.inr ?_)
    rcases order with rfl | ⟨-, hsorted⟩ | hknown
    · exact .inl ⟨⟨name, hk⟩, handed htarget⟩
    · exact .inl ⟨⟨name, hk⟩, handed hsorted⟩
    · exact .inr hknown
  | call hkind hsorted => exact .call hkind (Annotations.sorted_override hsorted _)
  | settled hkind => exact .settled hkind

/-- What a call is expanded to has rests that lack nothing. -/
theorem Rest.of_expansion {p : Point} {s : State} {n r : Node} (hdecided : Decided limits wider p)
    (hs : s.declared = p.state.declared) (hq : Invokes limits p ⟨p.context, s, n⟩)
    (h : Rest limits wider ⟨p.context, s, n⟩ r) : Rest limits wider p (r.inherit p.node) := by
  cases h with
  | @left q hleft order =>
    have hinside : Inside limits p q := .head hq hleft.inside
    exact .left (q := q) { hleft with inside := hinside, declared := hleft.declared.trans hs }
      (.inr (.inr (hdecided.knows q hinside)))
  | call hkind hsorted => exact .call hkind (Annotations.sorted_override hsorted _)
  | settled hkind => exact .settled hkind

/-- **A result of a run that remembers** is a reference or an operator only where the run left one, by induction on the
fuel. -/
theorem run_rest (hwithin : context.Within wider) (hacyclic : ∀ name, isCyclic wider name = false)
    (hordered : wider.Ordered) {fuel : Nat} {s : State} {n m : Node} (hframes : s.frames = [])
    (h : Remembers limits wider ⟨Fields.without context s.declared, s, n⟩)
    (hdone : run limits fuel (Fields.without context s.declared) s n = .done m) :
    Rest limits wider ⟨Fields.without context s.declared, s, n⟩ m := by
  induction fuel generalizing s n m with
  | zero => cases hdone
  | succ fuel ih =>
    let p : Point := ⟨Fields.without context s.declared, s, n⟩
    obtain ⟨t, evaluate, ht, hstep, hlifts, hasked⟩ := exists_step_of_run (p := p) hdone
    obtain ⟨-, rfl⟩ := State.eq_of_descend ht
    let t : State := { s with depth := s.depth + 1 }
    cases hk : n.kind with
    | ref name =>
      cases hn : Fields.get? (Fields.without context s.declared) name with
      | none =>
        rw [step_of_stays hk (.inl hn)] at hstep
        cases hstep
        have hwaits : ¬ Reduces p := by
          rintro ⟨operator, operands, options, hdeferred, -⟩
          rw [hk] at hdeferred
          cases hdeferred
        refine .left (q := p) ⟨.refl, rfl, by simp [hk], rfl, rfl, hwaits, fun other hother => ?_⟩ (.inl rfl)
        obtain rfl : name = other := Kind.ref.inj (hk.symm.trans hother)
        simp [Fields.has, hn]
      | some target =>
        have hbound : wider.get? name = some target := hwithin name target (context.without_within _ name target hn)
        have hback : leadsBack [name] (Fields.without context s.declared) target = false := by
          have hclear := (hwithin.without s.declared).isCyclic_eq_false (isCyclic_without hacyclic s.declared name)
          rwa [isCyclic, hn] at hclear
        rw [step_of_follows hk hn hback] at hstep
        obtain ⟨r, hr, hm⟩ := Outcome.bind_eq_done.1 hstep
        cases hm
        obtain ⟨hinvokes, hrun⟩ := hasked _ _ _ _ hr
        have htarget : target.annotations.Sorted := (Node.isOrdered_iff.1 (hordered name target hbound)).1
        exact .of_reference (p := p) (s := t) hk rfl hinvokes htarget (ih (s := t) hframes (h.invokes hinvokes) hrun)
    | call target operands =>
      rw [step_of_call hk] at hstep
      obtain ⟨r, hr, hm⟩ := Outcome.bind_eq_done.1 hstep
      cases hm
      rcases call_cases (p := p) ht hk hframes hlifts hr with
        ⟨arguments, -, ⟨rfl, -⟩ | ⟨resolved, rfl, -, -⟩⟩ | ⟨c, q, expanded, hexpands, hr⟩
      · exact .call rfl (Annotations.sorted_override Annotations.sorted_nil _)
      · exact .call rfl (Annotations.sorted_override Annotations.sorted_nil _)
      · obtain ⟨hinvokes, hrun⟩ := hasked _ _ _ _ hr
        have hrest := ih (s := t) hframes (h.invokes hinvokes) hrun
        exact .of_expansion (p := p) (s := t) (h.decided hexpands) rfl hinvokes hrest
    | deferred operator operands options =>
      by_cases hreduces : Reduces p
      · exact .settled ((h.settles .refl hreduces).formed hdone)
      rw [step_of_waits hk (canReduce_of_not_reduces hreduces hk)] at hstep
      cases hstep
      refine .left (q := p) ⟨.refl, rfl, by simp [hk], rfl, rfl, hreduces, fun other hother => ?_⟩ (.inl rfl)
      rw [hk] at hother
      cases hother
    | cyclic definitions root =>
      rw [step_of_bundle hk] at hstep
      cases hstep
      exact .settled (by rw [hk]; rfl)
    | _ =>
      simp only [step, show p.node.kind = _ from hk] at hstep
      obtain ⟨kind, hkind, hm⟩ := Outcome.bind_eq_done.1 hstep
      cases hm
      obtain ⟨after, -, rfl⟩ := Kind.traverse_eq_done_iff.1 hkind
      exact .settled rfl

theorem Rest.handsOn {p : Point} {m origin : Node} (h : Rest limits wider p m)
    (horder : (∀ q, Inside limits p q → ¬ Lacks wider q) ∨ p.node.annotations.Sorted ∧
      (origin.annotations = [] ∨ ∀ q operator operands options, Inside limits p q →
        q.node.kind = .deferred operator operands options → Lacks wider q → options = [])) :
    m.HandsOn (p.offered wider) origin := by
  cases h with
  | call hkind hsorted =>
    refine ⟨fun name hname => ?_, fun _ _ _ => hsorted, fun operator operands options hoperator => ?_⟩
    · rw [hkind] at hname
      cases hname
    · rw [hkind] at hoperator
      cases hoperator
  | settled hkind =>
    refine ⟨fun name hname => ?_, fun target arguments hcall => ?_, fun operator operands options hoperator => ?_⟩
    · rw [hname] at hkind
      cases hkind
    · rw [hcall] at hkind
      cases hkind
    · rw [hoperator] at hkind
      cases hkind
  | @left q hleft order =>
    have hoffered : q.offered wider = p.offered wider := by rw [Point.offered, hleft.declared]; rfl
    have hsorted : Lacks wider q → m.annotations.Sorted := by
      intro hl
      rcases horder with hknows | ⟨hp, -⟩
      · exact absurd hl (hknows q hleft.inside)
      · rcases order with rfl | ⟨-, hsorted⟩ | hknown
        · exact hp
        · exact hsorted
        · exact absurd hl hknown
    refine ⟨fun name hname => ?_, fun target arguments hcall => ?_, fun operator operands options hoperator => ?_⟩
    · by_cases hl : Lacks wider q
      · exact .inr (hsorted hl)
      · refine .inl (Bool.eq_false_iff.2 fun hknown => hl ?_)
        refine .reference (hleft.kind.trans hname) ?_ (hoffered ▸ hknown)
        rw [hleft.context]
        exact hleft.unbound name hname
    · exact absurd hcall (hleft.uncalled target arguments)
    · by_cases hl : Lacks wider q
      · refine .inr ?_
        rcases horder with hknows | ⟨-, hnone | hoptions⟩
        · exact absurd hl (hknows q hleft.inside)
        · exact .inl hnone
        · exact .inr ⟨hoptions q _ _ _ hleft.inside (hleft.kind.trans hoperator) hl, hsorted hl⟩
      · refine .inl (Bool.eq_false_iff.2 fun hknown => hl ?_)
        have hwaits := canReduce_of_not_reduces hleft.waits (hleft.kind.trans hoperator)
        exact .operand (hleft.kind.trans hoperator) hwaits (hoffered ▸ hknown)

/-- A reference that anything but a reference became is not known in the richer context either. -/
theorem Rest.unbound {p : Point} {m : Node} (h : Rest limits wider p m) (hp : ∀ name, p.node.kind ≠ .ref name)
    (name : String) (hk : m.kind = .ref name) : Fields.get? (p.offered wider) name = none := by
  cases h with
  | call hkind _ =>
    rw [hk] at hkind
    cases hkind
  | settled hkind =>
    rw [hk] at hkind
    cases hkind
  | @left q hleft order =>
    have hoffered : q.offered wider = p.offered wider := by rw [Point.offered, hleft.declared]; rfl
    rcases order with rfl | ⟨⟨other, hother⟩, -⟩ | hknown
    · exact absurd hk (hp name)
    · exact absurd hother (hp other)
    · rw [← Option.not_isSome_iff_eq_none]
      refine fun hbound => hknown (.reference (hleft.kind.trans hk) ?_ (hoffered ▸ hbound))
      rw [hleft.context]
      exact hleft.unbound name hk

end Schemata
