import Schemata.Proofs.Instantiation.Expansion
import Schemata.Proofs.Instantiation.Retry
import Schemata.Proofs.Reference.Chase
/-!
# Runs that a richer context does not change

A run looks names up: where it comes to a reference, where it looks for the generic that a call names, and where it asks
whether the operands of an operator can be resolved.  As long as a richer context has no more to say to any of these, it
gives the same result (`Decided.run_keeps`).

- `Inside limits p q`: the run from `p` comes to `q`, or `q` is where it begins.
- `Lacks wider p`: the step at `p` looks for something that only the richer context knows.
- `Reduces p`: the step at `p` reduces an operator.
- `Settles limits wider p`: what is made at `p` is final, and the same in the richer context.
- `Decided limits wider p`: inside of `p` nothing is lacking, and what operators are reduced to is final.
-/
namespace Schemata

open Relation (ReflTransGen)

/-! ## Outcomes that are done -/

/-- **What the first outcome gives, the second gives too.** -/
def Outcome.Keeps {α : Type} (x y : Outcome α) : Prop := ∀ a, x = .done a → y = .done a

namespace Outcome

variable {α β : Type}

theorem Keeps.refl (x : Outcome α) : x.Keeps x := fun _ h => h

theorem Keeps.bind {x y : Outcome α} {f g : α → Outcome β} (hx : x.Keeps y)
    (hf : ∀ a, x = .done a → (f a).Keeps (g a)) :
    (x >>= f).Keeps (y >>= g) := by
  intro b hb
  obtain ⟨a, ha, hb⟩ := bind_eq_done.1 hb
  rw [hx a ha]
  exact hf a ha b hb

theorem Keeps.then {x y : Outcome α} (hx : x.Keeps y) (f : α → Outcome β) : (x >>= f).Keeps (y >>= f) :=
  hx.bind fun a _ => .refl (f a)

theorem keeps_mapM {f g : α → Outcome β} {xs : List α} (h : ∀ x ∈ xs, (f x).Keeps (g x)) :
    (xs.mapM f).Keeps (xs.mapM g) := by
  induction xs with
  | nil => exact .refl _
  | cons x xs ih =>
    rw [List.mapM_cons, List.mapM_cons]
    exact (h x List.mem_cons_self).bind fun _ _ => (ih fun y hy => h y (List.mem_cons_of_mem x hy)).then _

end Outcome

theorem keeps_traverse {f g : Node → Outcome Node} {kind : Kind Node} (h : ∀ c ∈ kind.parts, (f c).Keeps (g c)) :
    (kind.traverse f).Keeps (kind.traverse g) := by
  intro result hresult
  obtain ⟨after, hafter, rfl⟩ := Kind.traverse_eq_done_iff.1 hresult
  exact Kind.traverse_of_done fun c hc => h c hc _ (hafter c hc)

/-! ## Richer contexts -/

theorem Fields.without_without {α : Type} (fields : Fields α) (hidden more : List String) :
    Fields.without (Fields.without fields hidden) more = Fields.without fields (hidden ++ more) := by
  simp only [Fields.without, List.filter_filter]
  refine List.filter_congr fun e _ => ?_
  rw [Bool.eq_iff_iff]
  simp [and_comm]

section
variable {context wider : Context}

theorem Context.Within.without (h : context.Within wider) (hidden : List String) :
    Context.Within (Fields.without context hidden) (Fields.without wider hidden) := by
  intro name n hn
  rw [Fields.get?_without] at hn ⊢
  split
  · rwa [if_pos ‹_›] at hn
  · rw [if_neg ‹_›] at hn
    exact h name n hn

/-- Hiding less binds more. -/
theorem Context.within_of_hidden (context : Context) {hidden more : List String} (h : ∀ x ∈ hidden, x ∈ more) :
    Context.Within (Fields.without context more) (Fields.without context hidden) := by
  intro name n hn
  rw [Fields.get?_without] at hn ⊢
  split at hn
  · cases hn
  · rename_i hnot
    rwa [if_neg fun hname => hnot (h name hname)]

theorem Context.without_within (context : Context) (hidden : List String) :
    Context.Within (Fields.without context hidden) context := by
  intro name n hn
  rw [Fields.get?_without] at hn
  split at hn
  · cases hn
  · exact hn

theorem Context.Within.has (h : context.Within wider) {name : String} (hn : context.has name = true) :
    wider.has name = true := by
  obtain ⟨n, hn⟩ := Option.isSome_iff_exists.1 hn
  rw [Fields.has, h name n hn]
  rfl

theorem Context.Within.isCyclic_eq_false (h : context.Within wider) {name : String} (hc : isCyclic wider name = false) :
    isCyclic context name = false := by
  rw [isCyclic] at hc ⊢
  cases hn : context.get? name with
  | none => rfl
  | some n =>
    rw [h name n hn] at hc
    exact h.leadsBack_eq_false hc

/-- Hiding names closes no cycle. -/
theorem isCyclic_without (hacyclic : ∀ name, isCyclic context name = false) (hidden : List String) (name : String) :
    isCyclic (Fields.without context hidden) name = false :=
  (context.without_within hidden).isCyclic_eq_false (hacyclic name)

theorem Context.Within.resolvable (h : context.Within wider) (n : Node) (hn : resolvable context n = true) :
    resolvable wider n = true := by
  induction n using Node.induction_on_parts with
  | node n ih =>
    obtain ⟨kind, modifiers, annotations⟩ := n
    have hall : ∀ ns : List Node,
        (∀ c ∈ ns, Schemata.resolvable context c = true → Schemata.resolvable wider c = true) →
          resolvableAll context ns = true → resolvableAll wider ns = true := by
      intro ns
      induction ns with
      | nil => exact fun _ _ => rfl
      | cons n ns ihs =>
        intro hns hresolvable
        obtain ⟨hhead, htail⟩ := Bool.and_eq_true_iff.1 hresolvable
        refine Bool.and_eq_true_iff.2 ⟨hns n List.mem_cons_self hhead, ihs (fun c hc => ?_) htail⟩
        exact hns c (List.mem_cons_of_mem n hc)
    cases kind with
    | union variants => exact hall variants ih hn
    | intersect members => exact hall members ih hn
    | ref name => exact h.has hn
    | _ => rfl

/-- An operator that can be reduced can be reduced in a richer context. -/
theorem Context.Within.canReduce (h : context.Within wider) {operator : Operator} {operands : List Node}
    (hr : canReduce context operator operands = true) : canReduce wider operator operands = true := by
  rw [Schemata.canReduce] at hr ⊢
  generalize operator.guarded operands = ns at hr ⊢
  induction ns with
  | nil => rfl
  | cons n ns ih =>
    obtain ⟨hhead, htail⟩ := Bool.and_eq_true_iff.1 hr
    exact Bool.and_eq_true_iff.2 ⟨h.resolvable n hhead, ih htail⟩

end

/-! ## What is lacking -/

/-- What a richer context knows at a point; the parameters of the generics around stay hidden. -/
def Point.offered (p : Point) (wider : Context) : Context := Fields.without wider p.state.declared

/-- **The step at a point looks for something that only a richer context knows**: what a name is bound to, the generic
that is called, or an operand of an operator. -/
inductive Lacks (wider : Context) (p : Point) : Prop
  | reference {name : String} (kind : p.node.kind = .ref name) (unknown : p.context.has name = false)
    (known : Fields.has (p.offered wider) name = true)
  | callee {target body : Node} {arguments : List Node} {name found : String} {parameters : List (Parameter Node)}
    (kind : p.node.kind = .call target arguments) (refers : target.kind = .ref name)
    (unknown : ∀ found parameters body, chase p.context name ≠ .generic found parameters body)
    (known : chase (p.offered wider) name = .generic found parameters body)
  | operand {operator : Operator} {operands : List Node} {options : Annotations}
    (kind : p.node.kind = .deferred operator operands options) (unknown : canReduce p.context operator operands = false)
    (known : canReduce (p.offered wider) operator operands = true)

/-- **The step at a point reduces an operator.** -/
def Reduces (p : Point) : Prop :=
  ∃ operator operands options, p.node.kind = .deferred operator operands options ∧
    canReduce p.context operator operands = true

theorem canReduce_of_not_reduces {p : Point} (h : ¬ Reduces p) {operator : Operator} {operands : List Node}
    {options : Annotations} (hk : p.node.kind = .deferred operator operands options) :
    canReduce p.context operator operands = false :=
  Bool.eq_false_iff.2 fun hr => h ⟨operator, operands, options, hk, hr⟩

/-- An operator that cannot be reduced stays as it is. -/
theorem step_of_waits {limits : Limits} {evaluate : Evaluator} {context : Context} {s : State} {n : Node}
    {operator : Operator} {operands : List Node} {options : Annotations}
    (hk : n.kind = .deferred operator operands options) (h : canReduce context operator operands = false) : step limits evaluate context s n = .done n := by
  simp [step, hk, reduce, h]

/-- A form that waits for names. -/
def Kind.waits {α : Type} : Kind α → Bool
  | .ref _ | .call .. | .deferred .. => true
  | _ => false

/-- Whether an argument was found to violate its constraint. -/
def Outcome.violates {α : Type} : Outcome α → Bool
  | .failed (.constraintViolation ..) => true
  | _ => false

/-- **What is made at a point is final**: the run there finds a violation, is cut short, or is done with a form that does
not wait.  A richer context makes the same of the node, whichever names of it are hidden, and nothing else of that. -/
structure Settles (limits : Limits) (wider : Context) (p : Point) : Prop where
  ends : ∀ fuel, (∃ m, (run limits fuel).answer p = .done m) ∨ ((run limits fuel).answer p).cutShort = true ∨
    ((run limits fuel).answer p).violates = true
  formed : ∀ {fuel m}, (run limits fuel).answer p = .done m → m.kind.waits = false
  final : ∀ {fuel m hidden}, (run limits fuel).answer p = .done m → (∀ x ∈ p.state.declared, x ∈ hidden) →
    p.context.Within (Fields.without wider hidden) →
      run limits fuel (Fields.without wider hidden) p.state p.node = .done m ∧
        run limits fuel (Fields.without wider hidden) p.state m = .done m

/-- **The run from `p` comes to `q`**, or begins there. -/
def Inside (limits : Limits) : Point → Point → Prop := ReflTransGen (Invokes limits)

/-- **Nothing is lacking inside**, and what operators are reduced to is final. -/
structure Decided (limits : Limits) (wider : Context) (p : Point) : Prop where
  knows : ∀ q, Inside limits p q → ¬ Lacks wider q
  settles : ∀ q, Inside limits p q → Reduces q → Settles limits wider q

theorem Decided.invokes {limits : Limits} {wider : Context} {p q : Point} (h : Decided limits wider p)
    (hq : Invokes limits p q) : Decided limits wider q :=
  ⟨fun r hr => h.knows r (.head hq hr), fun r hr => h.settles r (.head hq hr)⟩

/-! ## Steps -/

/-- **An evaluator gives in a richer context what another one gives**, with the same names hidden in both. -/
def Evaluator.Agrees (context wider : Context) (evaluate other : Evaluator) : Prop :=
  ∀ hidden (s : State) n, (∀ x ∈ s.declared, x ∈ hidden) →
    (evaluate (Fields.without context hidden) s n).Keeps (other (Fields.without wider hidden) s n)

section
variable {limits : Limits} {context wider : Context} {evaluate other : Evaluator} {hidden : List String} {s : State}
  (h : evaluate.Agrees context wider other) (hdeclared : ∀ x ∈ s.declared, x ∈ hidden)
include h hdeclared

theorem bindParameters_keeps (bindings : Fields Node) (parameters : List (Parameter Node)) (arguments : List Node) :
    (bindParameters evaluate (Fields.without context hidden) s bindings parameters arguments).Keeps
      (bindParameters other (Fields.without wider hidden) s bindings parameters arguments) := by
  induction parameters generalizing bindings arguments with
  | nil => exact .refl _
  | cons p ps ih =>
    refine (h hidden s _ hdeclared).bind fun constraint _ => ?_
    have hcheck : ∀ candidate : Node,
        (if candidate.isConcrete && constraint.isConcrete && !candidate.fits constraint then
          .failed (.constraintViolation p.name constraint candidate)
        else bindParameters evaluate (Fields.without context hidden) s (bindings.insert p.name candidate) ps
          arguments.tail).Keeps
        (if candidate.isConcrete && constraint.isConcrete && !candidate.fits constraint then
          .failed (.constraintViolation p.name constraint candidate)
        else bindParameters other (Fields.without wider hidden) s (bindings.insert p.name candidate) ps
          arguments.tail) := by
      intro candidate
      split
      · exact .refl _
      · exact ih _ _
    cases arguments with
    | nil => exact (h hidden s _ hdeclared).bind fun candidate _ => hcheck candidate
    | cons argument arguments => exact hcheck argument

theorem expandGeneric_keeps (name : String) (parameters : List (Parameter Node)) (body : Node) (arguments : List Node) :
    (expandGeneric limits evaluate (Fields.without context hidden) s name parameters body arguments).Keeps
      (expandGeneric limits other (Fields.without wider hidden) s name parameters body arguments) := by
  simp only [expandGeneric]
  split
  · exact .refl _
  · refine Outcome.Keeps.bind ?_ fun expanded _ => h hidden s _ hdeclared
    simp only [expansion, Fields.without_without]
    refine (bindParameters_keeps h (fun x hx => List.mem_append_left _ (hdeclared x hx)) _ _ _).bind fun bindings _ => ?_
    refine (Outcome.Keeps.refl _).bind fun inner henter => ?_
    obtain ⟨frames, -, rfl⟩ := State.eq_of_enter henter
    exact h hidden _ _ hdeclared

variable {target : Node} (hchase : ∀ name, target.kind = .ref name → ∀ found parameters body,
  chase (Fields.without context hidden) name = .generic found parameters body ↔
    chase (Fields.without wider hidden) name = .generic found parameters body)
include hchase

theorem callee_keeps :
    (callee evaluate (Fields.without context hidden) s target).Keeps
      (callee other (Fields.without wider hidden) s target) := by
  simp only [callee]
  cases hk : target.kind with
  | generic parameters body => exact .refl _
  | ref name =>
    have hname := hchase name hk
    dsimp only
    cases hpoor : chase (Fields.without context hidden) name with
    | generic found parameters body =>
      rw [(hname found parameters body).1 hpoor]
      exact .refl _
    | _ =>
      cases hrich : chase (Fields.without wider hidden) name with
      | generic found parameters body =>
        rw [(hname found parameters body).2 hrich] at hpoor
        cases hpoor
      | _ => exact .refl _
  | _ => exact (h hidden s _ hdeclared).then _

theorem call_keeps (arguments : List Node) :
    (call limits evaluate (Fields.without context hidden) s target arguments).Keeps
      (call limits other (Fields.without wider hidden) s target arguments) := by
  refine (Outcome.keeps_mapM fun c _ => h hidden s c hdeclared).bind fun arguments _ => ?_
  split
  · exact .refl _
  · refine (callee_keeps h hdeclared hchase).bind fun found _ => ?_
    cases found with
    | generic name parameters body => exact expandGeneric_keeps h hdeclared name parameters body arguments
    | other target => exact .refl _

end

/-- **A step that lacks nothing** and reduces no operator gives in a richer context what it gives. -/
theorem step_keeps {limits : Limits} {context wider : Context} (hwithin : context.Within wider)
    (hacyclic : ∀ name, isCyclic wider name = false) {evaluate other : Evaluator}
    (h : evaluate.Agrees context wider other) {hidden : List String} {s : State} {p : Point}
    (hcontext : p.context = Fields.without context hidden) (hdeclared : ∀ x ∈ s.declared, x ∈ hidden)
    (hstate : p.state.declared = s.declared) (hknows : ¬ Lacks wider p) (hwaits : ¬ Reduces p) :
    (step limits evaluate (Fields.without context hidden) s p.node).Keeps
      (step limits other (Fields.without wider hidden) s p.node) := by
  have hhidden := hwithin.without hidden
  have hoffered : Context.Within (Fields.without wider hidden) (p.offered wider) :=
    Context.within_of_hidden wider (by rwa [hstate])
  have hclear := isCyclic_without hacyclic hidden
  have hopen : ∀ name, isCyclic (p.offered wider) name = false := isCyclic_without hacyclic p.state.declared
  cases hk : p.node.kind with
  | ref name =>
    cases hn : Fields.get? (Fields.without context hidden) name with
    | none =>
      have hrich : Fields.get? (Fields.without wider hidden) name = none := by
        rw [← Option.not_isSome_iff_eq_none]
        exact fun hr => hknows (.reference hk (by rw [hcontext, Fields.has, hn]; rfl) (hoffered.has hr))
      rw [step_of_stays hk (.inl hn), step_of_stays hk (.inl hrich)]
      exact .refl _
    | some target =>
      have hback : leadsBack [name] (Fields.without wider hidden) target = false := by
        have := hclear name
        rwa [isCyclic, hhidden name target hn] at this
      rw [step_of_follows hk hn (hhidden.leadsBack_eq_false hback), step_of_follows hk (hhidden name target hn) hback]
      exact (h hidden s target hdeclared).then _
  | call target arguments =>
    simp only [step, hk]
    refine (call_keeps h hdeclared (fun name hname found parameters body => ?_) arguments).then _
    refine ⟨chase_mono hhidden hclear, fun hrich => ?_⟩
    by_contra hpoor
    refine hknows (.callee hk hname (fun found' parameters' body' hfound => ?_) (chase_mono hoffered hopen hrich))
    rw [hcontext] at hfound
    rw [chase_mono hhidden hclear hfound] at hrich
    exact hpoor (hfound.trans hrich)
  | deferred operator operands options =>
    have hpoor := canReduce_of_not_reduces hwaits hk
    have hrich : canReduce (Fields.without wider hidden) operator operands = false :=
      Bool.eq_false_iff.2 fun hr => hknows (.operand hk hpoor (hoffered.canReduce hr))
    rw [hcontext] at hpoor
    rw [step_of_waits hk hpoor, step_of_waits hk hrich]
    exact .refl _
  | generic parameters body =>
    simp only [step, hk, Fields.without_without]
    refine (keeps_traverse fun c _ => h _ _ c fun x hx => ?_).then _
    exact (List.mem_append.1 hx).elim (fun hx => List.mem_append_left _ (hdeclared x hx)) (List.mem_append_right _)
  | cyclic definitions root =>
    rw [step_of_bundle hk, step_of_bundle hk]
    exact .refl _
  | _ =>
    simp only [step, hk]
    exact (keeps_traverse fun c _ => h hidden s c hdeclared).then _

/-! ## Runs -/

/-- **Where nothing is lacking, a richer context gives the same result**, by induction on the fuel. -/
theorem Decided.run_keeps {limits : Limits} {context wider : Context} (hwithin : context.Within wider)
    (hacyclic : ∀ name, isCyclic wider name = false) {fuel : Nat} {hidden : List String} {s : State} {n : Node}
    (h : Decided limits wider ⟨Fields.without context hidden, s, n⟩) (hdeclared : ∀ x ∈ s.declared, x ∈ hidden) :
    (run limits fuel (Fields.without context hidden) s n).Keeps (run limits fuel (Fields.without wider hidden) s n) := by
  induction fuel generalizing hidden s n with
  | zero => exact .refl _
  | succ fuel ih =>
    intro m hm
    let p : Point := ⟨Fields.without context hidden, s, n⟩
    by_cases hreduces : Reduces p
    · exact ((h.settles p .refl hreduces).final hm hdeclared (hwithin.without hidden)).1
    obtain ⟨t, evaluate, ht, hstep, -, hasked⟩ := exists_step_of_run (p := p) hm
    have hstate : t.declared = s.declared := by rw [(State.eq_of_descend ht).2]
    rw [run_of_descend ht]
    have hagrees : evaluate.Agrees context wider (run limits fuel) := by
      intro hidden' t' n' hdeclared' r hr
      obtain ⟨hinvokes, hrun⟩ := hasked _ _ _ _ hr
      exact ih (h.invokes hinvokes) hdeclared' r hrun
    exact step_keeps hwithin hacyclic hagrees rfl (by rwa [hstate]) hstate.symm (h.knows _ .refl) hreduces m hstep

end Schemata
