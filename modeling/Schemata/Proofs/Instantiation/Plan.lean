import Mathlib.Tactic.Choose
import Schemata.Instantiation.Run
/-!
# Plans

A step of instantiation asks an evaluator one question after the other, and each answer decides how it goes on.  A
`Plan` is such a dialogue: the next question, and what to do with every answer to it.

- `Planned allowed f` says that `f` keeps to one plan with every evaluator, and asks allowed questions only.
- `Asks f evaluate q` says that the outcome of `f` hangs on the answer to `q`.

What keeps to a plan has the outcome that its questions decide (`Planned.eq_of_asks`).
-/
namespace Schemata

/-- **A question for an evaluator**: a node, in a context and under a state. -/
structure Point where
  context : Context
  state : State
  node : Node

def Evaluator.answer (evaluate : Evaluator) (q : Point) : Outcome Node := evaluate q.context q.state q.node

/-- **A dialogue with an evaluator.**  An answer that is not done ends it. -/
inductive Plan (β : Type) where
  | stop (outcome : Outcome β)
  | ask (question : Point) (next : Node → Plan β)

namespace Plan

variable {α β : Type}

def follow (evaluate : Evaluator) : Plan β → Outcome β
  | stop outcome => outcome
  | ask q next => evaluate.answer q >>= fun n => (next n).follow evaluate

/-- The questions that a plan comes to with an evaluator, in order. -/
def questions (evaluate : Evaluator) : Plan β → List Point
  | stop _ => []
  | ask q next =>
    q :: (match evaluate.answer q with
      | .done n => (next n).questions evaluate
      | _ => [])

/-- Every question of a plan is allowed, whatever the answers. -/
def Keeps (allowed : Point → Prop) : Plan β → Prop
  | stop _ => True
  | ask q next => allowed q ∧ ∀ n, (next n).Keeps allowed

def bind (f : α → Plan β) : Plan α → Plan β
  | stop (.done a) => f a
  | stop (.failed e) => stop (.failed e)
  | stop .exhausted => stop .exhausted
  | ask q next => ask q fun n => (next n).bind f

theorem follow_bind (evaluate : Evaluator) (f : α → Plan β) (p : Plan α) :
    (p.bind f).follow evaluate = p.follow evaluate >>= fun a => (f a).follow evaluate := by
  induction p with
  | stop outcome => cases outcome <;> rfl
  | ask q next ih =>
    simp only [bind, follow, bind_assoc]
    exact congrArg (evaluate.answer q >>= ·) (funext ih)

theorem keeps_bind {allowed : Point → Prop} {f : α → Plan β} {p : Plan α} (hp : p.Keeps allowed)
    (hf : ∀ a, (f a).Keeps allowed) : (p.bind f).Keeps allowed := by
  induction p with
  | stop outcome =>
    cases outcome with
    | done a => exact hf a
    | failed e => trivial
    | exhausted => trivial
  | ask q next ih => exact ⟨hp.1, fun n => ih n (hp.2 n)⟩

theorem Keeps.imp {allowed wider : Point → Prop} (h : ∀ q, allowed q → wider q) {p : Plan β} (hp : p.Keeps allowed) :
    p.Keeps wider := by
  induction p with
  | stop outcome => trivial
  | ask q next ih => exact ⟨h q hp.1, fun n => ih n (hp.2 n)⟩

theorem follow_eq {evaluate other : Evaluator} {p : Plan β}
    (h : ∀ q ∈ p.questions evaluate, other.answer q = evaluate.answer q) : p.follow other = p.follow evaluate := by
  induction p with
  | stop outcome => rfl
  | ask q next ih =>
    have hq : other.answer q = evaluate.answer q := h q (by simp [questions])
    simp only [follow, hq]
    cases ha : evaluate.answer q with
    | done n => exact ih n fun r hr => h r (by simp [questions, ha, hr])
    | failed e => rfl
    | exhausted => rfl

/-- A question that a plan comes to, answered by an error, makes the error the outcome. -/
theorem follow_eq_failed {evaluate other : Evaluator} {e : InstantiationError} {q : Point} {p : Plan β}
    (hq : q ∈ p.questions evaluate) (he : other.answer q = .failed e)
    (ho : ∀ r, r ≠ q → other.answer r = evaluate.answer r) : p.follow other = .failed e := by
  induction p with
  | stop outcome => simp [questions] at hq
  | ask r next ih =>
    by_cases hr : r = q
    · subst hr
      simp [follow, he]
    · simp only [questions, List.mem_cons, Ne.symm hr, false_or] at hq
      rw [follow, ho r hr]
      cases ha : evaluate.answer r with
      | done n => exact ih n (by simpa [ha] using hq)
      | failed e => simp [ha] at hq
      | exhausted => simp [ha] at hq

/-- An evaluator that gives every result of another takes a plan at least as far. -/
theorem mem_questions_of_done {evaluate other : Evaluator}
    (ho : ∀ q n, evaluate.answer q = .done n → other.answer q = .done n) {q : Point} (p : Plan β)
    (hq : q ∈ p.questions evaluate) : q ∈ p.questions other := by
  induction p with
  | stop outcome => exact hq
  | ask r next ih =>
    rw [questions, List.mem_cons] at hq ⊢
    refine hq.imp id fun hq => ?_
    cases ha : evaluate.answer r with
    | done n =>
      rw [ho r n ha]
      exact ih n (by simpa [ha] using hq)
    | failed e => simp [ha] at hq
    | exhausted => simp [ha] at hq

/-- What comes after a plan is asked when the plan is done. -/
theorem mem_questions_bind {evaluate : Evaluator} {f : α → Plan β} {p : Plan α} {q : Point} :
    q ∈ (p.bind f).questions evaluate ↔
      q ∈ p.questions evaluate ∨ ∃ a, p.follow evaluate = .done a ∧ q ∈ (f a).questions evaluate := by
  induction p with
  | stop outcome => cases outcome <;> simp [bind, questions, follow]
  | ask r next ih =>
    rw [bind, questions, questions, follow, List.mem_cons, List.mem_cons, or_assoc]
    refine or_congr Iff.rfl ?_
    cases evaluate.answer r with
    | done n => exact ih n
    | failed e => simp
    | exhausted => simp

theorem Keeps.allowed_of_mem {allowed : Point → Prop} {evaluate : Evaluator} {q : Point} {p : Plan β}
    (hp : p.Keeps allowed) (hq : q ∈ p.questions evaluate) : allowed q := by
  induction p with
  | stop outcome => simp [questions] at hq
  | ask r next ih =>
    rw [questions, List.mem_cons] at hq
    rcases hq with rfl | hq
    · exact hp.1
    · cases ha : evaluate.answer r with
      | done n => exact ih n (hp.2 n) (by simpa [ha] using hq)
      | failed e => simp [ha] at hq
      | exhausted => simp [ha] at hq

end Plan

/-! ## Functions that keep to a plan -/

/-- **The outcome hangs on the answer to `q`**: an evaluator that differs there only makes another one. -/
def Asks {β : Type} (f : Evaluator → Outcome β) (evaluate : Evaluator) (q : Point) : Prop :=
  ∃ other : Evaluator, (∀ r, r ≠ q → other.answer r = evaluate.answer r) ∧ f other ≠ f evaluate

/-- **`f` keeps to one plan** with every evaluator, and asks allowed questions only. -/
def Planned {β : Type} (allowed : Point → Prop) (f : Evaluator → Outcome β) : Prop :=
  ∃ plan : Plan β, plan.Keeps allowed ∧ ∀ evaluate, f evaluate = plan.follow evaluate

open Classical in
/-- An evaluator with another answer at one point. -/
noncomputable def Evaluator.answering (evaluate : Evaluator) (q : Point) (outcome : Outcome Node) : Evaluator :=
  fun context state n => if (⟨context, state, n⟩ : Point) = q then outcome else evaluate context state n

theorem Evaluator.answer_answering_self (evaluate : Evaluator) (q : Point) (outcome : Outcome Node) :
    (evaluate.answering q outcome).answer q = outcome := by
  simp [answer, answering]

theorem Evaluator.answer_answering_of_ne (evaluate : Evaluator) {q r : Point} (outcome : Outcome Node) (h : r ≠ q) :
    (evaluate.answering q outcome).answer r = evaluate.answer r := by
  have hr : (⟨r.context, r.state, r.node⟩ : Point) ≠ q := h
  simp [answer, answering, hr]

open Classical in
/-- An evaluator that answers some questions only. -/
noncomputable def Evaluator.within (evaluate : Evaluator) (asked : Point → Prop) : Evaluator :=
  fun context state n => if asked ⟨context, state, n⟩ then evaluate context state n else .exhausted

theorem Evaluator.answer_within_of {evaluate : Evaluator} {asked : Point → Prop} {q : Point} (h : asked q) :
    (evaluate.within asked).answer q = evaluate.answer q := if_pos h

theorem Evaluator.answer_within_of_not {evaluate : Evaluator} {asked : Point → Prop} {q : Point} (h : ¬ asked q) :
    (evaluate.within asked).answer q = .exhausted := if_neg h

/-- **What is asked is what the plan comes to.** -/
theorem Plan.asks_iff_mem {β : Type} {f : Evaluator → Outcome β} (plan : Plan β)
    (hf : ∀ evaluate, f evaluate = plan.follow evaluate) {evaluate : Evaluator} {q : Point} :
    Asks f evaluate q ↔ q ∈ plan.questions evaluate := by
  constructor
  · rintro ⟨other, ho, hne⟩
    by_contra hm
    rw [hf, hf] at hne
    exact hne (Plan.follow_eq fun r hr => ho r fun he => hm (he ▸ hr))
  · intro hq
    -- An error other than the outcome, put where the answer was, shows that the outcome hangs on it.
    obtain ⟨e, he⟩ : ∃ e, f evaluate ≠ .failed e := by
      by_cases h0 : f evaluate = .failed (.depthExceeded 0)
      · exact ⟨.depthExceeded 1, by rw [h0]; simp⟩
      · exact ⟨.depthExceeded 0, h0⟩
    refine ⟨evaluate.answering q (.failed e), fun r hr => evaluate.answer_answering_of_ne _ hr, ?_⟩
    rw [hf (evaluate.answering q (.failed e)), Plan.follow_eq_failed hq (evaluate.answer_answering_self q _)
      fun r hr => evaluate.answer_answering_of_ne _ hr]
    exact he.symm

/-- A question whose error becomes the outcome is asked. -/
theorem Asks.of_failed {β : Type} {f : Evaluator → Outcome β} {evaluate : Evaluator} {q : Point} {e : InstantiationError}
    (h : ∀ other : Evaluator, other.answer q = .failed e → f other = .failed e) (hf : f evaluate ≠ .failed e) :
    Asks f evaluate q := by
  refine ⟨evaluate.answering q (.failed e), fun r hr => evaluate.answer_answering_of_ne _ hr, ?_⟩
  rw [h _ (evaluate.answer_answering_self q _)]
  exact Ne.symm hf

namespace Planned

variable {α β : Type} {allowed : Point → Prop}

theorem imp {wider : Point → Prop} {f : Evaluator → Outcome β} (h : Planned allowed f)
    (hw : ∀ q, allowed q → wider q) : Planned wider f := by
  obtain ⟨plan, hk, hf⟩ := h
  exact ⟨plan, hk.imp hw, hf⟩

theorem allowed_of_asks {f : Evaluator → Outcome β} (h : Planned allowed f) {evaluate : Evaluator} {q : Point}
    (hq : Asks f evaluate q) : allowed q := by
  obtain ⟨plan, hk, hf⟩ := h
  exact hk.allowed_of_mem ((plan.asks_iff_mem hf).1 hq)

/-- **The questions asked decide the outcome.** -/
theorem eq_of_asks {f : Evaluator → Outcome β} (h : Planned allowed f) {evaluate other : Evaluator}
    (ho : ∀ q, Asks f evaluate q → other.answer q = evaluate.answer q) : f other = f evaluate := by
  obtain ⟨plan, -, hf⟩ := h
  rw [hf, hf]
  exact Plan.follow_eq fun q hq => ho q ((plan.asks_iff_mem hf).2 hq)

theorem within_asks {f : Evaluator → Outcome β} (h : Planned allowed f) (evaluate : Evaluator) :
    f (evaluate.within (Asks f evaluate)) = f evaluate :=
  h.eq_of_asks fun _ hq => Evaluator.answer_within_of hq

theorem exists_asks {f : Evaluator → Outcome β} (h : Planned allowed f) {evaluate other : Evaluator}
    (hne : f other ≠ f evaluate) : ∃ q, Asks f evaluate q ∧ other.answer q ≠ evaluate.answer q := by
  by_contra hnone
  refine hne (h.eq_of_asks fun q hq => ?_)
  by_contra hanswer
  exact hnone ⟨q, hq, hanswer⟩

/-- **A question that is answered by an error** makes the error the outcome. -/
theorem failed_of_asks {f : Evaluator → Outcome β} (h : Planned allowed f) {evaluate : Evaluator} {q : Point}
    (hq : Asks f evaluate q) {e : InstantiationError} (he : evaluate.answer q = .failed e) :
    f evaluate = .failed e := by
  obtain ⟨plan, -, hf⟩ := h
  rw [hf]
  exact Plan.follow_eq_failed ((plan.asks_iff_mem hf).1 hq) he fun _ _ => rfl

/-- An evaluator that gives every result of another is asked all that the other is asked. -/
theorem asks_of_asks {f : Evaluator → Outcome β} (h : Planned allowed f) {evaluate other : Evaluator}
    (ho : ∀ q n, evaluate.answer q = .done n → other.answer q = .done n) {q : Point} (hq : Asks f evaluate q) :
    Asks f other q := by
  obtain ⟨plan, -, hf⟩ := h
  exact (plan.asks_iff_mem hf).2 (plan.mem_questions_of_done ho ((plan.asks_iff_mem hf).1 hq))

/-! ### Building plans -/

theorem const (outcome : Outcome β) : Planned allowed fun _ => outcome := ⟨.stop outcome, trivial, fun _ => rfl⟩

theorem question {context : Context} {state : State} {n : Node} (h : allowed ⟨context, state, n⟩) :
    Planned allowed fun evaluate => evaluate context state n :=
  ⟨.ask ⟨context, state, n⟩ fun r => .stop (.done r), ⟨h, fun _ => trivial⟩, fun evaluate => by
    simp only [Plan.follow, Evaluator.answer]
    cases evaluate context state n <;> rfl⟩

theorem bind {f : Evaluator → Outcome α} {g : α → Evaluator → Outcome β} (hf : Planned allowed f)
    (hg : ∀ a, Planned allowed (g a)) : Planned allowed fun evaluate => f evaluate >>= fun a => g a evaluate := by
  obtain ⟨plan, hk, hf⟩ := hf
  choose next hn hg using hg
  refine ⟨plan.bind next, Plan.keeps_bind hk hn, fun evaluate => ?_⟩
  show (f evaluate >>= fun a => g a evaluate) = _
  rw [Plan.follow_bind, hf]
  exact congrArg (plan.follow evaluate >>= ·) (funext fun a => hg a evaluate)

theorem then_const {f : Evaluator → Outcome α} (hf : Planned allowed f) (g : α → Outcome β) :
    Planned allowed fun evaluate => f evaluate >>= g :=
  bind hf fun a => const (g a)

/-- **What is asked one after the other.** -/
theorem asks_bind_iff {wider : Point → Prop} {f : Evaluator → Outcome α} {g : α → Evaluator → Outcome β}
    (hf : Planned allowed f) (hg : ∀ a, Planned wider (g a)) {evaluate : Evaluator} {q : Point} :
    Asks (fun evaluate => f evaluate >>= fun a => g a evaluate) evaluate q ↔
      Asks f evaluate q ∨ ∃ a, f evaluate = .done a ∧ Asks (g a) evaluate q := by
  obtain ⟨plan, -, hf⟩ := hf
  choose next _ hg using hg
  have hbind : ∀ evaluate, (f evaluate >>= fun a => g a evaluate) = (plan.bind next).follow evaluate := fun evaluate => by
    rw [Plan.follow_bind, hf]
    exact congrArg (plan.follow evaluate >>= ·) (funext fun a => hg a evaluate)
  rw [(plan.bind next).asks_iff_mem hbind, Plan.mem_questions_bind, plan.asks_iff_mem hf, ← hf]
  exact or_congr Iff.rfl (exists_congr fun a => and_congr Iff.rfl ((next a).asks_iff_mem (hg a)).symm)

/-- What asks nothing adds no questions. -/
theorem asks_of_then_const {f : Evaluator → Outcome α} (hf : Planned allowed f) {g : α → Outcome β} {evaluate : Evaluator}
    {q : Point} (hq : Asks (fun evaluate => f evaluate >>= g) evaluate q) : Asks f evaluate q := by
  have hsilent : ∀ a, Planned (fun _ => False) fun _ => g a := fun a => const (g a)
  rcases (asks_bind_iff hf hsilent).1 hq with hq | ⟨a, -, hq⟩
  · exact hq
  · exact ((hsilent a).allowed_of_asks hq).elim

theorem mapM {f : α → Evaluator → Outcome β} {xs : List α} (h : ∀ x ∈ xs, Planned allowed (f x)) :
    Planned allowed fun evaluate => xs.mapM fun x => f x evaluate := by
  induction xs with
  | nil => exact const (.done [])
  | cons x xs ih =>
    simp only [List.mapM_cons]
    exact bind (h x (by simp)) fun y => then_const (ih fun x hx => h x (List.mem_cons_of_mem _ hx)) _

theorem fields {f : α → Evaluator → Outcome β} {xs : List (String × α)} (h : ∀ x ∈ xs.map Prod.snd, Planned allowed (f x)) :
    Planned allowed fun evaluate => xs.mapM fun e => do return (e.1, ← f e.2 evaluate) :=
  mapM fun e he => then_const (h e.2 (List.mem_map_of_mem he)) fun y => .done (e.1, y)

theorem parameter {f : Node → Evaluator → Outcome Node} {p : Parameter Node} (h : ∀ c ∈ p.parts, Planned allowed (f c)) :
    Planned allowed fun evaluate => do
      return (⟨p.name, ← f p.constraint evaluate, ← f p.default evaluate⟩ : Parameter Node) :=
  bind (h p.constraint (by simp [Parameter.parts])) fun x =>
    then_const (h p.default (by simp [Parameter.parts])) fun y => .done (Parameter.mk p.name x y)

theorem traverse {f : Node → Evaluator → Outcome Node} {kind : Kind Node} (h : ∀ c ∈ kind.parts, Planned allowed (f c)) :
    Planned allowed fun evaluate => kind.traverse fun c => f c evaluate := by
  cases kind with
  | primitive p => exact const _
  | literal l => exact const _
  | ref name => exact const _
  | array item => exact then_const (h item (by simp [Kind.parts])) _
  | tuple items rest => exact then_const (mapM h) _
  | object properties => exact then_const (fields h) _
  | union variants => exact then_const (mapM h) _
  | intersect members => exact then_const (mapM h) _
  | function parameters returns =>
    exact bind (mapM fun c hc => h c (by simp [Kind.parts, hc])) fun xs =>
      then_const (h returns (by simp [Kind.parts])) _
  | constructor parameters created =>
    exact bind (mapM fun c hc => h c (by simp [Kind.parts, hc])) fun xs =>
      then_const (h created (by simp [Kind.parts])) _
  | wrapper w item => exact then_const (h item (by simp [Kind.parts])) _
  | dictionary key value =>
    exact bind (h key (by simp [Kind.parts])) fun x => then_const (h value (by simp [Kind.parts])) _
  | parameter p =>
    exact bind (h p.constraint (by simp [Kind.parts, Parameter.parts])) fun x =>
      then_const (h p.default (by simp [Kind.parts, Parameter.parts])) _
  | generic parameters body =>
    refine bind (mapM fun p hp => parameter fun c hc => h c ?_) fun qs => then_const (h body (by simp [Kind.parts])) _
    exact List.mem_append_left _ (List.mem_flatMap.2 ⟨p, hp, hc⟩)
  | call target arguments =>
    exact bind (h target (by simp [Kind.parts])) fun x =>
      then_const (mapM fun c hc => h c (by simp [Kind.parts, hc])) _
  | deferred operator operands options => exact then_const (mapM h) _
  | cyclic definitions root => exact then_const (fields h) _
  | templatePattern fragments => exact then_const (mapM h) _

end Planned
end Schemata
