import Mathlib.Data.Nat.Init
import Schemata.Proofs.Instantiation.Causes
import Schemata.Proofs.Instantiation.Expansion
/-!
# Calls that repeat an expansion in progress

Inside the body of a call its frame is on the call stack, and a call that repeats it refers back to it.  The frame is
lost in one way: a call of the same generic with other arguments that comes directly in the body takes its place.

- `Overwrites limits c q r`: between the body of `c` at `q` and the point `r`, such a tail call was expanded.
- `Revisits limits query count between`: no tail call of a run overwrites another call, more than `count` calls are not
  made without a repetition, and more than `between` steps not without a call.

Main statement: `repeated_call_refers_back`.
-/
namespace Schemata

open Planned

variable {limits : Limits} {query : Query} {p q r : Point} {c : GenericCall}

/-! ## References back -/

/-- **A call that repeats one on the call stack becomes a reference back.** -/
theorem Calls.refers_back {fuel : Nat} {s : State} (h : Calls limits (run limits fuel) p s c)
    (hclosed : c.arguments.any s.dependsOnDeclared = false) (hnamed : c.name ≠ anonymous)
    (hrepeats : s.isExpanding c.name c.arguments = true) :
    (run limits (fuel + 1)).answer p = .done ((Node.reference c.key).inherit p.node) := by
  obtain ⟨target, operands, hkind, harguments, hcallee⟩ := h.site
  rw [run_succ, stepAt_of_descend h.descend, step, hkind]
  simp only [call, harguments, hclosed, hcallee, Outcome.done_bind, expandGeneric, hrepeats, Bool.and_true, bne_iff_ne,
    ne_eq, hnamed, not_false_eq_true, if_true, Bool.false_eq_true, if_false]
  rfl

theorem State.frames_of_enter {s inner : State} {c : GenericCall} (h : s.enter limits c.name c.arguments = .done inner) :
    s.peek = some c.name ∧ inner.frames = c.frame :: s.frames.tail ∨
      s.peek ≠ some c.name ∧ inner.frames = c.frame :: s.frames := by
  unfold enter at h
  by_cases htop : s.peek = some c.name
  · rw [htop, if_pos (by simp)] at h
    cases h
    exact .inl ⟨htop, rfl⟩
  · rw [if_neg (by simpa using htop)] at h
    unfold push at h
    dsimp only at h
    split at h
    · cases h
    · cases h
      exact .inr ⟨htop, rfl⟩

/-- **What an expansion does to the call stack.** -/
theorem Expands.frames (h : Expands limits p c q) :
    (c.name = anonymous ∨ ∀ older ∈ p.state.frames, older.repeats c.frame = false) ∧
      (p.state.peek = some c.name ∧ q.state.frames = c.frame :: p.state.frames.tail ∨
        p.state.peek ≠ some c.name ∧ q.state.frames = c.frame :: p.state.frames) := by
  cases h with
  | @body fuel s inner bindings calls closed new binds enter =>
    obtain ⟨-, rfl⟩ := State.eq_of_descend calls.descend
    have hframes := State.frames_of_enter enter
    refine ⟨new.imp_right fun hnew => ?_, hframes⟩
    rw [State.isExpanding_eq, List.any_eq_false] at hnew
    exact fun older ho => Bool.eq_false_iff.2 (hnew older ho)

/-! ## Tail calls that overwrite -/

/-- **A tail call with other arguments takes the place of a call**: it is expanded directly in the body at `q`, and `r` is
inside of its own body. -/
inductive Overwrites (limits : Limits) (c : GenericCall) (q r : Point) : Prop
  | tail {i j : Nat} {p' q' : Point} {c' : GenericCall} (inside : Carries limits q i p')
    (top : p'.state.frames = q.state.frames) (expands : Expands limits p' c' q') (generic : c'.name = c.name)
    (other : c.frame.repeats c'.frame = false) (rest : Carries limits q' j r)

/-- **The frame of a call stays** below all that is inside of its body, unless a tail call overwrites it. -/
theorem Carries.frames_or_overwrites {j : Nat} (h : Carries limits q j r) (he : Expands limits p c q)
    (hnamed : c.name ≠ anonymous) :
    (∃ newer, r.state.frames = newer ++ q.state.frames) ∨ Overwrites limits c q r := by
  obtain ⟨older, htop⟩ : ∃ older, q.state.frames = c.frame :: older := by
    rcases he.frames.2 with ⟨-, hq⟩ | ⟨-, hq⟩ <;> exact ⟨_, hq⟩
  induction h with
  | refl => exact .inl ⟨[], rfl⟩
  | @invokes j x y hx hxy deeper ih =>
    rcases ih.symm with ⟨inside, top, expands, generic, other, rest⟩ | ⟨newer, hframes⟩
    · exact .inr (.tail inside top expands generic other (.invokes rest hxy deeper))
    rcases hxy.expands_or_frames with ⟨c', hc'⟩ | hfresh | hsame
    · rcases hc'.frames with ⟨hnew, ⟨hpeek, hy⟩ | ⟨-, hy⟩⟩
      · cases newer with
        | nil =>
          -- The innermost call is the one whose body this is.
          have hgeneric : c'.name = c.name := by
            rw [State.peek, hframes, htop] at hpeek
            exact (Option.some.inj hpeek).symm
          have hother := hnew.resolve_left (hgeneric ▸ hnamed) c.frame (by rw [hframes, htop]; exact List.mem_cons_self)
          exact .inr (.tail hx hframes hc' hgeneric hother .refl)
        | cons top newer =>
          rw [hframes] at hy
          exact .inl ⟨c'.frame :: newer, hy⟩
      · rw [hframes] at hy
        exact .inl ⟨c'.frame :: newer, hy⟩
    · rw [hfresh] at deeper
      cases deeper
    · exact .inl ⟨newer, hsame.trans hframes⟩

/-- **A call that repeats an expansion in progress refers back to it**, unless a tail call has overwritten it. -/
theorem refers_back_or_overwrites {c' : GenericCall} {j fuel : Nat} {s : State} (he : Expands limits p c q)
    (hnamed : c.name ≠ anonymous) (hinside : Carries limits q j r) (hcalls : Calls limits (run limits fuel) r s c')
    (hclosed : c'.arguments.any s.dependsOnDeclared = false) (hrepeats : c.frame.repeats c'.frame = true) :
    (run limits (fuel + 1)).answer r = .done ((Node.reference c'.key).inherit r.node) ∨ Overwrites limits c q r := by
  refine (hinside.frames_or_overwrites he hnamed).imp_left fun ⟨newer, hframes⟩ => ?_
  have hname : c.name = c'.name := by
    rw [Frame.repeats, Bool.and_eq_true] at hrepeats
    exact beq_iff_eq.1 hrepeats.1
  refine hcalls.refers_back hclosed (hname ▸ hnamed) ?_
  obtain ⟨-, rfl⟩ := State.eq_of_descend hcalls.descend
  rw [State.isExpanding_eq, List.any_eq_true]
  refine ⟨c.frame, ?_, hrepeats⟩
  show c.frame ∈ r.state.frames
  rw [hframes]
  rcases he.frames.2 with ⟨-, hq⟩ | ⟨-, hq⟩ <;>
    exact List.mem_append_right _ (hq ▸ List.mem_cons_self)

/-! ## Runs that make few calls -/

/-- The calls on the call stack that have a name. -/
def State.named (s : State) : List Frame := s.frames.filter fun frame => frame.name != anonymous

theorem State.named_of_unnamed {s t : State} {frame : Frame} (hunnamed : frame.name = anonymous)
    (h : s.peek ≠ some anonymous ∧ t.frames = frame :: s.frames ∨
      s.peek = some anonymous ∧ t.frames = frame :: s.frames.tail) : t.named = s.named := by
  rcases h with ⟨-, hpush⟩ | ⟨hpeek, htail⟩
  · rw [named, hpush, List.filter_cons_of_neg (by simp [hunnamed]), named]
  · obtain ⟨top, older, hstack, htop⟩ : ∃ top older, s.frames = top :: older ∧ top.name = anonymous := by
      rw [peek] at hpeek
      cases hstack : s.frames with
      | nil => simp [hstack] at hpeek
      | cons top older => exact ⟨top, older, rfl, by simpa [hstack] using hpeek⟩
    rw [named, htail, named, hstack, List.tail_cons, List.filter_cons_of_neg (by simp [hunnamed]),
      List.filter_cons_of_neg (by simp [htop])]

/-- **A named call that the run of a query expands.** -/
def Entered (limits : Limits) (query : Query) (frame : Frame) : Prop :=
  frame.name ≠ anonymous ∧ ∃ k p c q, Nested limits query k p ∧ Expands limits p c q ∧ c.frame = frame

/-- **A run that revisits a few calls**, and where nothing overwrites them or starts afresh. -/
structure Revisits (limits : Limits) (query : Query) (count between : Nat) : Prop where
  /-- No operator is reduced. -/
  waits : ∀ k p operator operands options, Nested limits query k p → p.node.kind = .deferred operator operands options →
    canReduce p.context operator operands = false
  /-- No call is expanded directly in the body of another call of the same generic. -/
  apart : ∀ k p c q, Nested limits query k p → Expands limits p c q → c.name ≠ anonymous → p.state.peek ≠ some c.name
  /-- Of more than `count` calls, the latest first, one repeats an earlier one. -/
  finite : ∀ frames : List Frame, (∀ frame ∈ frames, Entered limits query frame) →
    frames.Pairwise (fun newer older => older.repeats newer = false) → frames.length ≤ count
  /-- More than `between` nested steps do not go without a named call. -/
  between : ∀ k p j r, Nested limits query k p → Carries limits p j r →
    r.state.named.length = p.state.named.length → j ≤ between

theorem Invokes.canReduce {operator : Operator} {operands : List Node} {options : Annotations} (h : Invokes limits p q)
    (hkind : p.node.kind = .deferred operator operands options) : canReduce p.context operator operands = true := by
  obtain ⟨s, hd, -⟩ := h.heir
  obtain ⟨fuel, h⟩ := h
  by_contra hwaits
  have hstep : stepAt limits p = fun _ => .done p.node := by
    funext evaluate
    rw [stepAt_of_descend hd, step, hkind]
    simp [reduce, hwaits]
  rw [hstep] at h
  exact not_asks_const h

/-- **What is on the call stack of a run that revisits a few calls**: different calls, with unnamed ones between them. -/
structure Stacked (limits : Limits) (query : Query) (s : State) : Prop where
  entered : ∀ frame ∈ s.named, Entered limits query frame
  distinct : s.named.Pairwise fun newer older => older.repeats newer = false
  gaps : s.frames.length ≤ 2 * s.named.length + if s.peek = some anonymous then 1 else 0

namespace Revisits

variable {count between : Nat}

theorem deeper (h : Revisits limits query count between) {k : Nat} (hp : Nested limits query k p) (hpq : Invokes limits p q) :
    q.state.depth = p.state.depth + 1 := by
  rcases hpq.depth.2 with hdepth | ⟨-, operator, operands, options, hkind⟩
  · exact hdepth
  · exact absurd (hpq.canReduce hkind) (by simp [h.waits k p operator operands options hp hkind])

theorem depth_eq (h : Revisits limits query count between) {k : Nat} (hp : Nested limits query k p) :
    p.state.depth = k := by
  induction hp with
  | opens ho => rw [ho.state_eq]; rfl
  | invokes hp hpq ih => rw [h.deeper hp hpq, ih]

/-- One step either keeps the call stack or enters a call: a named one goes on top, an unnamed one may take the place of an
unnamed one. -/
theorem frames (h : Revisits limits query count between) {k : Nat} (hp : Nested limits query k p) (hpq : Invokes limits p q) :
    q.state.frames = p.state.frames ∨
      (∃ frame, Entered limits query frame ∧ (∀ older ∈ p.state.frames, older.repeats frame = false) ∧
        q.state.frames = frame :: p.state.frames) ∨
      ∃ frame : Frame, frame.name = anonymous ∧
        (p.state.peek ≠ some anonymous ∧ q.state.frames = frame :: p.state.frames ∨
          p.state.peek = some anonymous ∧ q.state.frames = frame :: p.state.frames.tail) := by
  rcases hpq.expands_or_frames with ⟨c, hc⟩ | hfresh | hsame
  · obtain ⟨hnew, hframes⟩ := hc.frames
    by_cases hnamed : c.name = anonymous
    · rw [hnamed] at hframes
      exact .inr (.inr ⟨c.frame, hnamed, hframes.symm⟩)
    · have hpush := hframes.resolve_left fun htail => h.apart k p c q hp hc hnamed htail.1
      exact .inr (.inl ⟨c.frame, ⟨hnamed, k, p, c, q, hp, hc, rfl⟩, hnew.resolve_left hnamed, hpush.2⟩)
  · have hdepth := h.deeper hp hpq
    rw [hfresh] at hdepth
    cases hdepth
  · exact .inl hsame

theorem stacked (h : Revisits limits query count between) {k : Nat} (hp : Nested limits query k p) :
    Stacked limits query p.state := by
  induction hp with
  | @opens p ho =>
    rw [ho.state_eq]
    exact ⟨fun _ hf => absurd hf List.not_mem_nil, List.Pairwise.nil, Nat.zero_le _⟩
  | @invokes k p q hp hpq ih =>
    obtain ⟨hentered, hdistinct, hgaps⟩ := ih
    rcases h.frames hp hpq with hsame | ⟨frame, hnew, hother, hpush⟩ | ⟨frame, hunnamed, hframes⟩
    · have hnamed : q.state.named = p.state.named := by rw [State.named, State.named, hsame]
      have hpeek : q.state.peek = p.state.peek := by rw [State.peek, State.peek, hsame]
      exact ⟨hnamed ▸ hentered, hnamed ▸ hdistinct, by rw [hsame, hnamed, hpeek]; exact hgaps⟩
    · have hnamed : q.state.named = frame :: p.state.named := by
        rw [State.named, hpush, List.filter_cons_of_pos (by simpa using hnew.1)]
        rfl
      refine ⟨?_, ?_, ?_⟩
      · rw [hnamed]
        exact fun f hf => (List.mem_cons.1 hf).elim (fun he => he ▸ hnew) (hentered f)
      · rw [hnamed]
        exact List.pairwise_cons.2 ⟨fun older ho => hother older (List.mem_filter.1 ho).1, hdistinct⟩
      · rw [hpush, hnamed, List.length_cons, List.length_cons]
        split at hgaps <;> omega
    · have hnamed := State.named_of_unnamed hunnamed hframes
      have hpeek : q.state.peek = some anonymous := by
        rcases hframes with ⟨-, hq⟩ | ⟨-, hq⟩ <;> rw [State.peek, hq, ← hunnamed] <;> rfl
      refine ⟨hnamed ▸ hentered, hnamed ▸ hdistinct, ?_⟩
      rw [hnamed, hpeek, if_pos rfl]
      rcases hframes with ⟨hother, hpush⟩ | ⟨hsame, htail⟩
      · rw [if_neg hother] at hgaps
        rw [hpush, List.length_cons]
        omega
      · rw [if_pos hsame] at hgaps
        rw [htail, List.length_cons, List.length_tail]
        omega

theorem named_length_le (h : Revisits limits query count between) {k : Nat} (hp : Nested limits query k p) :
    p.state.named.length ≤ count :=
  h.finite _ (h.stacked hp).entered (h.stacked hp).distinct

/-- **How deep a step is nested** goes by the named calls around it. -/
theorem nested_le (h : Revisits limits query count between) {k : Nat} (hp : Nested limits query k p) :
    ∃ i j start, i + j = k ∧ Nested limits query i start ∧ Carries limits start j p ∧
      p.state.named.length = start.state.named.length ∧ i ≤ start.state.named.length * (between + 1) := by
  induction hp with
  | @opens p ho => exact ⟨0, 0, p, rfl, .opens ho, .refl, rfl, Nat.zero_le _⟩
  | @invokes k p q hp hpq ih =>
    obtain ⟨i, j, start, hk, hstart, hcarries, hnamed, hi⟩ := ih
    have hnext : Nested limits query (k + 1) q := .invokes hp hpq
    by_cases hsame : q.state.named.length = p.state.named.length
    · exact ⟨i, j + 1, start, by omega, hstart, .invokes hcarries hpq (h.deeper hp hpq), hsame.trans hnamed, hi⟩
    · have hgrown : q.state.named.length = p.state.named.length + 1 := by
        rcases h.frames hp hpq with heq | ⟨frame, hnew, -, hpush⟩ | ⟨frame, hunnamed, hframes⟩
        · exact absurd (by rw [State.named, State.named, heq]) hsame
        · rw [State.named, hpush, List.filter_cons_of_pos (by simpa using hnew.1)]
          rfl
        · refine absurd ?_ hsame
          rw [State.named_of_unnamed hunnamed hframes]
      refine ⟨k + 1, 0, q, rfl, hnext, .refl, rfl, ?_⟩
      have hj := h.between i start j p hstart hcarries hnamed
      rw [hgrown, hnamed, Nat.add_mul, Nat.one_mul]
      omega

theorem nested_lt (h : Revisits limits query count between) (hdepth : (count + 1) * (between + 1) ≤ limits.maxDepth) {k : Nat}
    (hp : Nested limits query k p) : k < limits.maxDepth := by
  obtain ⟨i, j, start, hk, hstart, hcarries, hnamed, hi⟩ := h.nested_le hp
  have hj := h.between i start j p hstart hcarries hnamed
  have hcount : start.state.named.length * (between + 1) ≤ count * (between + 1) :=
    Nat.mul_le_mul_right _ (h.named_length_le hstart)
  rw [Nat.add_mul, Nat.one_mul] at hdepth
  omega

/-- **A run that revisits a few calls ends**, by induction on the fuel: no step of it comes to a limit. -/
theorem ends (h : Revisits limits query count between) (hdepth : (count + 1) * (between + 1) ≤ limits.maxDepth)
    (hcalls : 2 * count + 2 ≤ limits.maxCallDepth) {causes : Option InstantiationError → Prop}
    (hviolation : ∀ parameter constraint received, causes (some (.constraintViolation parameter constraint received)))
    {fuel k : Nat} (hp : Nested limits query k p) (hfuel : limits.maxDepth ≤ k + fuel) :
    ((run limits fuel).answer p).StopsBy causes := by
  induction fuel generalizing k p with
  | zero =>
    have := h.nested_lt hdepth hp
    omega
  | succ fuel ih =>
    have hlt : ¬ limits.maxDepth ≤ p.state.depth := by
      have := h.nested_lt hdepth hp
      rw [h.depth_eq hp]
      omega
    have hd : p.state.descend limits = .done { p.state with depth := p.state.depth + 1 } := by
      rw [State.descend, if_neg hlt]
    have hroom : p.state.frames.length < limits.maxCallDepth := by
      have hnamed := h.named_length_le hp
      have hgaps := (h.stacked hp).gaps
      split at hgaps <;> omega
    rw [run_succ]
    refine (planned_stepAt limits p).stopsBy_of_asks (fun evaluate hevaluate => ?_) fun q hq => ?_
    · rw [stepAt_of_descend hd]
      refine step_stopsBy hevaluate hviolation (fun target operands c _ _ => State.stopsBy_enter (.inr (by exact hroom)) _)
        fun operator operands options hkind => ?_
      rw [reduce, if_neg (by simp [h.waits k p operator operands options hp hkind])]
      trivial
    · exact ih (.invokes hp ⟨fuel, hq⟩) (by omega)

end Revisits

/-! ## The law -/

/-- **A call that repeats an expansion in progress refers back to it**: inside of the body of a named call, an equal call
becomes the reference, unless a tail call with other arguments has taken the place of the first one.  Where no tail call
does so, and no operator is reduced, a run that revisits finitely many calls is done or finds a violated constraint, as soon
as the limits leave room for these calls, and for the steps between them. -/
theorem repeated_call_refers_back (limits : Limits) :
    (∀ {p q r : Point} {c c' : GenericCall} {j fuel : Nat} {s : State}, c.name ≠ anonymous → Expands limits p c q →
      Carries limits q j r → Calls limits (run limits fuel) r s c' → c'.arguments.any s.dependsOnDeclared = false →
      c.frame.repeats c'.frame = true →
      (run limits (fuel + 1)).answer r = .done ((Node.reference c'.key).inherit r.node) ∨ Overwrites limits c q r) ∧
    (∀ {context : Context} {n : Node} {count between : Nat}, Revisits limits (.node context n) count between →
      (count + 1) * (between + 1) ≤ limits.maxDepth → 2 * count + 2 ≤ limits.maxCallDepth →
      (∃ m, instantiate limits context n = .done m) ∨
        ∃ parameter constraint received,
          instantiate limits context n = .failed (.constraintViolation parameter constraint received)) := by
  refine ⟨fun hnamed he hinside hcalls hclosed hrepeats =>
    refers_back_or_overwrites he hnamed hinside hcalls hclosed hrepeats, fun h hdepth hcalls => ?_⟩
  rename_i context n count between
  have hends : (instantiate limits context n).StopsBy fun cause =>
      ∃ parameter constraint received, cause = some (.constraintViolation parameter constraint received) :=
    h.ends hdepth hcalls (fun parameter constraint received => ⟨parameter, constraint, received, rfl⟩)
      (.opens (Query.opens_node limits context n)) (by unfold ampleFuel; omega)
  cases hrun : instantiate limits context n with
  | done m => exact .inl ⟨m, rfl⟩
  | failed e =>
    rw [hrun] at hends
    obtain ⟨parameter, constraint, received, he⟩ := hends
    exact .inr ⟨parameter, constraint, received, congrArg _ (Option.some.inj he)⟩
  | exhausted =>
    rw [hrun] at hends
    obtain ⟨_, _, _, he⟩ := hends
    cases he

/-! ### A generic that calls itself -/

namespace Chain

/-- A generic that calls itself. -/
def context : Context := [("F", .generic [] (.object [("next", .call (.reference "F") [])]))]

def node : Node := .call (.reference "F") []

def generic : GenericCall := ⟨"F", [], .object [("next", node)], []⟩

def start : Point := ⟨context, .initial, node⟩

def body : Point := ⟨context, { frames := [generic.frame], depth := 1 }, .object [("next", node)]⟩

def again : Point := ⟨context, { frames := [generic.frame], depth := 2 }, node⟩

theorem substitute_body (bindings : Fields Node) (h : bindings = []) :
    generic.body.substitute bindings = .object [("next", node)] := by
  subst h
  with_unfolding_all rfl

theorem calls_start : Calls {} (run {} 0) start { depth := 1 } generic :=
  ⟨rfl, .reference "F", [], rfl, rfl, by with_unfolding_all rfl⟩

theorem calls_again : Calls {} (run {} 0) again { frames := [generic.frame], depth := 3 } generic :=
  ⟨rfl, .reference "F", [], rfl, rfl, by with_unfolding_all rfl⟩

theorem expands : Expands {} start generic body := by
  have h : Expands {} start generic ⟨context, body.state, generic.body.substitute []⟩ :=
    .body calls_start rfl (.inr rfl) rfl (by with_unfolding_all rfl)
  rwa [substitute_body [] rfl] at h

theorem carries : Carries {} body 1 again := by
  refine .invokes .refl ⟨0, Asks.of_failed (e := .depthExceeded 0) (fun other h => ?_) ?_⟩ rfl
  · have hother : other context again.state node = .failed (.depthExceeded 0) := h
    show (do return Node.rebuild _ (← (Kind.object [("next", node)]).traverse (other context again.state))) = _
    simp [Kind.traverse, hother]
  · intro h
    have hopen : stepAt {} body (run {} 0) = .exhausted := by with_unfolding_all rfl
    rw [hopen] at h
    cases h

/-- What is called is known. -/
theorem eq_of_calls {fuel : Nat} {s : State} (hnode : p.node = node) (hcontext : p.context = context)
    (h : Calls {} (run {} fuel) p s c) : c = generic := by
  obtain ⟨target, operands, hkind, harguments, hcallee⟩ := h.site
  rw [hnode] at hkind
  cases hkind
  rw [hcontext] at hcallee
  obtain ⟨name, parameters, body, arguments⟩ := c
  cases harguments
  have hfound : callee (run {} fuel) context s (.reference "F") = .done (.generic "F" [] (.object [("next", node)])) := by
    with_unfolding_all rfl
  rw [hfound] at hcallee
  cases hcallee
  rfl

theorem eq_of_expands (h : Expands {} start c q) : c = generic ∧ q = body := by
  cases h with
  | @body fuel s inner bindings calls closed new binds enter =>
    obtain rfl := eq_of_calls rfl rfl calls
    obtain ⟨-, rfl⟩ := State.eq_of_descend calls.descend
    cases binds
    have hinner : ({ depth := 1 } : State).enter {} "F" [] = .done body.state := by with_unfolding_all rfl
    obtain rfl : body.state = inner := Outcome.done.inj (hinner.symm.trans enter)
    rw [substitute_body [] rfl]
    exact ⟨rfl, rfl⟩

theorem eq_of_expansion {fuel : Nat} {expanded : Node}
    (h : expansion {} (run {} fuel) context { depth := 1 } "F" [] generic.body [] = .done expanded) :
    expanded = .object [("next", .reference "F<>")] := by
  have hrun : (run {} fuel).answer body = .done expanded := by
    rw [← h, expansion]
    show _ = (Outcome.done [] >>= fun bindings => _)
    rw [Outcome.done_bind, substitute_body [] rfl]
    rfl
  have hknown : (run {} 2).answer body = .done (.object [("next", .reference "F<>")]) := by with_unfolding_all rfl
  have hleft := run_done_of_le {} (Nat.le_max_left fuel 2) body _ hrun
  have hright := run_done_of_le {} (Nat.le_max_right fuel 2) body _ hknown
  exact Outcome.done.inj (hleft.symm.trans hright)

/-- The step at a bundle comes to nothing. -/
def Closed (p : Point) : Prop := ∃ definitions root, p.node.kind = .cyclic definitions root

theorem invokes_start (h : Invokes {} start q) : q = body ∨ Closed q := by
  obtain ⟨fuel, s, hd, hasks⟩ := h.of_call rfl
  rcases hasks with harguments | hcallee | ⟨c, hcalls, -, hbinds | hbody | ⟨expanded, hexpansion, rfl⟩⟩
  · exact absurd harguments not_asks_const
  · exact absurd hcallee not_asks_const
  · obtain rfl := eq_of_calls rfl rfl hcalls
    exact absurd hbinds not_asks_const
  · exact .inl (eq_of_expands hbody).2
  · obtain rfl := eq_of_calls rfl rfl hcalls
    obtain ⟨-, rfl⟩ := State.eq_of_descend hd
    rw [eq_of_expansion hexpansion]
    exact .inr ⟨_, _, by with_unfolding_all rfl⟩

theorem invokes_body (h : Invokes {} body q) : q = again := by
  obtain ⟨fuel, h⟩ := h
  have hplanned : Planned (· = again) (stepAt {} body) := by
    have hparts : Planned (· = again) fun evaluate : Evaluator =>
        (Kind.object [("next", node)]).traverse (evaluate context again.state) :=
      traverse fun c hc => question (by rw [List.mem_singleton.1 hc]; rfl)
    exact then_const hparts _
  exact hplanned.allowed_of_asks h

theorem not_invokes_again : ¬ Invokes {} again q := by
  intro h
  obtain ⟨fuel, s, hd, hasks⟩ := h.of_call rfl
  rcases hasks with harguments | hcallee | ⟨c, hcalls, hnew, -⟩
  · exact not_asks_const harguments
  · exact not_asks_const hcallee
  · obtain rfl := eq_of_calls rfl rfl hcalls
    obtain ⟨-, rfl⟩ := State.eq_of_descend hd
    exact absurd hnew (by decide +kernel)

theorem not_invokes_closed (hp : Closed p) : ¬ Invokes limits p q := by
  rintro ⟨fuel, h⟩
  obtain ⟨definitions, root, hkind⟩ := hp
  have hstep : stepAt limits p = fun _ => p.state.descend limits >>= fun _ => .done p.node := by
    funext evaluate
    rw [stepAt]
    simp only [step, hkind]
    rfl
  rw [hstep] at h
  exact not_asks_const h

/-- All steps of the run. -/
theorem nested {k : Nat} (h : Nested {} (.node context node) k p) :
    k = 0 ∧ p = start ∨ k = 1 ∧ (p = body ∨ Closed p) ∨ k = 2 ∧ p = again := by
  induction h with
  | @opens p h =>
    obtain ⟨fuel, h⟩ := h
    have hq : Planned (fun _ => True) fun evaluate : Evaluator => evaluate context .initial node := question trivial
    exact .inl ⟨rfl, asks_question_iff.1 (asks_of_then_const hq h)⟩
  | @invokes k p q hp h ih =>
    rcases ih with ⟨rfl, rfl⟩ | ⟨rfl, rfl | hclosed⟩ | ⟨-, rfl⟩
    · exact .inr (.inl ⟨rfl, invokes_start h⟩)
    · exact .inr (.inr ⟨rfl, invokes_body h⟩)
    · exact absurd h (not_invokes_closed hclosed)
    · exact absurd h not_invokes_again

theorem nested_of_expands {k : Nat} (hp : Nested {} (.node context node) k p) (h : Expands {} p c q) :
    p = start ∧ c = generic := by
  rcases nested hp with ⟨-, rfl⟩ | ⟨-, rfl | hclosed⟩ | ⟨-, rfl⟩
  · exact ⟨rfl, (eq_of_expands h).1⟩
  · cases h with
    | body calls =>
      obtain ⟨target, operands, hkind, -⟩ := calls.site
      cases hkind
  · exact absurd h.invokes (not_invokes_closed hclosed)
  · exact absurd h.invokes not_invokes_again

theorem revisits : Revisits {} (.node context node) 1 2 where
  waits k p operator operands options hp hkind := by
    rcases nested hp with ⟨-, rfl⟩ | ⟨-, rfl | ⟨definitions, root, hclosed⟩⟩ | ⟨-, rfl⟩
    · cases hkind
    · cases hkind
    · rw [hclosed] at hkind
      cases hkind
    · cases hkind
  apart k p c q hp h _ := by
    obtain ⟨rfl, -⟩ := nested_of_expands hp h
    exact Option.some_ne_none _ ∘ Eq.symm
  finite frames hentered hdistinct := by
    have hall : ∀ frame ∈ frames, frame = generic.frame := by
      intro frame hframe
      obtain ⟨-, k, p, c, q, hp, h, rfl⟩ := hentered frame hframe
      rw [(nested_of_expands hp h).2]
    match frames, hall, hdistinct with
    | [], _, _ => exact Nat.zero_le _
    | [_], _, _ => exact Nat.le_refl _
    | first :: second :: rest, hall, hdistinct =>
      have hrepeats := (List.pairwise_cons.1 hdistinct).1 second List.mem_cons_self
      rw [hall first List.mem_cons_self, hall second (List.mem_cons_of_mem _ List.mem_cons_self)] at hrepeats
      exact absurd hrepeats (by decide +kernel)
  between k p j r hp h _ := by
    rcases nested (hp.carries h) with ⟨hk, -⟩ | ⟨hk, -⟩ | ⟨hk, -⟩ <;> omega

end Chain

/-- A generic that calls itself: the inner call refers back, and the run ends in a bundle. -/
theorem repeated_call_refers_back_chain :
    Expands {} Chain.start Chain.generic Chain.body ∧ Carries {} Chain.body 1 Chain.again ∧
      Calls {} (run {} 0) Chain.again { frames := [Chain.generic.frame], depth := 3 } Chain.generic ∧
      ((run {} 1).answer Chain.again = .done (.reference "F<>") ∨
        Overwrites {} Chain.generic Chain.body Chain.again) ∧
      Revisits {} (.node Chain.context Chain.node) 1 2 ∧
      ((∃ m, instantiate {} Chain.context Chain.node = .done m) ∨ ∃ parameter constraint received,
        instantiate {} Chain.context Chain.node = .failed (.constraintViolation parameter constraint received)) ∧
      instantiate {} Chain.context Chain.node =
        .done (.of (.cyclic [("F<>", .object [("next", .reference "F<>")])] "F<>")) := by
  obtain ⟨hlaw, hends⟩ := repeated_call_refers_back {}
  refine ⟨Chain.expands, Chain.carries, Chain.calls_again, ?_, Chain.revisits, ?_, by with_unfolding_all rfl⟩
  · exact hlaw (by decide) Chain.expands Chain.carries Chain.calls_again rfl (by decide +kernel)
  · exact hends Chain.revisits (by decide) (by decide)

/-! ### A generic that swaps its arguments -/

theorem run_primitive {limits : Limits} {s : State} (h : s.depth < limits.maxDepth) (fuel : Nat) (context : Context)
    (p : Primitive) : run limits (fuel + 1) context s (.primitive p) = .done (.primitive p) := by
  rw [run, State.descend, if_neg (by omega)]
  rfl

/-- A generic that calls itself with its arguments swapped. -/
def swapping : Context :=
  [("F", .generic [.free "A", .free "B"] (.object [("next", .call (.reference "F") [.reference "B", .reference "A"])]))]

/-- The call of it with two primitive types. -/
def swapped (a b : Primitive) : Node := .call (.reference "F") [.primitive a, .primitive b]

theorem sameAll_swapped {a b : Primitive} (hab : a ≠ b) :
    Node.sameAll [.primitive b, .primitive a] [.primitive a, .primitive b] = false := by
  simp [Node.sameAll, Node.primitive, Node.of, Node.sameAs, Node.sameKind, Ne.symm hab]

theorem fits_unknown (p : Primitive) : (Node.primitive p).fits .unknown = true := by
  cases p <;> decide +kernel

theorem bind_swapping {limits : Limits} {s : State} (h : s.depth < limits.maxDepth) (fuel : Nat) (a b : Primitive) :
    bindParameters (run limits (fuel + 1)) (Fields.without swapping ["A", "B"]) s [] [.free "A", .free "B"]
      [.primitive a, .primitive b] = .done [("A", .primitive a), ("B", .primitive b)] := by
  have hunknown : ∀ bindings, (Node.primitive .unknown).substitute bindings = .primitive .unknown := fun bindings => by
    rw [Node.substitute_eq]
    rfl
  have hconstraint : ∀ name bindings, (Parameter.free name).constraint.substitute bindings = .primitive .unknown :=
    fun _ => hunknown
  have hfits : ∀ p, (Node.primitive p).fits (.primitive .unknown) = true := fits_unknown
  simp [bindParameters, hconstraint, run_primitive h, hfits]
  rfl

theorem substitute_swapping (a b : Primitive) :
    (Node.object [("next", .call (.reference "F") [.reference "B", .reference "A"])]).substitute
      [("A", .primitive a), ("B", .primitive b)] = .object [("next", swapped b a)] := by
  cases a <;> cases b <;> with_unfolding_all rfl

section
variable {limits : Limits} {s : State} {a b : Primitive}
  (hframes : s.frames = [] ∧ 0 < limits.maxCallDepth ∨ s.frames = [⟨"F", [.primitive b, .primitive a]⟩])
include hframes

theorem isExpanding_swapped (hab : a ≠ b) : s.isExpanding "F" [.primitive a, .primitive b] = false := by
  rcases hframes with ⟨hframes, -⟩ | hframes <;> simp [State.isExpanding, hframes, sameAll_swapped hab]

/-- The frame of the swapped call is overwritten. -/
theorem enter_swapped : s.enter limits "F" [.primitive a, .primitive b] =
    .done { s with frames := [⟨"F", [.primitive a, .primitive b]⟩] } := by
  rcases hframes with ⟨hframes, hroom⟩ | hframes
  · have hfits : ¬ limits.maxCallDepth < 1 := by omega
    simp [State.enter, State.push, State.peek, hframes, hfits]
  · simp [State.enter, State.replaceTop, State.peek, hframes]

/-- The call fails as its body does. -/
theorem call_swapping (hab : a ≠ b) (hdeclared : s.declared = []) (hdepth : s.depth < limits.maxDepth) {fuel : Nat}
    {e : InstantiationError}
    (hbody : run limits (fuel + 1) swapping { s with frames := [⟨"F", [.primitive a, .primitive b]⟩] }
      (.object [("next", swapped b a)]) = .failed e) :
    call limits (run limits (fuel + 1)) swapping s (.reference "F") [.primitive a, .primitive b] = .failed e := by
  let body : Node := .object [("next", .call (.reference "F") [.reference "B", .reference "A"])]
  have harguments : [Node.primitive a, .primitive b].mapM (run limits (fuel + 1) swapping s) =
      .done [.primitive a, .primitive b] := by
    simp [run_primitive hdepth]
  have hopen : ([Node.primitive a, .primitive b].any s.dependsOnDeclared) = false := by
    simp [State.dependsOnDeclared, hdeclared]
  have hcallee : callee (run limits (fuel + 1)) swapping s (.reference "F") =
      .done (.generic "F" [.free "A", .free "B"] body) := by
    with_unfolding_all rfl
  have hexpansion : expansion limits (run limits (fuel + 1)) swapping s "F" [.free "A", .free "B"] body
      [.primitive a, .primitive b] = .failed e := by
    rw [expansion]
    show (bindParameters _ (Fields.without swapping ["A", "B"]) _ _ _ _ >>= _) = _
    rw [bind_swapping hdepth, Outcome.done_bind, enter_swapped hframes, Outcome.done_bind, substitute_swapping, hbody]
  rw [call, harguments, Outcome.done_bind, if_neg (by simp [hopen]), hcallee]
  simp [expandGeneric, isExpanding_swapped hframes hab, hexpansion]

end

/-- **The swapped call comes again and again**, by induction on the fuel, whichever of the two frames is on top. -/
theorem run_swapping {limits : Limits} {fuel : Nat} {s : State} {a b : Primitive} (hab : a ≠ b)
    (hdeclared : s.declared = [])
    (hframes : s.frames = [] ∧ 0 < limits.maxCallDepth ∨ s.frames = [⟨"F", [.primitive b, .primitive a]⟩])
    (hfuel : limits.maxDepth ≤ s.depth + fuel) :
    run limits (fuel + 1) swapping s (swapped a b) = .failed (.depthExceeded limits.maxDepth) := by
  induction fuel using Nat.strong_induction_on generalizing s a b with
  | _ fuel ih =>
    have hdeep : ∀ (t : State) (n : Node) (more : Nat), limits.maxDepth ≤ t.depth →
        run limits (more + 1) swapping t n = .failed (.depthExceeded limits.maxDepth) :=
      fun t n more ht => run_too_deep (p := ⟨swapping, t, n⟩) ht more
    by_cases hlt : limits.maxDepth ≤ s.depth
    · exact hdeep s _ _ hlt
    obtain ⟨fuel, rfl⟩ : ∃ k, fuel = k + 1 := ⟨fuel - 1, by omega⟩
    let t : State := { s with depth := s.depth + 1 }
    have hd : s.descend limits = .done t := by rw [State.descend, if_neg hlt]
    rw [run_of_descend hd, swapped, step_of_call rfl]
    by_cases hnext : limits.maxDepth ≤ s.depth + 1
    · rw [call, List.mapM_cons, hdeep t _ _ hnext]
      rfl
    obtain ⟨fuel, rfl⟩ : ∃ k, fuel = k + 1 := ⟨fuel - 1, by omega⟩
    let inner : State := { t with frames := [⟨"F", [.primitive a, .primitive b]⟩] }
    let u : State := { inner with depth := s.depth + 2 }
    have hagain : run limits (fuel + 1) swapping u (swapped b a) = .failed (.depthExceeded limits.maxDepth) :=
      ih fuel (by omega) (Ne.symm hab) hdeclared (.inr rfl) (by show limits.maxDepth ≤ s.depth + 2 + fuel; omega)
    have hu : inner.descend limits = .done u := by rw [State.descend, if_neg hnext]
    have hbody : run limits (fuel + 1 + 1) swapping inner (.object [("next", swapped b a)]) =
        .failed (.depthExceeded limits.maxDepth) := by
      rw [run_of_descend hu, step_of_isStructural rfl]
      show ((Kind.object [("next", swapped b a)]).traverse (run limits (fuel + 1) swapping u) >>= _) = _
      simp [Kind.traverse, hagain]
    rw [call_swapping (s := t) hframes hab hdeclared (by show s.depth + 1 < limits.maxDepth; omega) hbody]
    rfl

/-- **Tail calls that take turns are never noticed.**  A generic that calls itself with its arguments swapped is called with
two argument lists only, and comes to the depth limit whatever the limits are.  With equal arguments it is called with one
list, and ends in a bundle. -/
theorem swaps_forever :
    (∀ limits : Limits, 0 < limits.maxCallDepth →
      instantiate limits swapping (swapped .string .number) = .failed (.depthExceeded limits.maxDepth)) ∧
    instantiate {} swapping (swapped .string .string) =
      .done (.of (.cyclic [("F<string, string>", .object [("next", .reference "F<string, string>")])]
        "F<string, string>")) := by
  refine ⟨fun limits hroom => ?_, by with_unfolding_all rfl⟩
  have hfuel : limits.maxDepth ≤ State.initial.depth + (limits.maxDepth + 19999) := by
    rw [State.initial]
    omega
  exact run_swapping (by decide) rfl (.inl ⟨rfl, hroom⟩) hfuel

end Schemata
