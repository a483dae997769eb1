import Schemata.Proofs.Instantiation.Limits
/-!
# Depth

The depth in a state counts the steps around it, but only those since the state started afresh, and the definitions of
bundles and inline modules are instantiated from the initial state.

- `Carries limits q k p`: the run comes from `q` to `p` inside of `k` steps, each of them one deeper than the one around it.
- `StartsAfresh limits query k q`: the run of a query comes to `q` inside of `k + 1` steps, and the depth is zero.

Main statement: `depth_accounting`.  Steps that carry the depth are bounded by the limit, and a run without fresh starts
needs no more fuel than the limit; with fresh starts the bound holds exactly when they leave enough room.
-/
namespace Schemata

variable {limits : Limits} {query : Query}

/-! ## Depth of nested steps -/

/-- **The limit lets the step at a point take place**, inside of `k` others. -/
def Performed (limits : Limits) (query : Query) (k : Nat) (p : Point) : Prop :=
  Nested limits query k p ∧ p.state.depth < limits.maxDepth

/-- **From `q` to `p` inside of `k` steps**, each one deeper than the one around it. -/
inductive Carries (limits : Limits) (q : Point) : Nat → Point → Prop
  | refl : Carries limits q 0 q
  | invokes {k : Nat} {p r : Point} (hp : Carries limits q k p) (h : Invokes limits p r)
    (deeper : r.state.depth = p.state.depth + 1) : Carries limits q (k + 1) r

/-- **A fresh start** inside of `k + 1` steps. -/
def StartsAfresh (limits : Limits) (query : Query) (k : Nat) (q : Point) : Prop :=
  Nested limits query (k + 1) q ∧ q.state = .initial

/-- A nested step is one deeper, or starts afresh at a deferred operator. -/
theorem Invokes.depth {p q : Point} (h : Invokes limits p q) :
    p.state.depth < limits.maxDepth ∧
      (q.state.depth = p.state.depth + 1 ∨
        q.state = .initial ∧ ∃ operator operands options, p.node.kind = .deferred operator operands options) := by
  obtain ⟨s, hd, hh⟩ := h.heir
  obtain ⟨hlt, rfl⟩ := State.eq_of_descend hd
  refine ⟨hlt, ?_⟩
  generalize q.state = t at hh
  cases hh with
  | same => exact .inl rfl
  | declared parameters => exact .inl rfl
  | entered new enter =>
    obtain ⟨frames, -, rfl⟩ := State.eq_of_enter enter
    exact .inl rfl
  | fresh deferred => exact .inr ⟨rfl, _, _, _, deferred⟩

theorem Carries.depth {q p : Point} {k : Nat} (h : Carries limits q k p) : p.state.depth = q.state.depth + k := by
  induction h with
  | refl => rfl
  | invokes hp h deeper ih => omega

theorem Nested.carries {q p : Point} {j k : Nat} (hq : Nested limits query j q) (h : Carries limits q k p) :
    Nested limits query (j + k) p := by
  induction h with
  | refl => exact hq
  | invokes hp h deeper ih => exact .invokes ih h

/-- **The last start before a nested step**: where the query began, or a fresh start. -/
theorem Nested.start {p : Point} {k : Nat} (h : Nested limits query k p) :
    ∃ j q, Carries limits q j p ∧ q.state = .initial ∧
      (j = k ∧ query.Opens limits q ∨ ∃ i, i + 1 + j = k ∧ StartsAfresh limits query i q) := by
  induction h with
  | opens h => exact ⟨0, _, .refl, h.state_eq, .inl ⟨rfl, h⟩⟩
  | @invokes k p r hp h ih =>
    obtain ⟨j, q, hc, hq, hstart⟩ := ih
    rcases h.depth.2 with hr | ⟨hr, -⟩
    · refine ⟨j + 1, q, .invokes hc h hr, hq, ?_⟩
      rcases hstart with ⟨hj, ho⟩ | ⟨i, hi, hf⟩
      · exact .inl ⟨by omega, ho⟩
      · exact .inr ⟨i, by omega, hf⟩
    · exact ⟨0, r, .refl, hr, .inr ⟨k, rfl, .invokes hp h, hr⟩⟩

theorem Nested.depth_eq {p : Point} {k : Nat} (h : Nested limits query k p)
    (hfresh : ∀ j q, ¬ StartsAfresh limits query j q) : p.state.depth = k := by
  obtain ⟨j, q, hc, hq, ⟨rfl, -⟩ | ⟨i, -, hf⟩⟩ := h.start
  · rw [hc.depth, hq]
    exact Nat.zero_add j
  · exact absurd hf (hfresh i q)

/-! ## Steps that are too deep -/

theorem run_too_deep {p : Point} (h : limits.maxDepth ≤ p.state.depth) (fuel : Nat) :
    (run limits (fuel + 1)).answer p = .failed (.depthExceeded limits.maxDepth) := by
  rw [run_succ, stepAt, State.descend, if_pos h]
  rfl

theorem run_done_of_le (limits : Limits) {fuel more : Nat} (hf : fuel ≤ more) (q : Point) (n : Node)
    (h : (run limits fuel).answer q = .done n) : (run limits more).answer q = .done n := by
  have hl : limits.Within limits := ⟨Nat.le_refl _, Nat.le_refl _, rfl⟩
  exact (run_liftsTo hl hf q).done h

/-- **A step that the limit forbids ends the whole run**, with that error. -/
theorem Nested.outcome_of_failed {p : Point} {k : Nat} (h : Nested limits query k p) {e : InstantiationError}
    (least : Nat) (he : ∀ fuel, least ≤ fuel → (run limits fuel).answer p = .failed e) :
    ∃ enough, ∀ fuel, enough ≤ fuel → query.outcome (run limits fuel) = .failed e := by
  induction h generalizing least with
  | @opens p h =>
    obtain ⟨asking, ha⟩ := h
    refine ⟨max asking least, fun fuel hf => ?_⟩
    have hq := query.planned_outcome.asks_of_asks (run_done_of_le limits (by omega : asking ≤ fuel)) ha
    exact query.planned_outcome.failed_of_asks hq (he fuel (by omega))
  | @invokes k p q hp h ih =>
    obtain ⟨asking, ha⟩ := h
    refine ih (max asking least + 1) fun fuel hf => ?_
    obtain ⟨fuel, rfl⟩ : ∃ m, fuel = m + 1 := ⟨fuel - 1, by omega⟩
    have hq := (planned_stepAt limits p).asks_of_asks (run_done_of_le limits (by omega : asking ≤ fuel)) ha
    rw [run_succ]
    exact (planned_stepAt limits p).failed_of_asks hq (he fuel (by omega))

/-! ## Fuel -/

/-- Without fresh starts, what room the limit leaves is fuel enough. -/
theorem Nested.run_eq (hfresh : ∀ j q, ¬ StartsAfresh limits query j q) {fuel : Nat} :
    ∀ {k : Nat} {p : Point}, Nested limits query k p → limits.maxDepth < k + fuel + 1 → ∀ more, fuel ≤ more →
      (run limits (more + 1)).answer p = (run limits (fuel + 1)).answer p := by
  induction fuel with
  | zero =>
    intro k p hp hk more hm
    have hdeep : limits.maxDepth ≤ p.state.depth := by
      rw [hp.depth_eq hfresh]
      omega
    rw [run_too_deep hdeep, run_too_deep hdeep]
  | succ fuel ih =>
    intro k p hp hk more hm
    obtain ⟨more, rfl⟩ : ∃ m, more = m + 1 := ⟨more - 1, by omega⟩
    rw [run_succ, run_succ]
    refine (planned_stepAt limits p).eq_of_asks fun q hq => ?_
    exact ih (.invokes hp ⟨fuel + 1, hq⟩) (by omega) more (by omega)

/-! ## The bound -/

/-- **What the depth limit bounds.**  The nesting of the steps of a run stays below the limit exactly when every fresh
start leaves the steps inside of it enough room.  Fresh starts happen inside of deferred operators only.  A run without
them does not depend on fuel beyond the limit, and a step that comes up too deep since the last start ends the run. -/
theorem depth_accounting (limits : Limits) (query : Query) :
    ((∀ k p, Performed limits query k p → k < limits.maxDepth) ↔
      ∀ j q k p, StartsAfresh limits query j q → Carries limits q k p → k < limits.maxDepth →
        j + 1 + k < limits.maxDepth) ∧
    (∀ j q, StartsAfresh limits query j q → ∃ p, Nested limits query j p ∧ Invokes limits p q ∧
      ∃ operator operands options, p.node.kind = .deferred operator operands options) ∧
    ((∀ j q, ¬ StartsAfresh limits query j q) → ∀ fuel, limits.maxDepth < fuel →
      query.outcome (run limits fuel) = query.outcome (run limits (limits.maxDepth + 1))) ∧
    (∀ k p, Nested limits query k p → ¬ Performed limits query k p → ∃ enough, ∀ fuel, enough ≤ fuel →
      query.outcome (run limits fuel) = .failed (.depthExceeded limits.maxDepth)) := by
  refine ⟨⟨?_, ?_⟩, ?_, ?_, ?_⟩
  · intro hbound j q k p hq hc hk
    have hdepth : p.state.depth = k := by
      rw [hc.depth, hq.2]
      exact Nat.zero_add k
    exact hbound _ p ⟨hq.1.carries hc, by omega⟩
  · intro hroom k p hp
    obtain ⟨j, q, hc, hq, hstart⟩ := hp.1.start
    have hdepth : p.state.depth = j := by
      rw [hc.depth, hq]
      exact Nat.zero_add j
    have hlt : p.state.depth < limits.maxDepth := hp.2
    rcases hstart with ⟨rfl, -⟩ | ⟨i, rfl, hf⟩
    · omega
    · exact hroom i q j p hf hc (by omega)
  · rintro j q ⟨hn, hq⟩
    cases hn with
    | @invokes _ p _ hp h =>
      rcases h.depth.2 with hdeeper | ⟨-, hdeferred⟩
      · rw [hq] at hdeeper
        cases hdeeper
      · exact ⟨p, hp, h, hdeferred⟩
  · intro hfresh fuel hf
    obtain ⟨more, rfl⟩ : ∃ m, fuel = m + 1 := ⟨fuel - 1, by omega⟩
    refine query.planned_outcome.eq_of_asks fun q hq => ?_
    exact Nested.run_eq hfresh (.opens ⟨_, hq⟩) (by omega) more (by omega)
  · intro k p hp hnot
    have hdeep : limits.maxDepth ≤ p.state.depth := by
      by_contra hlt
      exact hnot ⟨hp, by omega⟩
    refine hp.outcome_of_failed 1 fun fuel hf => ?_
    obtain ⟨fuel, rfl⟩ : ∃ m, fuel = m + 1 := ⟨fuel - 1, by omega⟩
    exact run_too_deep hdeep fuel

/-- A definition of an inline module is instantiated inside of the step of the module, also where the limit allows one
step only. -/
theorem performed_in_module :
    let limits : Limits := { maxDepth := 1 }
    let n : Node := .inlineModule [("A", .string)]
    ¬ (∀ k p, Performed limits (.node [] n) k p → k < limits.maxDepth) ∧
      instantiate limits [] n = .done (.object [("A", .string)]) := by
  intro limits n
  refine ⟨fun hbound => ?_, by with_unfolding_all rfl⟩
  let p : Point := ⟨[], .initial, n⟩
  -- An evaluator that fails at depth zero only makes the step fail, so the step comes to a question there.
  let other : Evaluator := fun _ s _ => if s.depth = 0 then .failed (.depthExceeded 0) else .exhausted
  have hother : stepAt limits p other = .failed (.depthExceeded 0) := by with_unfolding_all rfl
  have hopen : stepAt limits p (run limits 0) = .exhausted := by with_unfolding_all rfl
  have hne : stepAt limits p other ≠ stepAt limits p (run limits 0) := by
    rw [hother, hopen]
    simp
  obtain ⟨q, hq, hanswer⟩ := (planned_stepAt limits p).exists_asks hne
  have hdepth : q.state.depth = 0 := by
    by_contra hd
    exact hanswer (if_neg hd)
  have hnested : Nested limits (.node [] n) 1 q := .invokes (.opens (Query.opens_node limits [] n)) ⟨0, hq⟩
  have hperformed : Performed limits (.node [] n) 1 q := by
    refine ⟨hnested, ?_⟩
    rw [hdepth]
    decide
  exact absurd (hbound 1 q hperformed) (by decide)

end Schemata
