import Schemata.Proofs.Instantiation.Nesting
import Schemata.Proofs.Node.Annotations
import Schemata.Proofs.Reference.Cycle
/-!
# Resolution of plain nodes

Where nothing is applied and nothing is bound, instantiation only follows references.  What it makes of a node depends on
the context alone, and so does the number of steps that it nests.

- `Node.isPlain`: no call, operator, generic or parameter stands outside of bundles.
- `Resolves context k n m`: following references makes `m` of `n`, in at most `k` nested steps.

Main statement: `run_eq_done_iff`, a run resolves within the steps that its fuel and the depth limit leave.
-/
namespace Schemata

/-! ## Plain nodes -/

def Kind.isPlain {α : Type} : Kind α → Bool
  | .call .. | .deferred .. | .generic .. | .parameter _ => false
  | _ => true

/-- **Whether a node applies and binds nothing**, outside of bundles. -/
def Node.isPlain (n : Node) : Bool := n.outside fun m => m.kind.isPlain

/-- No definition of a context applies or binds anything. -/
def Context.Plain (context : Context) : Prop := ∀ name n, context.get? name = some n → n.isPlain = true

theorem Context.Plain.of_all {context : Context} (h : (context.all fun e => e.2.isPlain) = true) : context.Plain :=
  fun _ _ hn => List.all_eq_true.1 h _ (Fields.mem_of_get? hn)

theorem Node.isPlain_iff {n : Node} :
    n.isPlain = true ↔ n.kind.isPlain = true ∧ ∀ c ∈ n.children, c.isPlain = true := outside_iff

theorem Kind.children_of_isStructural {α : Type} {kind : Kind α} (h : kind.isStructural = true) :
    kind.children = kind.parts := by
  cases kind <;> first | rfl | cases h

theorem Kind.isStructural_map {α β : Type} (f : α → β) (kind : Kind α) :
    (kind.map f).isStructural = kind.isStructural := by
  cases kind <;> rfl

/-- **The forms of a plain node.** -/
theorem Node.isPlain_cases {n : Node} (h : n.isPlain = true) :
    (∃ definitions root, n.kind = .cyclic definitions root) ∨ (∃ name, n.kind = .ref name) ∨
      n.kind.isStructural = true ∧ ∀ c ∈ n.kind.parts, c.isPlain = true := by
  obtain ⟨hform, hchildren⟩ := isPlain_iff.1 h
  rw [children] at hchildren
  cases hk : n.kind with
  | cyclic definitions root => exact .inl ⟨definitions, root, rfl⟩
  | ref name => exact .inr (.inl ⟨name, rfl⟩)
  | call | deferred | generic | parameter =>
    rw [hk] at hform
    cases hform
  | _ =>
    rw [hk] at hchildren
    exact .inr (.inr ⟨rfl, hchildren⟩)

/-! ## References that stay -/

/-- **A reference stays** when it is not bound, or leads back to its own name or to a name on the way. -/
def Stays (context : Context) (name : String) : Prop := context.get? name = none ∨ isCyclic context name = true

theorem not_stays_iff {context : Context} {name : String} :
    ¬ Stays context name ↔ ∃ target, context.get? name = some target ∧ leadsBack [name] context target = false := by
  rw [Stays, isCyclic]
  cases context.get? name with
  | none => simp
  | some target => simp

section
variable {limits : Limits} {evaluate : Evaluator} {context : Context} {s : State} {n : Node} {name : String}

theorem step_of_stays (hk : n.kind = .ref name) (h : Stays context name) : step limits evaluate context s n = .done n := by
  rw [Stays, isCyclic] at h
  cases ht : context.get? name with
  | none => simp [step, hk, ht]
  | some target =>
    have hback : leadsBack [name] context target = true := by simpa [ht] using h
    simp [step, hk, ht, hback]

theorem step_of_follows {target : Node} (hk : n.kind = .ref name) (ht : context.get? name = some target)
    (h : leadsBack [name] context target = false) :
    step limits evaluate context s n = do return (← evaluate context s target).inherit n := by
  simp [step, hk, ht, h]

theorem step_of_bundle {definitions : Fields Node} {root : String} (hk : n.kind = .cyclic definitions root) :
    step limits evaluate context s n = .done n := by
  simp [step, hk]

end

/-! ## Resolution -/

/-- With fuel and depth for a step, the step goes down and leaves what is needed for the rest. -/
theorem exists_of_room {limits : Limits} {k fuel : Nat} {s : State} (hf : k + 1 ≤ fuel)
    (hd : s.depth + (k + 1) ≤ limits.maxDepth) :
    ∃ rest t, fuel = rest + 1 ∧ s.descend limits = .done t ∧ k ≤ rest ∧ t.depth + k ≤ limits.maxDepth := by
  refine ⟨fuel - 1, { s with depth := s.depth + 1 }, by omega, ?_, by omega, by simp only; omega⟩
  rw [State.descend, if_neg (by omega)]

/-- **Following references makes `m` of `n`**, in at most `k` nested steps. -/
inductive Resolves (context : Context) : Nat → Node → Node → Prop
  | bundle {k : Nat} {n : Node} {definitions : Fields Node} {root : String} (h : n.kind = .cyclic definitions root) :
    Resolves context (k + 1) n n
  | stays {k : Nat} {n : Node} {name : String} (h : n.kind = .ref name) (still : Stays context name) :
    Resolves context (k + 1) n n
  | follows {k : Nat} {n target m : Node} {name : String} (h : n.kind = .ref name)
    (bound : context.get? name = some target) (clear : leadsBack [name] context target = false)
    (next : Resolves context k target m) : Resolves context (k + 1) n (m.inherit n)
  /-- The parts of one form, before and after. -/
  | parts {k : Nat} {n : Node} {form : Kind Node} {before after : Node → Node} (h : n.kind = form.map before)
    (structural : form.isStructural = true) (each : ∀ c ∈ form.parts, Resolves context k (before c) (after c)) :
    Resolves context (k + 1) n (n.rebuild (form.map after))

section
variable {limits : Limits} {context : Context}

theorem Resolves.run_eq {k fuel : Nat} {s : State} {n m : Node} (h : Resolves context k n m) (hf : k ≤ fuel)
    (hd : s.depth + k ≤ limits.maxDepth) : run limits fuel context s n = .done m := by
  induction h generalizing fuel s with
  | @bundle k n definitions root hk =>
    obtain ⟨fuel, t, rfl, ht, -⟩ := exists_of_room hf hd
    rw [run_of_descend ht, step_of_bundle hk]
  | @stays k n name hk still =>
    obtain ⟨fuel, t, rfl, ht, -⟩ := exists_of_room hf hd
    rw [run_of_descend ht, step_of_stays hk still]
  | @follows k n target m name hk bound clear next ih =>
    obtain ⟨fuel, t, rfl, ht, hf, hd⟩ := exists_of_room hf hd
    rw [run_of_descend ht, step_of_follows hk bound clear, ih hf hd]
    rfl
  | @parts k n form before after hk structural each ih =>
    obtain ⟨fuel, t, rfl, ht, hf, hd⟩ := exists_of_room hf hd
    have hstructural : n.kind.isStructural = true := by rw [hk, Kind.isStructural_map, structural]
    rw [run_of_descend ht, step_of_isStructural hstructural, hk, Kind.traverse_map,
      Kind.traverse_of_done fun c hc => ih c hc hf hd]
    rfl

/-- **A run in a plain context resolves**, within its fuel or within what the depth limit leaves, by induction on the
fuel. -/
theorem resolves_of_run (hplain : context.Plain) {k fuel : Nat} {s : State} {n m : Node} (hn : n.isPlain = true)
    (hk : fuel ≤ k ∨ limits.maxDepth ≤ s.depth + k) (h : run limits fuel context s n = .done m) :
    Resolves context k n m := by
  induction fuel generalizing k s n m with
  | zero => cases h
  | succ fuel ih =>
    rw [run] at h
    obtain ⟨t, ht, h⟩ := Outcome.bind_eq_done.1 h
    obtain ⟨hlt, rfl⟩ := State.eq_of_descend ht
    obtain ⟨k, rfl⟩ : ∃ j, k = j + 1 := ⟨k - 1, by omega⟩
    have hroom : fuel ≤ k ∨ limits.maxDepth ≤ s.depth + 1 + k := by omega
    rcases Node.isPlain_cases hn with ⟨definitions, root, hkind⟩ | ⟨name, hkind⟩ | ⟨hstructural, hparts⟩
    · rw [step_of_bundle hkind] at h
      cases h
      exact .bundle hkind
    · by_cases hstays : Stays context name
      · rw [step_of_stays hkind hstays] at h
        cases h
        exact .stays hkind hstays
      · obtain ⟨target, hbound, hclear⟩ := not_stays_iff.1 hstays
        rw [step_of_follows hkind hbound hclear] at h
        obtain ⟨r, hr, h⟩ := Outcome.bind_eq_done.1 h
        cases h
        exact .follows hkind hbound hclear (ih (hplain name target hbound) hroom hr)
    · rw [step_of_isStructural hstructural] at h
      obtain ⟨kind, htraverse, h⟩ := Outcome.bind_eq_done.1 h
      cases h
      obtain ⟨after, hafter, rfl⟩ := Kind.traverse_eq_done_iff.1 htraverse
      exact .parts (Kind.map_id n.kind).symm hstructural fun c hc => ih (hparts c hc) hroom (hafter c hc)

/-- **A run in a plain context resolves within the steps that its fuel and the depth limit leave**, and fails or is
exhausted only where these do not suffice. -/
theorem run_eq_done_iff (hplain : context.Plain) {fuel : Nat} {s : State} {n m : Node} (hn : n.isPlain = true) :
    run limits fuel context s n = .done m ↔
      ∃ k, k ≤ fuel ∧ s.depth + k ≤ limits.maxDepth ∧ Resolves context k n m := by
  constructor
  · intro h
    by_cases hroom : s.depth + fuel ≤ limits.maxDepth
    · exact ⟨fuel, Nat.le_refl _, hroom, resolves_of_run hplain hn (.inl (Nat.le_refl _)) h⟩
    · have hstart : s.depth ≤ limits.maxDepth := by
        cases fuel with
        | zero => cases h
        | succ fuel =>
          obtain ⟨t, ht, -⟩ := Outcome.bind_eq_done.1 h
          exact (State.eq_of_descend ht).1.le
      refine ⟨limits.maxDepth - s.depth, by omega, by omega, resolves_of_run hplain hn (.inr (by omega)) h⟩
  · rintro ⟨k, hf, hd, hr⟩
    exact hr.run_eq hf hd

end
end Schemata
