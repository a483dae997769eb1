import Schemata.Proofs.Instantiation.Budget
import Schemata.Proofs.Instantiation.Causes
import Schemata.Proofs.Instantiation.Depth
import Schemata.Proofs.Operator.Lists
/-!
# Instantiation of concrete nodes

A concrete node is left as it is in every context.  Going through it takes as many nested steps as it is high, and that
is all that can go wrong (`run_of_isConcrete`), under every state (`instantiateWith_of_isConcrete`).  So an operator whose
operands are instantiated beforehand is reduced at once where these are concrete (`run_of_isEager`).
-/
namespace Schemata

namespace Node

variable {n : Node}

theorem rebuild_kind (n : Node) : n.rebuild n.kind = n := by
  cases n
  rfl

/-- The parts of a structure are open, and nothing is bound for them. -/
theorem form_of_isStructural (h : n.kind.isStructural = true) :
    n.children = n.kind.parts ∧ n.kind.declared = [] ∧ ∀ name, n.kind ≠ .ref name := by
  rw [children]
  cases hk : n.kind with
  | cyclic | ref | call | deferred | generic =>
    rw [hk] at h
    cases h
  | _ => exact ⟨rfl, rfl, by simp⟩

/-- **The forms of a concrete node.** -/
theorem isConcrete_cases (h : n.isConcrete = true) : (∃ definitions root, n.kind = .cyclic definitions root) ∨
    n.kind.isStructural = true ∧ n.kind.isPlain = true ∧ n.children = n.kind.parts ∧
      ∀ c ∈ n.kind.parts, c.isConcrete = true := by
  rw [isConcrete_eq, children] at h
  rw [children]
  cases hk : n.kind with
  | cyclic definitions root => exact .inl ⟨definitions, root, rfl⟩
  | ref | call | deferred | parameter | generic =>
    rw [hk] at h
    cases h
  | _ =>
    rw [hk] at h
    exact .inr ⟨rfl, rfl, rfl, List.all_eq_true.1 h⟩

theorem isConcrete_of_parts (hplain : n.kind.isPlain = true) (href : ∀ name, n.kind ≠ .ref name)
    (h : ∀ c ∈ n.children, c.isConcrete = true) : n.isConcrete = true := by
  rw [isConcrete_eq]
  cases hk : n.kind with
  | ref name => exact absurd hk (href name)
  | call | deferred | parameter | generic =>
    rw [hk] at hplain
    cases hplain
  | _ => exact List.all_eq_true.2 h

theorem isConcrete_of_bundle {definitions : Fields Node} {root : String} (hk : n.kind = .cyclic definitions root) :
    n.isConcrete = true := by
  refine isConcrete_of_parts (by rw [hk]; rfl) (by simp [hk]) fun c hc => ?_
  rw [children, hk] at hc
  cases hc

theorem height_deferred_singleton (operator : Operator) (operand : Node) :
    (deferred operator [operand]).height = 1 + operand.height := by
  rw [height_eq]
  exact congrArg (1 + ·) (Nat.max_zero _)

theorem height_le_of_forall {k : Nat} (h : ∀ c ∈ n.children, c.height < k) (hk : 0 < k) : n.height ≤ k := by
  rw [height_eq]
  have hall : ∀ hs : List Nat, (∀ a ∈ hs, a < k) → hs.foldr max 0 < k := by
    intro hs
    induction hs with
    | nil => exact fun _ => hk
    | cons a hs ih =>
      intro ha
      rw [List.foldr_cons]
      have := ha a List.mem_cons_self
      have := ih fun b hb => ha b (List.mem_cons_of_mem a hb)
      omega
  have := hall (n.children.map height) fun a ha => by
    obtain ⟨c, hc, rfl⟩ := List.mem_map.1 ha
    exact h c hc
  omega

end Node

/-- **A concrete node stays as it is**, in every context and under every state, unless it is higher than the depth limit
allows.  By induction on the fuel. -/
theorem run_of_isConcrete {limits : Limits} {fuel : Nat} {s : State} {n : Node} (hn : n.isConcrete = true)
    (hs : s.depth ≤ limits.maxDepth) (hfuel : limits.maxDepth < s.depth + fuel) (context : Context) :
    run limits fuel context s n =
      if s.depth + n.height ≤ limits.maxDepth then .done n else .failed (.depthExceeded limits.maxDepth) := by
  induction fuel generalizing s n with
  | zero => omega
  | succ fuel ih =>
    have hpos := n.height_pos
    by_cases hdeep : limits.maxDepth ≤ s.depth
    · rw [if_neg (by omega)]
      exact run_too_deep (p := ⟨context, s, n⟩) hdeep fuel
    let t : State := { s with depth := s.depth + 1 }
    have hd : s.descend limits = .done t := by rw [State.descend, if_neg hdeep]
    rw [run_of_descend hd]
    rcases Node.isConcrete_cases hn with ⟨definitions, root, hk⟩ | ⟨hstructural, -, hchildren, hparts⟩
    · have hheight : n.height = 1 := by
        rw [Node.height_eq, Node.children, hk]
        rfl
      rw [step_of_bundle hk, if_pos (by omega)]
    · have hpart : ∀ c ∈ n.kind.parts, run limits fuel context t c =
          if s.depth + 1 + c.height ≤ limits.maxDepth then .done c else .failed (.depthExceeded limits.maxDepth) :=
        fun c hc => ih (hparts c hc) (s := t) (by show s.depth + 1 ≤ _; omega) (by show _ < s.depth + 1 + fuel; omega)
      rw [step_of_isStructural hstructural]
      by_cases hroom : s.depth + n.height ≤ limits.maxDepth
      · have hdone : n.kind.traverse (run limits fuel context t) = .done (n.kind.map fun c => c) :=
          Kind.traverse_of_done fun c hc => by
            have := Node.height_lt_of_mem_children (hchildren ▸ hc : c ∈ n.children)
            rw [hpart c hc, if_pos (by omega)]
        rw [hdone, Kind.map_id, if_pos hroom]
        exact congrArg Outcome.done n.rebuild_kind
      · -- Some part is too high, since all of them together are.
        obtain ⟨c, hc, hhigh⟩ : ∃ c ∈ n.kind.parts, limits.maxDepth < s.depth + 1 + c.height := by
          by_contra hnone
          push Not at hnone
          refine hroom ?_
          have := Node.height_le_of_forall (n := n) (k := limits.maxDepth - s.depth)
            (fun c hc => by have := hnone c (hchildren ▸ hc); omega) (by omega)
          omega
        have hfailed : n.kind.traverse (run limits fuel context t) = .failed (.depthExceeded limits.maxDepth) := by
          refine Kind.traverse_eq_failed (fun d hd => ?_) ⟨c, hc, by rw [hpart c hc, if_neg (by omega)]⟩
          rw [hpart d hd]
          split <;> trivial
        rw [hfailed, if_neg hroom]
        rfl

/-- **Concrete nodes are fixed points, at the cost of their height**: in every context and under every state the result
is the node itself, flags, annotations and orders included, as long as the nodes on its longest path downward fit below
the depth limit, and the depth limit is exceeded otherwise. -/
theorem instantiateWith_of_isConcrete {n : Node} (hn : n.isConcrete = true) (limits : Limits) (context : Context)
    (s : State) : instantiateWith limits context s n =
      if s.depth + n.height ≤ limits.maxDepth then .done n else .failed (.depthExceeded limits.maxDepth) := by
  unfold instantiateWith ampleFuel
  by_cases hs : s.depth ≤ limits.maxDepth
  · exact run_of_isConcrete hn hs (by omega) context
  · -- A state that is past the limit already has no room for any node.
    have hpos := n.height_pos
    rw [if_neg (by omega)]
    have hdeep : limits.maxDepth ≤ s.depth := by omega
    exact run_too_deep (p := ⟨context, s, n⟩) hdeep (limits.maxDepth + 19999)

/-- A bundle three levels down, inside of calls and parameters, with names that the context binds: there is just room for
it, and with one level less there is none. -/
theorem instantiateWith_of_isConcrete_boundary :
    let bundle : Node := .cyclic [("A", .object [("next", .reference "A"), ("item", .reference "T")])] "A"
    let n : Node := ⟨.object [("b", ⟨.array bundle, ⟨true, false⟩, [("note", .string "kept")]⟩),
      ("a", .union [.string, .primitive .null])], ⟨false, true⟩, [("title", .null)]⟩
    let context : Context := [("A", .string), ("note", .reference "A")]
    let s : State := { frames := [⟨"F", [.string]⟩], declared := ["T"], depth := 4 }
    n.isConcrete = true ∧ n.height = 3 ∧ instantiateWith { maxDepth := 7 } context s n = .done n ∧
      instantiateWith { maxDepth := 6 } context s n = .failed (.depthExceeded 6) := by
  intro bundle n context s
  have hn : n.isConcrete = true := by decide +kernel
  have hheight : n.height = 3 := by decide +kernel
  refine ⟨hn, hheight, ?_, ?_⟩
  · rw [instantiateWith_of_isConcrete hn, if_pos (by simp [hheight, s])]
  · rw [instantiateWith_of_isConcrete hn, if_neg (by simp [hheight, s])]

/-! ## Eager operators -/

/-- **Whether the operands of an operator are all instantiated beforehand.** -/
def Operator.isEager : Operator → Bool
  | .conditional | .mapped | .inlineModule => false
  | _ => true

theorem resolvable_of_isConcrete (context : Context) {n : Node} (h : n.isConcrete = true) : resolvable context n = true := by
  induction n using Node.induction_on_parts with
  | node n ih =>
    obtain ⟨kind, modifiers, annotations⟩ := n
    cases kind with
    | union parts | intersect parts =>
      rw [resolvable, resolvableAll_eq_all, List.all_eq_true]
      rw [Node.isConcrete_eq] at h
      exact fun c hc => ih c hc (List.all_eq_true.1 h c hc)
    | ref name =>
      rw [Node.isConcrete_eq] at h
      cases h
    | _ => rfl

theorem Operator.canReduce_of_isConcrete {operator : Operator} (heager : operator.isEager = true) (context : Context)
    {operands : List Node} (h : ∀ c ∈ operands, c.isConcrete = true) : canReduce context operator operands = true := by
  have hguarded : operator.guarded operands = operands := by
    cases operator <;> first | rfl | cases heager
  rw [canReduce, hguarded, resolvableAll_eq_all, List.all_eq_true]
  exact fun c hc => resolvable_of_isConcrete context (h c hc)

/-- What a node becomes when its operator, applied to instantiated operands, is reduced to a node or to none. -/
def Node.reducedTo (n : Node) (operator : Operator) (operands : List Node) (options : Annotations) : Option Node → Node
  | some result => { result.inherit n with annotations := (result.inherit n).annotations.override options }
  | none => n.rebuild (.deferred operator operands options)

theorem reduce_of_isEager {s : Setting} {operands : List Node} (heager : s.operator.isEager = true)
    (hcan : canReduce s.context s.operator operands = true) (n : Node) (options : Annotations) :
    reduce s n operands options = operands.mapM s.instantiate >>= fun operands =>
      reduceEager s operands >>= fun reduced => .done (n.reducedTo s.operator operands options reduced) := by
  have hoperands : reduceOperands s operands = operands.mapM s.instantiate >>= fun operands =>
      reduceEager s operands >>= fun reduced => .done (match reduced with
        | some result => .done result
        | none => .waiting operands) := by
    rw [reduceOperands]
    split
    · simp_all [Operator.isEager]
    · simp_all [Operator.isEager]
    · simp_all [Operator.isEager]
    · refine bind_congr fun operands => bind_congr fun reduced => ?_
      cases reduced <;> rfl
  rw [reduce, if_pos hcan, hoperands]
  simp only [bind_assoc, Outcome.done_bind]
  refine bind_congr fun operands => bind_congr fun reduced => ?_
  cases reduced <;> rfl

/-- A new node of an operator gives what the operator is reduced to, as it is. -/
theorem Node.reducedTo_deferred (operator : Operator) (operands operands' : List Node) (result : Node) :
    (deferred operator operands).reducedTo operator operands' [] (some result) = result := by
  rw [reducedTo, deferred, inherit_of, Annotations.override, List.foldl_nil]
  cases result
  rfl

theorem reduce_of_done {s : Setting} {operands results : List Node} (heager : s.operator.isEager = true)
    (hcan : canReduce s.context s.operator operands = true)
    (hoperands : List.Forall₂ (fun x y => s.instantiate x = .done y) operands results) {result : Node}
    (hreduce : reduceEager s results = .done (some result)) :
    reduce s (.deferred s.operator operands) operands [] = .done result := by
  rw [reduce_of_isEager heager hcan, Outcome.mapM_of_forall₂ hoperands, Outcome.done_bind, hreduce, Outcome.done_bind,
    Node.reducedTo_deferred]

/-- The setting in which the operator of a node is reduced under a state. -/
def Operator.settingUnder (operator : Operator) (limits : Limits) (fuel : Nat) (context : Context) (s : State) : Setting :=
  ⟨limits.maxTemplateCombinations, run limits fuel, context, { s with depth := s.depth + 1 }, operator⟩

/-- The setting in which the operator of a node is reduced when the node is instantiated. -/
def Operator.setting (operator : Operator) (limits : Limits) (context : Context) : Setting :=
  ⟨limits.maxTemplateCombinations, run limits (limits.maxDepth + 19999), context, { depth := 1 }, operator⟩

section
variable {limits : Limits} {n : Node} {operator : Operator} {operands : List Node} {options : Annotations}

theorem run_of_deferred (hk : n.kind = .deferred operator operands options) {s : State} (hs : s.depth < limits.maxDepth)
    (fuel : Nat) (context : Context) :
    run limits (fuel + 1) context s n = reduce (operator.settingUnder limits fuel context s) n operands options := by
  have hd : s.descend limits = .done { s with depth := s.depth + 1 } := by rw [State.descend, if_neg (by omega)]
  rw [run_of_descend hd, step, hk]
  rfl

theorem instantiate_of_deferred (hk : n.kind = .deferred operator operands options) (hdepth : 0 < limits.maxDepth)
    (context : Context) : instantiate limits context n = reduce (operator.setting limits context) n operands options :=
  run_of_deferred hk (s := .initial) hdepth (limits.maxDepth + 19999) context

/-- **An eager operator on concrete operands is reduced at once**, if the depth limit has room for the operands. -/
theorem run_of_isEager (hk : n.kind = .deferred operator operands options) (heager : operator.isEager = true)
    (hoperands : ∀ c ∈ operands, c.isConcrete = true) {fuel : Nat} {s : State}
    (hfuel : limits.maxDepth ≤ s.depth + fuel) (context : Context) :
    run limits (fuel + 1) context s n =
      if s.depth + n.height ≤ limits.maxDepth then
        reduceEager (operator.settingUnder limits fuel context s) operands >>= fun reduced =>
          .done (n.reducedTo operator operands options reduced)
      else .failed (.depthExceeded limits.maxDepth) := by
  have hchildren : n.children = operands := by rw [Node.children, hk]; rfl
  have hpos := n.height_pos
  by_cases hdeep : limits.maxDepth ≤ s.depth
  · rw [if_neg (by omega)]
    exact run_too_deep (p := ⟨context, s, n⟩) hdeep fuel
  have hoperand : ∀ c ∈ operands, (operator.settingUnder limits fuel context s).instantiate c =
      if s.depth + 1 + c.height ≤ limits.maxDepth then .done c else .failed (.depthExceeded limits.maxDepth) :=
    fun c hc => run_of_isConcrete (hoperands c hc) (s := { s with depth := s.depth + 1 })
      (by show s.depth + 1 ≤ _; omega) (by show _ < s.depth + 1 + fuel; omega) context
  rw [run_of_deferred hk (by omega),
    reduce_of_isEager heager (Operator.canReduce_of_isConcrete heager context hoperands)]
  by_cases hroom : s.depth + n.height ≤ limits.maxDepth
  · have hdone : operands.mapM (operator.settingUnder limits fuel context s).instantiate = .done (operands.map id) :=
      Outcome.mapM_of_done fun c hc => by
        have := Node.height_lt_of_mem_children (hchildren ▸ hc : c ∈ n.children)
        rw [hoperand c hc, if_pos (by omega)]
        rfl
    rw [if_pos hroom, hdone, List.map_id]
    rfl
  · obtain ⟨c, hc, hhigh⟩ : ∃ c ∈ operands, limits.maxDepth < s.depth + 1 + c.height := by
      by_contra hlow
      push Not at hlow
      have := Node.height_le_of_forall (n := n) (k := limits.maxDepth - s.depth)
        (fun c hc => by have := hlow c (hchildren ▸ hc); omega) (by omega)
      omega
    have hfailed : operands.mapM (operator.settingUnder limits fuel context s).instantiate =
        .failed (.depthExceeded limits.maxDepth) := by
      refine Outcome.mapM_eq_failed (fun d hd => ?_) ⟨c, hc, by rw [hoperand c hc, if_neg (by omega)]⟩
      rw [hoperand d hd]
      split <;> trivial
    rw [if_neg hroom, hfailed]
    rfl

/-- **An eager operator on concrete operands becomes what it reduces them to.** -/
theorem run_of_reduceEager (heager : operator.isEager = true) (hoperands : ∀ c ∈ operands, c.isConcrete = true) {fuel : Nat}
    {s : State} (hfuel : limits.maxDepth ≤ s.depth + fuel) {context : Context} {out : Node}
    (hreduce : reduceEager (operator.settingUnder limits fuel context s) operands = .done (some out)) :
    run limits (fuel + 1) context s (.deferred operator operands) =
      if s.depth + (Node.deferred operator operands).height ≤ limits.maxDepth then .done out
      else .failed (.depthExceeded limits.maxDepth) := by
  have hdeferred : (Node.deferred operator operands).kind = .deferred operator operands [] := rfl
  rw [run_of_isEager hdeferred heager hoperands hfuel, hreduce, Outcome.done_bind, Node.reducedTo_deferred]

theorem instantiateWith_of_reduceEager (heager : operator.isEager = true) (hoperands : ∀ c ∈ operands, c.isConcrete = true)
    {context : Context} {s : State} {out : Node}
    (hreduce : ∀ t : Setting, t.operator = operator → t.templateLimit = limits.maxTemplateCombinations →
      reduceEager t operands = .done (some out)) :
    instantiateWith limits context s (.deferred operator operands) =
      if s.depth + (Node.deferred operator operands).height ≤ limits.maxDepth then .done out
      else .failed (.depthExceeded limits.maxDepth) :=
  run_of_reduceEager heager hoperands (by omega : limits.maxDepth ≤ s.depth + (limits.maxDepth + 19999)) (hreduce _ rfl rfl)

theorem instantiate_of_isEager (hk : n.kind = .deferred operator operands options) (heager : operator.isEager = true)
    (hoperands : ∀ c ∈ operands, c.isConcrete = true) (context : Context) :
    instantiate limits context n =
      if n.height ≤ limits.maxDepth then
        reduceEager (operator.setting limits context) operands >>= fun reduced =>
          .done (n.reducedTo operator operands options reduced)
      else .failed (.depthExceeded limits.maxDepth) := by
  have hfuel : limits.maxDepth ≤ State.initial.depth + (limits.maxDepth + 19999) := by omega
  have hrun := run_of_isEager hk heager hoperands hfuel context
  rw [show State.initial.depth + n.height = n.height from Nat.zero_add _] at hrun
  exact hrun

end

end Schemata
