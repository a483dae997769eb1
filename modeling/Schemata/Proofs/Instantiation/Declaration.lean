import Schemata.Proofs.Instantiation.Concrete
import Schemata.Proofs.Instantiation.Handover
/-!
# Declarations of generics

Inside of a generic its parameters are declared: the context binds nothing under their names, and a call that depends on
one of them is left to the place where the generic is called.  So a body that only refers to parameters, and only makes
calls that depend on some, comes out as it went in, whatever the calls would come to (`run_of_isDeclarative`).

- `Node.isDeclarative declared n`: the forms of such a body below the given parameters.
-/
namespace Schemata

namespace Node

/-- **Whether a node only declares**, below parameters with the given names: its references are to parameters in scope,
and each of its calls has an argument that refers to one.  What a call is made to does not matter. -/
def isDeclarative (declared : List String) (n : Node) : Bool :=
  match _h : n.kind with
  | .ref name => declared.contains name
  | .deferred .. => false
  | .call _ arguments =>
    (arguments.attach.all fun ⟨c, _⟩ => c.isDeclarative declared) &&
      arguments.any fun argument => argument.references.any declared.contains
  | kind => n.children.attach.all fun ⟨c, _⟩ => c.isDeclarative (declared ++ kind.declared)
termination_by n.size
decreasing_by
  · exact size_lt_of_mem_parts (by rw [_h]; exact List.mem_cons_of_mem _ ‹_›)
  · exact size_lt_of_mem_children ‹_›

theorem isDeclarative_eq (declared : List String) (n : Node) : n.isDeclarative declared =
    match n.kind with
    | .ref name => declared.contains name
    | .deferred .. => false
    | .call _ arguments => arguments.all (isDeclarative declared) &&
        arguments.any fun argument => argument.references.any declared.contains
    | kind => n.children.all (isDeclarative (declared ++ kind.declared)) := by
  rw [isDeclarative]
  split <;> simp_all

/-- The forms of a declarative node that are instantiated part by part. -/
theorem isDeclarative_children {declared : List String} {n : Node} (h : n.isDeclarative declared = true)
    (href : ∀ name, n.kind ≠ .ref name) (hcall : ∀ target arguments, n.kind ≠ .call target arguments) :
    ∀ c ∈ n.children, c.isDeclarative (declared ++ n.kind.declared) = true := by
  rw [isDeclarative_eq] at h
  cases hk : n.kind with
  | ref name => exact absurd hk (href name)
  | call target arguments => exact absurd hk (hcall target arguments)
  | deferred =>
    rw [hk] at h
    cases h
  | _ =>
    rw [hk] at h
    exact List.all_eq_true.1 h

end Node

/-- A new node takes over the flags and annotations of the one that it is made from. -/
theorem Node.of_inherit {n : Node} {kind : Kind Node} (hk : n.kind = kind) (hn : n.annotations.Sorted) :
    (Node.of kind).inherit n = n := by
  obtain ⟨k, ⟨optional, readonly⟩, annotations⟩ := n
  subst hk
  have hlist : Annotations.override [] annotations = annotations := Annotations.ofList_of_sorted hn
  simp [inherit, of, Modifiers.merge, Modifiers.plain, hlist]

variable {limits : Limits}

/-- An argument that refers to a parameter in scope depends on what is declared. -/
theorem State.dependsOnDeclared_of_mem {s : State} {n : Node} {name : String} (hname : name ∈ n.references)
    (hs : name ∈ s.declared) : s.dependsOnDeclared n = true := by
  rw [dependsOnDeclared, Bool.and_eq_true, List.any_eq_true]
  refine ⟨?_, name, hname, List.contains_iff_mem.2 hs⟩
  cases hd : s.declared with
  | nil =>
    rw [hd] at hs
    cases hs
  | cons => rfl

/-- **A declarative node stays as it is** in every context that binds none of the parameters in scope, under every state
that has them declared, whatever calls are in progress and however few may be.  By induction on the parts. -/
theorem run_of_isDeclarative {n : Node} {declared : List String} (hn : n.isDeclarative declared = true)
    (ho : n.isOrdered = true) {context : Context} (hcontext : ∀ name ∈ declared, context.get? name = none) {s : State}
    (hs : ∀ name ∈ declared, name ∈ s.declared) {fuel : Nat} (hroom : s.depth + n.height ≤ limits.maxDepth)
    (hfuel : n.height ≤ fuel) : run limits fuel context s n = .done n := by
  induction n using Node.induction_on_parts generalizing declared context s fuel with
  | node n ih =>
    have hpos := n.height_pos
    obtain ⟨fuel, rfl⟩ : ∃ k, fuel = k + 1 := ⟨fuel - 1, by omega⟩
    have hd : s.descend limits = .done { s with depth := s.depth + 1 } := by
      rw [State.descend, if_neg (by omega)]
    obtain ⟨hannotations, hparts⟩ := Node.isOrdered_iff.1 ho
    -- The same in what a part is instantiated in: perhaps fewer bindings, and more that is declared.
    have hpart : ∀ c ∈ n.children, ∀ (inner : Context) (t : State) (names : List String), c.isDeclarative names = true →
        (∀ name ∈ names, inner.get? name = none) → (∀ name ∈ names, name ∈ t.declared) → t.depth = s.depth + 1 →
        run limits fuel inner t c = .done c := fun c hc inner t names hdecl hinner hin hdepth => by
      have := Node.height_lt_of_mem_children hc
      exact ih c (Kind.mem_parts_of_mem_children hc) hdecl (hparts c hc) hinner hin (by omega) (by omega)
    rw [run_of_descend hd]
    cases hk : n.kind with
    | ref name =>
      rw [Node.isDeclarative_eq, hk] at hn
      simp only [step, hk, hcontext name (List.contains_iff_mem.1 hn)]
      rfl
    | deferred =>
      rw [Node.isDeclarative_eq, hk] at hn
      cases hn
    | cyclic definitions root => rw [step_of_bundle hk]
    | call target arguments =>
      rw [Node.isDeclarative_eq, hk, Bool.and_eq_true, List.all_eq_true, List.any_eq_true] at hn
      obtain ⟨hall, argument, hargument, hmentions⟩ := hn
      obtain ⟨name, hname, hscope⟩ := List.any_eq_true.1 hmentions
      have hchildren : n.children = target :: arguments := by rw [Node.children, hk]; rfl
      have hdone : arguments.mapM (run limits fuel context { s with depth := s.depth + 1 }) =
          .done (arguments.map fun c => c) :=
        Outcome.mapM_of_done fun c hc =>
          hpart c (hchildren ▸ List.mem_cons_of_mem _ hc) context _ declared (hall c hc) hcontext hs rfl
      have hopen : arguments.any (State.dependsOnDeclared { s with depth := s.depth + 1 }) = true :=
        List.any_eq_true.2 ⟨argument, hargument,
          State.dependsOnDeclared_of_mem hname (hs name (List.contains_iff_mem.1 hscope))⟩
      have hcall : call limits (run limits fuel) context { s with depth := s.depth + 1 } target arguments =
          .done (.call target arguments) := by
        rw [call, hdone, List.map_id', Outcome.done_bind, if_pos hopen]
        rfl
      rw [step_of_call hk, hcall]
      exact congrArg Outcome.done (Node.of_inherit hk hannotations)
    | generic parameters body =>
      have hchildren : n.children = n.kind.parts := by rw [Node.children, hk]; rfl
      have hdecl := Node.isDeclarative_children hn (by simp [hk]) (by simp [hk])
      have hdone : n.kind.traverse (run limits fuel (Fields.without context (parameters.map (·.name)))
          (State.declare { s with depth := s.depth + 1 } parameters)) = .done (n.kind.map fun c => c) := by
        refine Kind.traverse_of_done fun c hc => ?_
        rw [← hchildren] at hc
        rw [hk] at hdecl
        refine hpart c hc _ _ _ (hdecl c hc) (fun name hname => ?_) (fun name hname => ?_) rfl
        · rw [Fields.get?_without]
          split
          · rfl
          · exact hcontext name ((List.mem_append.1 hname).resolve_right ‹_›)
        · exact List.mem_append.2 ((List.mem_append.1 hname).imp (hs name) id)
      rw [Kind.map_id] at hdone
      have hstep : step limits (run limits fuel) context { s with depth := s.depth + 1 } n =
          n.kind.traverse (run limits fuel (Fields.without context (parameters.map (·.name)))
            (State.declare { s with depth := s.depth + 1 } parameters)) >>= fun kind => .done (n.rebuild kind) := by
        simp only [step, hk]
        rfl
      rw [hstep, hdone]
      exact congrArg Outcome.done n.rebuild_kind
    | _ =>
      have hstructural : n.kind.isStructural = true := by rw [hk]; rfl
      obtain ⟨hchildren, hdeclared, href⟩ := Node.form_of_isStructural hstructural
      have hdecl := Node.isDeclarative_children hn href (by simp [hk])
      rw [hdeclared, List.append_nil] at hdecl
      have hdone : n.kind.traverse (run limits fuel context { s with depth := s.depth + 1 }) =
          .done (n.kind.map fun c => c) :=
        Kind.traverse_of_done fun c hc => by
          rw [← hchildren] at hc
          exact hpart c hc context _ declared (hdecl c hc) hcontext hs rfl
      rw [step_of_isStructural hstructural, hdone, Kind.map_id]
      exact congrArg Outcome.done n.rebuild_kind

/-- **Declaring a generic expands nothing.**  A generic whose body, constraints and defaults are made of structures,
further generics of this kind, references to parameters in scope and calls that depend on some, is left as it is in every
context, whatever it binds, under every state and by every limit on calls, as soon as the depth limit has room for the
height of the generic. -/
theorem declaration_stays {n : Node} (hn : n.isDeclarative [] = true) (ho : n.isOrdered = true) {s : State}
    (hroom : s.depth + n.height ≤ limits.maxDepth) (context : Context) :
    instantiateWith limits context s n = .done n :=
  run_of_isDeclarative hn ho (by simp) (by simp) hroom (by rw [ampleFuel]; omega)

/-- A generic that calls itself and another one, which calls it back, with calls in the arguments of calls and in the
default of a parameter that hides an outer one; the context binds the names of the parameters too, and no call may be
expanded. -/
theorem declaration_stays_list :
    let inner : Node := .generic [.bounded "U" (.call (.reference "List") [.reference "T"]), .free "T"]
      (.object [("tree", .call (.reference "Tree") [.call (.reference "List") [.array (.reference "U")], .string]),
        ("own", .reference "T")])
    let list : Node := ⟨.generic [.free "T"] (.object [("item", .reference "T"),
      ("next", ⟨.call (.reference "List") [.reference "T"], ⟨true, false⟩, [("note", .null), ("title", .null)]⟩),
      ("inner", inner)]), .plain, [("title", .string "List")]⟩
    let tree : Node := .generic [.free "T"] (.array (.call (.reference "List") [.call (.reference "Tree") [.reference "T"]]))
    let context : Context := [("T", .string), ("U", .reference "T"), ("List", list), ("Tree", tree)]
    let limits : Limits := { maxDepth := 8, maxCallDepth := 0 }
    (list.isDeclarative [] = true ∧ list.isOrdered = true ∧ State.initial.depth + list.height ≤ limits.maxDepth) ∧
      instantiate limits context list = .done list := by
  intro inner list tree context limits
  have hlist : list.isDeclarative [] = true := by decide +kernel
  have hordered : list.isOrdered = true := by decide +kernel
  have hheight : list.height = 8 := by decide +kernel
  have hroom : State.initial.depth + list.height ≤ limits.maxDepth := by simp [hheight, limits, State.initial]
  exact ⟨⟨hlist, hordered, hroom⟩, declaration_stays hlist hordered hroom context⟩

end Schemata
