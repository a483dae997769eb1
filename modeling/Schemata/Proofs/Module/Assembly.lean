import Schemata.Proofs.Instantiation.Nesting
import Schemata.Proofs.Module.Reading
import Schemata.Proofs.Node.Names
import Schemata.Proofs.Reference.Closure
import Schemata.Proofs.Reference.Cycle
/-!
# Assembling modules keeps their meaning

In a module of plain definitions, a definition that leads back somewhere is packed with all candidates that it reaches,
and any other is unfolded completely.  Inside a bundle, what is no candidate reaches no candidate, so it is unfolded
completely as well, and what is left are references to members and to names that nothing binds.

Main statement: `module_keeps_meaning`, each definition denotes the same tree before and after.
-/
namespace Schemata

/-- Whether a node of this form refers to others by references only. -/
def Kind.isReferenceOnly : Kind Node → Bool
  | .call .. | .deferred .. | .generic .. | .parameter _ | .cyclic .. => false
  | _ => true

/-- **No definition applies, binds or bundles anything.** -/
def Context.ReferenceOnly (context : Context) : Prop := ∀ e ∈ context, e.2.everywhere Kind.isReferenceOnly = true

/-! ## References that are exposed -/

theorem mem_exposed_of_part {n c : Node} (h : n.kind.isReferenceOnly = true) (hc : c ∈ n.kind.parts) {name : String}
    (hn : name ∈ c.exposed) : name ∈ n.exposed := by
  obtain ⟨kind, modifiers, annotations⟩ := n
  rw [Node.exposed_eq]
  cases kind with
  | ref | primitive | literal => cases hc
  | call | deferred | generic | parameter | cyclic => cases h
  | _ => exact List.mem_flatMap.2 ⟨c, hc, hn⟩

/-! ## Runs unfold -/

section
variable {limits : Limits} {context : Context} {kept : List String}

/-- A name that does not lead back in a context does not in a part of it. -/
theorem not_leadsBack_without {name : String} {target : Node} (hn : context.get? name = some target)
    (h : isCyclic context name = false) : leadsBack [name] (context.without kept) target = false := by
  rw [isCyclic, hn] at h
  rw [Bool.eq_false_iff] at h ⊢
  refine fun hl => h ((leadsBack_iff _ _ _).2 (((leadsBack_iff _ _ _).1 hl).mono (fun other n ho => ?_) fun _ h => h))
  rw [Fields.get?_without] at ho
  split at ho
  · cases ho
  · exact ho

/-- **A run in a context without kept candidates unfolds the context around them**, by induction on the fuel.  What
mentions no candidate is unfolded until reading stops. -/
theorem unfolds_of_run (hplain : context.ReferenceOnly) (hkept : ∀ name ∈ kept, isCyclic context name = true)
    {fuel : Nat} {s : State} {n m : Node} (hn : n.everywhere Kind.isReferenceOnly = true)
    (hexposed : ∀ name ∈ n.exposed, name ∈ kept ∨ isCyclic context name = false)
    (h : run limits fuel (context.without kept) s n = .done m) :
    Unfolds context kept n m ∧ ((∀ name ∈ n.exposed, isCyclic context name = false) → Stops context m) := by
  induction fuel generalizing s n m with
  | zero => cases h
  | succ fuel ih =>
    rw [run] at h
    obtain ⟨s, -, h⟩ := Outcome.bind_eq_done.1 h
    obtain ⟨hform, hparts⟩ := Node.everywhere_iff.1 hn
    by_cases href : ∃ name, n.kind = .ref name
    · obtain ⟨name, hk⟩ := href
      have hmem : name ∈ n.exposed := by
        rw [Node.exposed_eq, hk]
        exact List.mem_singleton_self name
      rw [step, hk] at h
      simp only [Fields.get?_without] at h
      by_cases hname : name ∈ kept
      · rw [if_pos hname] at h
        cases h
        refine ⟨.leaf hk (.inl hname), fun hall => ?_⟩
        have := hall name hmem
        rw [hkept name hname] at this
        cases this
      · rw [if_neg hname] at h
        cases ht : context.get? name with
        | none =>
          rw [ht] at h
          cases h
          refine ⟨.leaf hk (.inr ht), fun _ => ?_⟩
          rw [Stops, hk]
          exact ht
        | some target =>
          have hclear : isCyclic context name = false := (hexposed name hmem).resolve_left hname
          rw [ht] at h
          simp only [not_leadsBack_without ht hclear] at h
          obtain ⟨r, hr, h⟩ := Outcome.bind_eq_done.1 h
          cases h
          have hbelow := isCyclic_eq_false_of_exposed ht hclear
          obtain ⟨hu, hstops⟩ := ih (hplain _ (Fields.mem_of_get? ht)) (fun next hnext => .inr (hbelow next hnext)) hr
          exact ⟨.follow hk hname ht hu (hstops hbelow), fun _ => (hstops hbelow).inherit n⟩
    · have hstruct : n.kind.isStructural = true ∧ Stops [] n := by
        obtain ⟨kind, modifiers, annotations⟩ := n
        cases kind with
        | ref name => exact absurd ⟨name, rfl⟩ href
        | call | deferred | generic | parameter | cyclic => cases hform
        | _ => exact ⟨rfl, trivial⟩
      have hnoref : ∀ name, n.kind ≠ .ref name := fun name hk => href ⟨name, hk⟩
      rw [step_of_isStructural hstruct.1] at h
      obtain ⟨kind, hkind, h⟩ := Outcome.bind_eq_done.1 h
      cases h
      obtain ⟨hshape, hall⟩ := Kind.forall₂_of_traverse hkind
      refine ⟨.parts hstruct.2 hnoref hshape hall.length_eq.symm fun i c d hc hd => ?_,
        fun _ => (stops_rebuild hstruct.2 hnoref hshape context).1⟩
      have hmem : c ∈ n.kind.parts := List.mem_of_getElem? hc
      have hcd : run limits fuel (context.without kept) s c = .done d := rel_of_getElem? hall hc hd
      exact (ih (hparts c hmem) (fun name hname => hexposed name (mem_exposed_of_part hform hmem hname)) hcd).1

end

/-! ## Bundles -/

/-- The definitions that a candidate is packed with, itself first. -/
def membersOf (graph : ReferenceGraph) (candidates : List String) (name : String) : List String :=
  name :: (graph.closure name).filter fun member => member != name && candidates.contains member

theorem mem_membersOf {graph : ReferenceGraph} {candidates : List String} {name member : String} :
    member ∈ membersOf graph candidates name ↔
      member = name ∨ member ∈ graph.closure name ∧ member ∈ candidates := by
  rw [membersOf, List.mem_cons, List.mem_filter]
  by_cases h : member = name
  · simp [h]
  · simp [h]

/-- **A packed definition** is a bundle of its members, each instantiated while all of them are hidden. -/
theorem package_done {evaluate : Evaluator} {scope : Context} {graph : ReferenceGraph} {candidates : List String}
    {name : String} {o : Node} (h : package evaluate scope graph candidates name = .done o) :
    ∃ definitions : Fields Node, o = .cyclic definitions name ∧
      definitions.names = membersOf graph candidates name ∧
      ∀ e ∈ definitions, ∃ body, scope.get? e.1 = some body ∧
        evaluate (scope.without (membersOf graph candidates name)) .initial body = .done e.2 := by
  obtain ⟨definitions, hd, h⟩ := Outcome.bind_eq_done.1 h
  cases h
  refine ⟨definitions, rfl, Outcome.names_of_mapM (fun member e he => ?_) hd, fun e he => ?_⟩
  · cases hb : scope.get? member with
    | none =>
      rw [hb] at he
      cases he
    | some body =>
      rw [hb] at he
      obtain ⟨r, -, he⟩ := Outcome.bind_eq_done.1 he
      cases he
      rfl
  · obtain ⟨member, -, hm⟩ := Outcome.exists_of_mem_mapM hd he
    cases hb : scope.get? member with
    | none =>
      rw [hb] at hm
      cases hm
    | some body =>
      rw [hb] at hm
      obtain ⟨r, hr, hm⟩ := Outcome.bind_eq_done.1 hm
      cases hm
      exact ⟨body, hb, hr⟩

/-- **An assembled module**: candidates are packed, all other definitions instantiated by themselves. -/
theorem assemble_done {evaluate : Evaluator} {scope : Context} {names : List String} {out : Context}
    (h : assemble evaluate scope names = .done out) :
    Fields.names out = names ∧ ∀ e ∈ out, ∃ n, scope.get? e.1 = some n ∧
      if (candidatesOf scope names).contains e.1 then
        package evaluate scope (.ofContext scope) (candidatesOf scope names) e.1 = .done e.2
      else evaluate scope .initial n = .done e.2 := by
  refine ⟨Outcome.names_of_mapM (fun name e he => ?_) h, fun e he => ?_⟩
  · cases hn : scope.get? name with
    | none =>
      rw [hn] at he
      cases he
    | some n =>
      rw [hn] at he
      simp only at he
      split at he <;>
        · obtain ⟨r, -, he⟩ := Outcome.bind_eq_done.1 he
          cases he
          rfl
  · obtain ⟨name, -, hm⟩ := Outcome.exists_of_mem_mapM h he
    cases hn : scope.get? name with
    | none =>
      rw [hn] at hm
      cases hm
    | some n =>
      rw [hn] at hm
      simp only at hm
      split at hm
      · rename_i hc
        obtain ⟨r, hr, hm⟩ := Outcome.bind_eq_done.1 hm
        cases hm
        refine ⟨n, hn, ?_⟩
        rw [if_pos hc]
        exact hr
      · rename_i hc
        obtain ⟨r, hr, hm⟩ := Outcome.bind_eq_done.1 hm
        cases hm
        refine ⟨n, hn, ?_⟩
        rw [if_neg hc]
        exact hr

/-! ## Closed bundles -/

/-- **What a definition refers to after assembly**: a bundle to its own definitions and to names that nothing binds, and
nothing else is bundled. -/
def SelfContained (context : Context) (n : Node) : Prop :=
  match n.kind with
  | .cyclic definitions _ => ∀ e ∈ definitions, e.2.everywhere Kind.isReferenceOnly = true ∧
      ∀ name ∈ e.2.references, Fields.has definitions name = true ∨ context.get? name = none
  | _ => n.everywhere Kind.isReferenceOnly = true

theorem isReferenceOnly_of_shape {kind other : Kind Node} (h : kind.shape = other.shape) :
    kind.isReferenceOnly = other.isReferenceOnly := by
  cases kind <;> cases other <;> first | rfl | cases h

/-- An unfolding refers to kept names and to names that nothing binds. -/
theorem Unfolds.references {context : Context} {kept : List String} (hplain : context.ReferenceOnly) {n m : Node}
    (h : Unfolds context kept n m) (hn : n.everywhere Kind.isReferenceOnly = true) :
    m.everywhere Kind.isReferenceOnly = true ∧
      ∀ hidden, ∀ name ∈ m.referencesUnder hidden, name ∈ kept ∨ context.get? name = none := by
  induction h with
  | @leaf n name hk stays =>
    refine ⟨hn, fun hidden other ho => ?_⟩
    rw [Node.referencesUnder_eq, hk] at ho
    simp only at ho
    split at ho
    · cases ho
    · rw [List.mem_singleton.1 ho]
      exact stays
  | @follow n target m name hk passes bound next stops ih =>
    obtain ⟨hm, hrefs⟩ := ih (hplain _ (Fields.mem_of_get? bound))
    refine ⟨?_, fun hidden other ho => hrefs hidden other ?_⟩
    · rw [Node.everywhere_eq] at hm ⊢
      exact hm
    · rw [Node.referencesUnder_eq] at ho ⊢
      exact ho
  | @parts n kind stops noref shape length each ih =>
    obtain ⟨hform, hparts⟩ := Node.everywhere_iff.1 hn
    have hpart : ∀ d ∈ kind.parts, d.everywhere Kind.isReferenceOnly = true ∧
        ∀ hidden, ∀ name ∈ d.referencesUnder hidden, name ∈ kept ∨ context.get? name = none := by
      intro d hd
      obtain ⟨i, hi⟩ := List.mem_iff_getElem?.1 hd
      obtain ⟨c, hc⟩ := Assembled.exists_part length hi
      exact ih i c d hc hi (hparts c (List.mem_of_getElem? hc))
    refine ⟨Node.everywhere_iff.2 ⟨(isReferenceOnly_of_shape shape).trans hform, fun d hd => (hpart d hd).1⟩, ?_⟩
    intro hidden name hname
    rw [Node.referencesUnder_eq] at hname
    have hnoref := (stops_rebuild stops noref shape []).2
    simp only [Node.rebuild] at hname
    obtain ⟨d, hd, hname⟩ := List.mem_flatMap.1 (mem_distinct.1 hname)
    exact (hpart d (Kind.mem_parts_of_mem_children hd)).2 _ name hname

/-! ## Modules -/

section
variable {limits : Limits} {context : Context}

theorem mem_candidates {name : String} :
    name ∈ candidatesOf context context.names ↔ isCyclic context name = true := by
  rw [candidatesOf, List.mem_filter, and_iff_right_iff_imp]
  intro h
  rw [Fields.mem_names_iff, Fields.has]
  cases hn : context.get? name with
  | none => simp [isCyclic, hn] at h
  | some n => rfl

/-- **A bundle in a module unfolds the context around its members.** -/
theorem assembled_of_package (hplain : context.ReferenceOnly) {fuel : Nat} {name : String}
    (hname : isCyclic context name = true) {o : Node}
    (h : package (run limits fuel) context (.ofContext context) (candidatesOf context context.names) name = .done o) :
    ∃ kept definitions, o = .cyclic definitions name ∧ name ∈ kept ∧ Fields.names definitions = kept ∧
      Assembled context kept definitions ∧
      ∀ e ∈ definitions, ∃ body, context.get? e.1 = some body ∧ Unfolds context kept body e.2 := by
  obtain ⟨definitions, rfl, hnames, hbodies⟩ := package_done h
  generalize hk : membersOf (.ofContext context) (candidatesOf context context.names) name = kept at hnames hbodies
  have hmem : ∀ {member}, member ∈ kept ↔ member = name ∨
      member ∈ (ReferenceGraph.ofContext context).closure name ∧ isCyclic context member = true := by
    intro member
    rw [← hk, mem_membersOf, mem_candidates]
  have hgraph : name ∈ (ReferenceGraph.ofContext context).names := by
    refine mem_distinct.2 (List.mem_append_left _ ?_)
    have : name ∈ candidatesOf context context.names := mem_candidates.2 hname
    exact (List.mem_filter.1 this).1
  have hkept : ∀ member ∈ kept, isCyclic context member = true := by
    intro member hm
    rcases hmem.1 hm with rfl | ⟨-, hc⟩
    · exact hname
    · exact hc
  have hreached : ∀ member ∈ kept, member ∈ (ReferenceGraph.ofContext context).closure name := by
    intro member hm
    rcases hmem.1 hm with rfl | ⟨hc, -⟩
    · exact ReferenceGraph.mem_closure_self hgraph
    · exact hc
  have hunfolds : ∀ e ∈ definitions, ∃ body, context.get? e.1 = some body ∧ Unfolds context kept body e.2 := by
    intro e he
    obtain ⟨body, hbody, hrun⟩ := hbodies e he
    refine ⟨body, hbody, ?_⟩
    refine (unfolds_of_run hplain hkept (hplain _ (Fields.mem_of_get? hbody)) (fun next hnext => ?_) hrun).1
    -- A candidate that a member mentions is reached from the root too, so it is a member.
    by_cases hc : isCyclic context next = true
    · have hmember : e.1 ∈ kept := by
        rw [← hnames]
        exact List.mem_map_of_mem he
      refine .inl (hmem.2 (.inr ⟨?_, hc⟩))
      refine ReferenceGraph.mem_closure_of_successor (ReferenceGraph.complete_ofContext context) (hreached _ hmember) ?_
      rw [ReferenceGraph.successors_ofContext, hbody]
      exact mem_references_of_exposed hnext
    · exact .inr (Bool.eq_false_iff.2 hc)
  refine ⟨kept, definitions, rfl, hmem.2 (.inl rfl), hnames, ⟨fun member hm => ?_, fun member hm => ?_⟩, hunfolds⟩
  · rw [← hnames, Fields.mem_names_iff, Fields.has, Option.isSome_iff_exists] at hm
    obtain ⟨unfolded, hu⟩ := hm
    obtain ⟨body, hbody, hunf⟩ := hunfolds _ (Fields.mem_of_get? hu)
    exact ⟨body, unfolded, hbody, hu, hunf⟩
  · rw [← hnames, Fields.mem_names_iff, Fields.has, Bool.not_eq_true, Option.isSome_eq_false_iff,
      Option.isNone_iff_eq_none] at hm
    exact hm

theorem unfolds_of_not_candidate (hplain : context.ReferenceOnly) {fuel : Nat} {name : String} {n m : Node}
    (hn : context.get? name = some n) (hname : isCyclic context name = false)
    (h : run limits fuel context .initial n = .done m) : Unfolds context [] n m ∧ Stops context m := by
  have hbelow := isCyclic_eq_false_of_exposed hn hname
  have hwithout : context.without [] = context := by simp [Fields.without]
  rw [← hwithout] at h
  have hall := unfolds_of_run hplain (fun _ h => by cases h) (hplain _ (Fields.mem_of_get? hn))
    (fun next hnext => .inr (hbelow next hnext)) h
  exact ⟨hall.1, hall.2 hbelow⟩

/-- What comes of a definition keeps its tree. -/
theorem shows_iff_of_package (hplain : context.ReferenceOnly) {fuel : Nat} {name : String} {n o : Node}
    (hn : context.get? name = some n) (hname : isCyclic context name = true)
    (h : package (run limits fuel) context (.ofContext context) (candidatesOf context context.names) name = .done o)
    (path : List Nat) (sight : Sight) : Shows context n path sight ↔ Shows [] o path sight := by
  obtain ⟨kept, definitions, rfl, hroot, -, hassembled, -⟩ := assembled_of_package hplain hname h
  have hself : Unfolds context kept (.reference name) (.reference name) := .leaf rfl (.inl hroot)
  calc Shows context n path sight
      ↔ Shows context (.reference name) path sight := (shows_reference hn path sight).symm
    _ ↔ Shows definitions (.reference name) path sight := hassembled.shows_iff hself path sight
    _ ↔ Shows [] (.cyclic definitions name) path sight := (shows_bundle [] definitions name path sight).symm

theorem selfContained_of_package (hplain : context.ReferenceOnly) {fuel : Nat} {name : String} {o : Node}
    (hname : isCyclic context name = true)
    (h : package (run limits fuel) context (.ofContext context) (candidatesOf context context.names) name = .done o) :
    SelfContained context o := by
  obtain ⟨kept, definitions, rfl, -, hnames, -, hunfolds⟩ := assembled_of_package hplain hname h
  intro e he
  obtain ⟨body, hbody, hu⟩ := hunfolds e he
  obtain ⟨hform, hrefs⟩ := hu.references hplain (hplain _ (Fields.mem_of_get? hbody))
  refine ⟨hform, fun other ho => (hrefs [] other ho).imp (fun hk => ?_) id⟩
  rw [← Fields.mem_names_iff, hnames]
  exact hk

theorem selfContained_of_plain {n : Node} (h : n.everywhere Kind.isReferenceOnly = true) : SelfContained context n := by
  obtain ⟨kind, modifiers, annotations⟩ := n
  cases kind with
  | cyclic => cases (Node.everywhere_iff.1 h).1
  | _ => exact h

theorem assembled_nil (context : Context) : Assembled context [] [] :=
  ⟨fun _ h => absurd h List.not_mem_nil, fun _ _ => rfl⟩

/-- **Assembly keeps the meaning of a module** of plain definitions: the names and their order, the tree that each
definition denotes, and every bundle is closed. -/
theorem module_keeps_meaning (hplain : context.ReferenceOnly) {out : Context}
    (h : instantiateModule limits context = .done out) :
    Fields.names out = context.names ∧
    (∀ name n o, context.get? name = some n → Fields.get? out name = some o →
      ∀ path sight, Shows context n path sight ↔ Shows [] o path sight) ∧
    (∀ name o, Fields.get? out name = some o → SelfContained context o) := by
  obtain ⟨hnames, hdone⟩ := assemble_done h
  have hcases : ∀ name o, Fields.get? out name = some o → ∃ n, context.get? name = some n ∧
      (isCyclic context name = true ∧ package (run limits (ampleFuel limits)) context (.ofContext context)
          (candidatesOf context context.names) name = .done o ∨
        isCyclic context name = false ∧ run limits (ampleFuel limits) context .initial n = .done o) := by
    intro name o ho
    obtain ⟨n, hn, hd⟩ := hdone _ (Fields.mem_of_get? ho)
    refine ⟨n, hn, ?_⟩
    cases hc : isCyclic context name with
    | true =>
      rw [if_pos (List.contains_iff_mem.2 (mem_candidates.2 hc))] at hd
      exact .inl ⟨rfl, hd⟩
    | false =>
      have hnot : ¬ (candidatesOf context context.names).contains name = true := fun hmem => by
        rw [mem_candidates.1 (List.contains_iff_mem.1 hmem)] at hc
        cases hc
      rw [if_neg hnot] at hd
      exact .inr ⟨rfl, hd⟩
  refine ⟨hnames, fun name n o hn ho path sight => ?_, fun name o ho => ?_⟩
  · obtain ⟨n', hn', ⟨hc, hd⟩ | ⟨hc, hd⟩⟩ := hcases name o ho
    · exact shows_iff_of_package hplain hn hc hd path sight
    · rw [hn] at hn'
      cases hn'
      exact (assembled_nil context).shows_iff (unfolds_of_not_candidate hplain hn hc hd).1 path sight
  · obtain ⟨n, hn, ⟨hc, hd⟩ | ⟨hc, hd⟩⟩ := hcases name o ho
    · exact selfContained_of_package hplain hc hd
    · have hu := (unfolds_of_not_candidate hplain hn hc hd).1
      exact selfContained_of_plain (hu.references hplain (hplain _ (Fields.mem_of_get? hn))).1

end

/-- A list of items, packed into a bundle around the items' own definition. -/
theorem module_keeps_meaning_list :
    let list : Node := .object [("item", .reference "Item"), ("next", .reference "List")]
    let bundle : Node := .cyclic [("List", .object [("item", .string), ("next", .reference "List")])] "List"
    let context : Context := [("List", list), ("Item", .string)]
    context.ReferenceOnly ∧ instantiateModule {} context = .done [("List", bundle), ("Item", .string)] ∧
      ∀ path sight, Shows context list path sight ↔ Shows [] bundle path sight := by
  intro list bundle context
  have hplain : context.ReferenceOnly := by
    intro e he
    simp only [context, List.mem_cons, List.not_mem_nil, or_false] at he
    rcases he with rfl | rfl <;> decide +kernel
  have hdone : instantiateModule {} context = .done [("List", bundle), ("Item", .string)] := by
    subst context bundle list
    with_unfolding_all rfl
  exact ⟨hplain, hdone, (module_keeps_meaning hplain hdone).2.1 "List" list bundle rfl rfl⟩

end Schemata
