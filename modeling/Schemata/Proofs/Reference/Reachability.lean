import Schemata.Node.Build
import Schemata.Proofs.Node.Names
import Schemata.Proofs.Reference.Components
import Schemata.Proofs.Reference.Cycle
/-!
# Two analyses of cycles

The cycle check walks the references that a definition exposes, the reference graph follows all that it mentions.  Each
answers questions about reachability along its own relation:

- `meets_iff`: a walk meets a name again if it comes to a name of the path, or to a name that leads to itself;
- `ReferenceGraph.mem_closure_iff`: a closure is what is reachable;
- `ReferenceGraph.mem_groups_iff`: the groups consist of the names that lead to themselves.

What a definition exposes it mentions, and outside of generics the converse holds.  Main statement:
`isCyclic_iff_closure_meets_groups`.
-/
namespace Schemata

open Relation (ReflTransGen TransGen)

/-! ## The cycle check -/

/-- **One definition exposes another name.** -/
def Exposes (context : Context) (name next : String) : Prop := ∃ n, context.get? name = some n ∧ next ∈ n.exposed

theorem meets_of_reaches {context : Context} {path : List String} {n : Node} {name other : String}
    (hn : name ∈ n.exposed) (hr : ReflTransGen (Exposes context) name other) (ho : other ∈ path) :
    Meets context path n := by
  induction hr using ReflTransGen.head_induction_on generalizing path n with
  | refl => exact .here hn ho
  | head hstep _ ih =>
    obtain ⟨target, hb, he⟩ := hstep
    exact .there hn hb (ih he (List.mem_cons_of_mem _ ho))

theorem meets_of_cycle {context : Context} {path : List String} {n : Node} {name other : String}
    (hn : name ∈ n.exposed) (hr : ReflTransGen (Exposes context) name other)
    (hcycle : TransGen (Exposes context) other other) : Meets context path n := by
  induction hr using ReflTransGen.head_induction_on generalizing path n with
  | refl =>
    obtain ⟨next, ⟨target, hb, he⟩, hback⟩ := TransGen.head'_iff.1 hcycle
    exact .there hn hb (meets_of_reaches he hback List.mem_cons_self)
  | head hstep _ ih =>
    obtain ⟨target, hb, he⟩ := hstep
    exact .there hn hb (ih he)

/-- **A walk meets a name again** exactly if it comes to a name of the path, or to one that leads to itself. -/
theorem meets_iff {context : Context} {path : List String} {n : Node} :
    Meets context path n ↔ ∃ name ∈ n.exposed, ∃ other, ReflTransGen (Exposes context) name other ∧
      (other ∈ path ∨ TransGen (Exposes context) other other) := by
  constructor
  · intro h
    induction h with
    | @here path n name exposed again => exact ⟨name, exposed, name, .refl, .inl again⟩
    | @there path n target name exposed bound _ ih =>
      obtain ⟨next, hnext, other, hr, ho⟩ := ih
      have hstep : Exposes context name next := ⟨target, bound, hnext⟩
      refine ⟨name, exposed, other, .head hstep hr, ?_⟩
      rcases ho with ho | hcycle
      · rcases List.mem_cons.1 ho with rfl | ho
        · exact .inr (.head' hstep hr)
        · exact .inl ho
      · exact .inr hcycle
  · rintro ⟨name, hn, other, hr, ho | hcycle⟩
    · exact meets_of_reaches hn hr ho
    · exact meets_of_cycle hn hr hcycle

/-- **A name is cyclic** exactly if it leads to a name that leads to itself. -/
theorem isCyclic_iff {context : Context} {name : String} :
    isCyclic context name = true ↔
      ∃ other, ReflTransGen (Exposes context) name other ∧ TransGen (Exposes context) other other := by
  rw [isCyclic]
  cases hn : context.get? name with
  | none =>
    simp only [Bool.false_eq_true, false_iff, not_exists, not_and]
    intro other hr hcycle
    -- An unbound name leads nowhere.
    have hstep : ∀ next, ¬ Exposes context name next := by
      rintro next ⟨n, hb, -⟩
      rw [hn] at hb
      cases hb
    rcases Relation.reflTransGen_iff_eq_or_transGen.1 hr with rfl | ht
    · obtain ⟨next, h, -⟩ := TransGen.head'_iff.1 hcycle
      exact hstep next h
    · obtain ⟨next, h, -⟩ := TransGen.head'_iff.1 ht
      exact hstep next h
  | some n =>
    simp only [leadsBack_iff, meets_iff]
    constructor
    · rintro ⟨next, hnext, other, hr, ho⟩
      have hstep : Exposes context name next := ⟨n, hn, hnext⟩
      rcases ho with ho | hcycle
      · rw [List.mem_singleton.1 ho] at hr
        exact ⟨name, .refl, .head' hstep hr⟩
      · exact ⟨other, .head hstep hr, hcycle⟩
    · rintro ⟨other, hr, hcycle⟩
      rcases Relation.reflTransGen_iff_eq_or_transGen.1 hr with rfl | ht
      · obtain ⟨next, ⟨m, hm, hnext⟩, hback⟩ := TransGen.head'_iff.1 hcycle
        rw [hn] at hm
        cases hm
        exact ⟨next, hnext, other, hback, .inr hcycle⟩
      · obtain ⟨next, ⟨m, hm, hnext⟩, hrest⟩ := TransGen.head'_iff.1 ht
        rw [hn] at hm
        cases hm
        exact ⟨next, hnext, other, hrest, .inr hcycle⟩

/-! ## Both analyses -/

def Kind.isGeneric {α : Type} : Kind α → Bool
  | .generic .. => true
  | _ => false

/-- Outside of generics all that a node mentions is exposed. -/
theorem mem_exposed_of_references {n : Node} (h : n.everywhere (fun kind => !kind.isGeneric) = true) {name : String}
    (hn : name ∈ n.references) : name ∈ n.exposed := by
  induction n using Node.induction_on_parts with
  | node n ih =>
    obtain ⟨hform, hparts⟩ := Node.everywhere_iff.1 h
    by_cases href : ∃ other, n.kind = .ref other
    · obtain ⟨other, hk⟩ := href
      rw [Node.references, Node.referencesUnder_eq, hk] at hn
      rw [Node.exposed_eq, hk]
      exact hn
    · obtain ⟨c, hc, hcn, -⟩ := (Node.mem_references_iff fun other hk => href ⟨other, hk⟩).1 hn
      have hpart := Kind.mem_parts_of_mem_children hc
      have hexposed := ih c hpart (hparts c hpart) hcn
      rw [Node.exposed_eq]
      obtain ⟨kind, modifiers, annotations⟩ := n
      cases kind with
      | ref other => exact absurd ⟨other, rfl⟩ href
      | generic => cases hform
      | _ => exact List.mem_flatMap.2 ⟨c, hc, hexposed⟩

theorem refers_ofContext_iff {context : Context} {name next : String} :
    (ReferenceGraph.ofContext context).Refers name next ↔ ∃ n, context.get? name = some n ∧ next ∈ n.references := by
  rw [ReferenceGraph.Refers, ReferenceGraph.successors_ofContext]
  cases context.get? name <;> simp

/-- A closure meets the groups exactly if it holds a name that leads to itself. -/
theorem closure_meets_groups_iff {context : Context} {name : String} (hb : context.has name = true) :
    (∃ group ∈ (ReferenceGraph.ofContext context).groups, ∃ member ∈ group,
        member ∈ (ReferenceGraph.ofContext context).closure name) ↔
      ∃ other, ReflTransGen (ReferenceGraph.ofContext context).Refers name other ∧
        TransGen (ReferenceGraph.ofContext context).Refers other other := by
  have hc := ReferenceGraph.complete_ofContext context
  have hnd := ReferenceGraph.nodup_names_ofContext context
  have hn : name ∈ (ReferenceGraph.ofContext context).names :=
    mem_distinct.2 (List.mem_append_left _ (Fields.mem_names_iff.2 hb))
  constructor
  · rintro ⟨group, hg, member, hm, hreach⟩
    have hr := (ReferenceGraph.mem_closure_iff hc hn).1 hreach
    have hmember := ReferenceGraph.mem_names_of_reaches hc hn hr
    exact ⟨member, hr, (ReferenceGraph.mem_groups_iff hc hnd hmember).1 ⟨group, hg, hm⟩⟩
  · rintro ⟨other, hr, hcycle⟩
    have hother := ReferenceGraph.mem_names_of_reaches hc hn hr
    obtain ⟨group, hg, hm⟩ := (ReferenceGraph.mem_groups_iff hc hnd hother).2 hcycle
    exact ⟨group, hg, other, hm, (ReferenceGraph.mem_closure_iff hc hn).2 hr⟩

/-- **The two analyses of cycles agree.**  If the check finds a bound name cyclic, the closure of the name meets a group
of the reference graph; where no generic occurs, the converse holds as well. -/
theorem isCyclic_iff_closure_meets_groups {context : Context} {name : String} (hb : context.has name = true) :
    (isCyclic context name = true →
      ∃ group ∈ (ReferenceGraph.ofContext context).groups, ∃ member ∈ group,
        member ∈ (ReferenceGraph.ofContext context).closure name) ∧
    ((∀ e ∈ context, e.2.everywhere (fun kind => !kind.isGeneric) = true) →
      (isCyclic context name = true ↔
        ∃ group ∈ (ReferenceGraph.ofContext context).groups, ∃ member ∈ group,
          member ∈ (ReferenceGraph.ofContext context).closure name)) := by
  rw [closure_meets_groups_iff hb, isCyclic_iff]
  have hforward : ∀ {x y}, Exposes context x y → (ReferenceGraph.ofContext context).Refers x y :=
    fun ⟨n, hn, hy⟩ => refers_ofContext_iff.2 ⟨n, hn, mem_references_of_exposed hy⟩
  have hcyclic : (∃ other, ReflTransGen (Exposes context) name other ∧ TransGen (Exposes context) other other) →
      ∃ other, ReflTransGen (ReferenceGraph.ofContext context).Refers name other ∧
        TransGen (ReferenceGraph.ofContext context).Refers other other :=
    fun ⟨other, hr, hcycle⟩ =>
      ⟨other, ReflTransGen.mono (fun _ _ => hforward) _ _ hr, TransGen.mono (fun _ _ => hforward) _ _ hcycle⟩
  refine ⟨hcyclic, fun hplain => ⟨hcyclic, ?_⟩⟩
  have hbackward : ∀ {x y}, (ReferenceGraph.ofContext context).Refers x y → Exposes context x y := by
    intro x y h
    obtain ⟨n, hn, hy⟩ := refers_ofContext_iff.1 h
    exact ⟨n, hn, mem_exposed_of_references (hplain _ (Fields.mem_of_get? hn)) hy⟩
  exact fun ⟨other, hr, hcycle⟩ =>
    ⟨other, ReflTransGen.mono (fun _ _ => hbackward) _ _ hr, TransGen.mono (fun _ _ => hbackward) _ _ hcycle⟩

/-- A name that only leads into a cycle, and refers to a name that nothing binds. -/
theorem isCyclic_iff_closure_meets_groups_entry :
    let context : Context := [("Entry", .object [("ring", .reference "Left"), ("gone", .reference "Gone")]),
      ("Left", .array (.reference "Right")), ("Right", .object [("back", .reference "Left")])]
    context.has "Entry" = true ∧ (∀ e ∈ context, e.2.everywhere (fun kind => !kind.isGeneric) = true) ∧
      (isCyclic context "Entry" = true ↔
        ∃ group ∈ (ReferenceGraph.ofContext context).groups, ∃ member ∈ group,
          member ∈ (ReferenceGraph.ofContext context).closure "Entry") := by
  intro context
  have hb : context.has "Entry" = true := by decide
  have hplain : ∀ e ∈ context, e.2.everywhere (fun kind => !kind.isGeneric) = true := by decide +kernel
  exact ⟨hb, hplain, (isCyclic_iff_closure_meets_groups hb).2 hplain⟩

end Schemata
