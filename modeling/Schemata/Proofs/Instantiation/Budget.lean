import Schemata.Proofs.Instantiation.Resolution
import Schemata.Proofs.Module.Assembly
/-!
# How much depth resolution takes

A reference is followed only where nothing leads back, so no name is followed twice on the way down.  Each name pays for
its definition once: going down costs at most the height of the node and the heights of all definitions together,
whatever the references look like.

- `Context.heights`: the heights of all definitions, added up.
- `Node.height`: the nodes on the longest path downward.

Main statement: `done_of_heights_le`.  With this much depth nodes, modules and bundles of a plain context are done.
-/
namespace Schemata

/-! ## The budget -/

/-- **The heights of all definitions of a context, added up.** -/
def Context.heights (context : Context) : Nat := context.foldr (fun e total => e.2.height + total) 0

theorem heights_eq_total (context : Context) : context.heights = Fields.total Node.height context := rfl

theorem heights_without_le (context : Context) {hidden more : List String} (h : ∀ name ∈ hidden, name ∈ more) :
    Context.heights (context.without more) ≤ Context.heights (context.without hidden) := by
  rw [heights_eq_total, heights_eq_total]
  exact Fields.total_without_le Node.height context h

/-- **A name that is followed pays for its definition.** -/
theorem height_add_heights_without_le {context : Context} {name : String} {n : Node} {hidden : List String}
    (hb : context.get? name = some n) (hn : name ∉ hidden) :
    n.height + Context.heights (context.without (name :: hidden)) ≤ Context.heights (context.without hidden) := by
  rw [heights_eq_total, heights_eq_total]
  exact Fields.add_total_without_le Node.height hb hn

theorem height_add_heights_le {context : Context} {name : String} {n : Node} {hidden : List String}
    (hb : context.get? name = some n) (hn : name ∈ hidden) :
    n.height + Context.heights (context.without hidden) ≤ context.heights := by
  have hpay : n.height + Context.heights (context.without [name]) ≤ Context.heights (context.without []) :=
    height_add_heights_without_le hb (by simp)
  have hfewer : Context.heights (context.without hidden) ≤ Context.heights (context.without [name]) :=
    heights_without_le context fun other ho => List.mem_singleton.1 ho ▸ hn
  rw [Fields.without_nil] at hpay
  omega

namespace Node

theorem le_foldr_max {a : Nat} {xs : List Nat} (h : a ∈ xs) : a ≤ xs.foldr max 0 := by
  induction xs with
  | nil => cases h
  | cons x xs ih =>
    rw [List.foldr_cons]
    rcases List.mem_cons.1 h with rfl | h
    · exact Nat.le_max_left _ _
    · exact Nat.le_trans (ih h) (Nat.le_max_right _ _)

theorem height_pos (n : Node) : 0 < n.height := by
  rw [height_eq]
  omega

theorem height_lt_of_mem_children {n c : Node} (h : c ∈ n.children) : c.height < n.height := by
  have := le_foldr_max (List.mem_map_of_mem (f := height) h)
  rw [height_eq n]
  omega

end Node

/-! ## Resolution within the budget -/

theorem Meets.of_exposed {context : Context} {path : List String} {n other : Node}
    (h : ∀ name ∈ n.exposed, name ∈ other.exposed) (hm : Meets context path n) : Meets context path other := by
  cases hm with
  | here exposed again => exact .here (h _ exposed) again
  | there exposed bound rest => exact .there (h _ exposed) bound rest

theorem exposed_of_structural {n c : Node} (hs : n.kind.isStructural = true) (hn : n.isPlain = true)
    (hc : c ∈ n.kind.parts) : ∀ name ∈ c.exposed, name ∈ n.exposed := by
  intro name hname
  refine mem_exposed_of_part ?_ hc hname
  have hform := (Node.isPlain_iff.1 hn).1
  cases hk : n.kind with
  | call | deferred | generic | parameter =>
    rw [hk] at hform
    cases hform
  | cyclic =>
    rw [hk] at hs
    cases hs
  | _ => rfl

/-- **Everything resolves within the budget**, by induction on it.  The names followed so far are used up; unless there
are none, nothing leads back to them. -/
theorem exists_resolves {context : Context} (hplain : context.Plain) {k : Nat} {used : List String} {n : Node}
    (hn : n.isPlain = true) (hused : used = [] ∨ ¬ Meets context used n)
    (hk : n.height + Context.heights (context.without used) ≤ k) : ∃ m, Resolves context k n m := by
  induction k generalizing used n with
  | zero =>
    have := n.height_pos
    omega
  | succ k ih =>
    rcases Node.isPlain_cases hn with ⟨definitions, root, hkind⟩ | ⟨name, hkind⟩ | ⟨hstructural, hparts⟩
    · exact ⟨n, .bundle hkind⟩
    · by_cases hstays : Stays context name
      · exact ⟨n, .stays hkind hstays⟩
      obtain ⟨target, hbound, hclear⟩ := not_stays_iff.1 hstays
      have hexposed : name ∈ n.exposed := by
        rw [Node.exposed_eq, hkind]
        exact List.mem_singleton_self name
      have hnext : ¬ Meets context (name :: used) target := by
        rcases hused with rfl | hused
        · rw [← leadsBack_iff, hclear]
          exact Bool.false_ne_true
        · exact fun hm => hused (.there hexposed hbound hm)
      have hnew : name ∉ used := by
        rcases hused with rfl | hused
        · exact List.not_mem_nil
        · exact fun hm => hused (.here hexposed hm)
      have hpay := height_add_heights_without_le hbound hnew
      have hheight := n.height_pos
      obtain ⟨m, hm⟩ := ih (hplain name target hbound) (.inr hnext) (by omega)
      exact ⟨m.inherit n, .follows hkind hbound hclear hm⟩
    · have heach : ∀ c, ∃ d, c ∈ n.kind.parts → Resolves context k c d := fun c => by
        by_cases hc : c ∈ n.kind.parts
        · have hlt : c.height < n.height :=
            Node.height_lt_of_mem_children (by rwa [Node.children, Kind.children_of_isStructural hstructural])
          have hfree : used = [] ∨ ¬ Meets context used c :=
            hused.imp_right fun hnot hm => hnot (hm.of_exposed (exposed_of_structural hstructural hn hc))
          obtain ⟨d, hd⟩ := ih (hparts c hc) hfree (by omega)
          exact ⟨d, fun _ => hd⟩
        · exact ⟨c, fun h => absurd h hc⟩
      choose after hafter using heach
      exact ⟨_, .parts (Kind.map_id n.kind).symm hstructural hafter⟩

/-! ## Runs within the budget -/

theorem Outcome.exists_bind {α β : Type} {x : Outcome α} {f : α → Outcome β} (hx : ∃ a, x = .done a)
    (hf : ∀ a, ∃ b, f a = .done b) : ∃ b, (x >>= f) = .done b := by
  obtain ⟨a, rfl⟩ := hx
  exact hf a

theorem Outcome.exists_mapM {α β : Type} {f : α → Outcome β} {xs : List α} (h : ∀ x ∈ xs, ∃ y, f x = .done y) :
    ∃ ys, xs.mapM f = .done ys := by
  induction xs with
  | nil => exact ⟨[], rfl⟩
  | cons x xs ih =>
    rw [List.mapM_cons]
    refine exists_bind (h x List.mem_cons_self) fun y => ?_
    exact exists_bind (ih fun z hz => h z (List.mem_cons_of_mem x hz)) fun ys => ⟨y :: ys, rfl⟩

theorem Fields.insert_of_get? {α : Type} {fields : Fields α} {name : String} {value : α}
    (h : fields.get? name = some value) : fields.insert name value = fields := by
  induction fields with
  | nil => cases h
  | cons e rest ih =>
    obtain ⟨old, kept⟩ := e
    rw [get?_cons] at h
    rw [insert]
    split
    · rename_i hold
      rw [if_pos hold] at h
      cases h
      rw [hold]
    · rename_i hold
      rw [if_neg hold] at h
      rw [ih h]

theorem Context.Plain.without {context : Context} (h : context.Plain) (hidden : List String) :
    Context.Plain (Fields.without context hidden) := by
  intro name n hn
  rw [Fields.get?_without] at hn
  split at hn
  · cases hn
  · exact h name n hn

section
variable {limits : Limits} {context : Context} {fuel : Nat} (hplain : context.Plain) (hfuel : limits.maxDepth ≤ fuel)
include hplain hfuel

theorem exists_run {used : List String} {n : Node} (hn : n.isPlain = true) (hused : used = [] ∨ ¬ Meets context used n)
    (hk : n.height + Context.heights (context.without used) ≤ limits.maxDepth) :
    ∃ m, run limits fuel context .initial n = .done m := by
  obtain ⟨m, hm⟩ := exists_resolves hplain hn hused hk
  exact ⟨m, hm.run_eq hfuel (by simp [State.initial])⟩

variable (hroom : context.heights ≤ limits.maxDepth)
include hroom

/-- A bundle hides its members, so each of them may use up the heights of what is left. -/
theorem exists_package {candidates : List String} {name : String} (hname : context.has name)
    (hbound : ∀ candidate ∈ candidates, context.has candidate) (graph : ReferenceGraph) :
    ∃ o, package (run limits fuel) context graph candidates name = .done o := by
  have hmembers : ∀ member ∈ membersOf graph candidates name, context.has member := by
    intro member hm
    rcases mem_membersOf.1 hm with rfl | ⟨-, hc⟩
    · exact hname
    · exact hbound member hc
  refine Outcome.exists_bind (Outcome.exists_mapM fun member hm => ?_) fun definitions => ⟨.cyclic definitions name, rfl⟩
  obtain ⟨body, hbody⟩ := Option.isSome_iff_exists.1 (hmembers member hm)
  have hbudget := height_add_heights_le hbody hm
  simp only [hbody]
  refine Outcome.exists_bind ?_ fun r => ⟨(member, r), rfl⟩
  refine exists_run (hplain.without _) hfuel (hplain member body hbody) (.inl rfl) ?_
  rw [Fields.without_nil]
  exact Nat.le_trans hbudget hroom

theorem exists_assemble {names : List String} (hnames : ∀ name ∈ names, context.has name) :
    ∃ out, assemble (run limits fuel) context names = .done out := by
  refine Outcome.exists_mapM fun name hname => ?_
  obtain ⟨n, hn⟩ := Option.isSome_iff_exists.1 (hnames name hname)
  simp only [hn]
  by_cases hc : (candidatesOf context names).contains name = true
  · rw [if_pos hc]
    refine Outcome.exists_bind ?_ fun o => ⟨(name, o), rfl⟩
    exact exists_package hplain hfuel hroom (hnames name hname)
      (fun candidate hc => hnames candidate (List.mem_filter.1 hc).1) _
  · rw [if_neg hc]
    refine Outcome.exists_bind ?_ fun r => ⟨(name, r), rfl⟩
    have hclear : ¬ Meets context [name] n := by
      intro hm
      have hcyclic : isCyclic context name = true := by
        rw [isCyclic, hn]
        exact (leadsBack_iff _ _ _).2 hm
      exact hc (by simpa [candidatesOf, hname] using hcyclic)
    have hbudget := height_add_heights_le hn (List.mem_singleton_self name)
    exact exists_run hplain hfuel (hplain name n hn) (.inr hclear) (Nat.le_trans hbudget hroom)

end

/-- **Recursion is proportional to the source**, however definitions refer to each other: with as much depth as the
heights of all definitions together, and the height of the node on top of it, a node of a plain context is instantiated,
and the same depth without a node suffices for the context as a module and for a bundle around each definition. -/
theorem done_of_heights_le {context : Context} (hplain : context.Plain) (limits : Limits) :
    (∀ n : Node, n.isPlain = true → n.height + context.heights ≤ limits.maxDepth →
      ∃ m, instantiate limits context n = .done m) ∧
    (context.heights ≤ limits.maxDepth →
      (∃ out, instantiateModule limits context = .done out) ∧
      ∀ name n, context.get? name = some n → ∃ m, instantiateCyclic limits context name n = .done m) := by
  have hfuel : limits.maxDepth ≤ ampleFuel limits := Nat.le_add_right _ _
  have hnames : ∀ name ∈ context.names, context.has name := fun _ => Fields.mem_names_iff.1
  refine ⟨fun n hn hroom => ?_, fun hroom => ⟨?_, fun name n hn => ?_⟩⟩
  · exact exists_run hplain hfuel hn (.inl rfl) (by rwa [Fields.without_nil])
  · exact exists_assemble hplain hfuel hroom hnames
  · rw [instantiateCyclic, packageDefinition, Fields.insert_of_get? hn]
    exact exists_package hplain hfuel hroom (hnames name (Fields.mem_names_iff.2 (by simp [Fields.has, hn])))
      (fun candidate hc => hnames candidate (List.mem_filter.1 hc).1) _

/-- A ring of two definitions with a third one, and a node that leads there, within exactly the budget. -/
theorem done_of_heights_le_ring :
    let context : Context := [("A", .object [("b", .reference "B")]), ("B", .array (.reference "A")), ("C", .reference "A")]
    let n : Node := .union [.reference "A", .reference "C"]
    let limits : Limits := { maxDepth := 7 }
    context.Plain ∧ n.isPlain = true ∧ n.height + context.heights = limits.maxDepth ∧
      (∃ m, instantiate limits context n = .done m) ∧ (∃ out, instantiateModule limits context = .done out) ∧
      ∃ m, instantiateCyclic limits context "A" (.object [("b", .reference "B")]) = .done m := by
  intro context n limits
  have hplain : context.Plain := .of_all (by decide +kernel)
  have hn : n.isPlain = true := by decide +kernel
  have hheight : n.height + context.heights = limits.maxDepth := by decide +kernel
  obtain ⟨hnode, hrest⟩ := done_of_heights_le hplain limits
  obtain ⟨hmodule, hcyclic⟩ := hrest (by decide +kernel)
  exact ⟨hplain, hn, hheight, hnode n hn (Nat.le_of_eq hheight), hmodule, hcyclic "A" _ rfl⟩

/-- Along a chain that nothing leads back from, the whole budget is needed. -/
example : instantiate { maxDepth := 2 } [("A", .reference "B"), ("B", .string)] (.reference "A") =
    .failed (.depthExceeded 2) := by with_unfolding_all rfl

end Schemata
