import Schemata.Reference.Graph
/-!
# Closures of the reference graph

A search works off a stack of names and marks those that it visits.  A name that is visited pushes what it refers to, once,
so there are enough steps to empty the stack.  What is visited then is closed: with a name it holds all that the name
refers to.
-/
namespace Schemata
namespace ReferenceGraph

variable {graph : ReferenceGraph}

/-- **Every reference is a name of the graph.** -/
def Complete (graph : ReferenceGraph) : Prop := ∀ name, ∀ next ∈ graph.successors name, next ∈ graph.names

theorem successors_ofContext (context : Context) (name : String) :
    (ofContext context).successors name = ((context.get? name).map Node.references).getD [] := by
  rw [successors, ofContext, Fields.get?_mapValues]

theorem complete_ofContext (context : Context) : (ofContext context).Complete := by
  intro name next hn
  rw [successors_ofContext] at hn
  cases ht : context.get? name with
  | none => simp [ht] at hn
  | some target =>
    simp only [ht, Option.map_some, Option.getD_some] at hn
    have hmem : (name, target) ∈ context := Fields.mem_of_get? ht
    refine mem_distinct.2 (List.mem_append_right _ (List.mem_flatten.2 ⟨target.references, ?_, hn⟩))
    exact List.mem_map.2 ⟨(name, target.references), List.mem_map.2 ⟨(name, target), hmem, rfl⟩, rfl⟩

theorem nodup_names_ofContext (context : Context) : (ofContext context).names.Nodup := nodup_distinct _

/-! ## Searching -/

/-- How many references are still to be pushed: those of the names that are not visited. -/
def pending (graph : ReferenceGraph) (visited : List String) : Nat := Fields.total List.length (graph.edges.without visited)

theorem pending_nil (graph : ReferenceGraph) : graph.pending [] = graph.edgeCount := by
  rw [pending, Fields.without_nil, edgeCount]
  induction graph.edges with
  | nil => rfl
  | cons e rest ih =>
    rw [Fields.total_cons, ih, Fields.values, Fields.values, List.map_cons, List.flatten_cons, List.length_append]

/-- **A visit pays for what it pushes.** -/
theorem pending_visit (graph : ReferenceGraph) {visited : List String} {name : String} (hnew : name ∉ visited) :
    (graph.successors name).length + graph.pending (name :: visited) ≤ graph.pending visited := by
  rw [successors]
  cases hreferences : graph.edges.get? name with
  | none =>
    rw [Option.getD_none, List.length_nil, Nat.zero_add]
    exact Fields.total_without_le List.length _ fun _ => List.mem_cons_of_mem name
  | some references => exact Fields.add_total_without_le List.length hreferences hnew

/-- **What holds between steps**: what a visited name refers to is visited or on the stack, and the steps left are enough
for the stack and for what is still to be pushed. -/
structure Searching (graph : ReferenceGraph) (steps : Nat) (visited stack : List String) : Prop where
  inner : ∀ name ∈ visited, ∀ next ∈ graph.successors name, next ∈ visited ∨ next ∈ stack
  enough : stack.length + graph.pending visited ≤ steps

/-- **What a search has found**: what was visited or on the stack, and with a name all that it refers to. -/
structure Covers (graph : ReferenceGraph) (visited stack found : List String) : Prop where
  visited : ∀ name ∈ visited, name ∈ found
  stack : ∀ name ∈ stack, name ∈ found
  closed : ∀ name ∈ found, ∀ next ∈ graph.successors name, next ∈ found

theorem searching_start (graph : ReferenceGraph) (name : String) : Searching graph (graph.edgeCount + 1) [] [name] where
  inner _ h := absurd h List.not_mem_nil
  enough := by
    rw [pending_nil, List.length_singleton]
    omega

theorem search_nil (graph : ReferenceGraph) (steps : Nat) (visited : List String) :
    graph.search steps visited [] = visited := by
  cases steps <;> rfl

namespace Searching

variable {steps : Nat} {visited stack : List String} {name : String}

theorem stack_eq_nil (h : Searching graph 0 visited stack) : stack = [] := by
  have := h.enough
  exact List.length_eq_zero_iff.1 (by omega)

/-- A step to a name that was visited before. -/
theorem again (h : Searching graph (steps + 1) visited (name :: stack)) (hseen : name ∈ visited) :
    Searching graph steps visited stack where
  inner owner ho next hn := by
    rcases h.inner owner ho next hn with hv | hs
    · exact .inl hv
    · rcases List.mem_cons.1 hs with rfl | hs
      · exact .inl hseen
      · exact .inr hs
  enough := by
    have := h.enough
    rw [List.length_cons] at this
    omega

/-- A step that visits a name. -/
theorem visit (h : Searching graph (steps + 1) visited (name :: stack)) (hnew : name ∉ visited) :
    Searching graph steps (name :: visited) ((graph.successors name).reverse ++ stack) where
  inner owner ho next hn := by
    rcases List.mem_cons.1 ho with rfl | ho
    · exact .inr (List.mem_append_left _ (List.mem_reverse.2 hn))
    · rcases h.inner owner ho next hn with hv | hs
      · exact .inl (List.mem_cons_of_mem _ hv)
      · rcases List.mem_cons.1 hs with rfl | hs
        · exact .inl List.mem_cons_self
        · exact .inr (List.mem_append_right _ hs)
  enough := by
    have hcount := h.enough
    have hpaid := graph.pending_visit hnew
    rw [List.length_cons] at hcount
    rw [List.length_append, List.length_reverse]
    omega

theorem covers_of_empty (h : Searching graph steps visited []) :
    graph.Covers visited [] (graph.search steps visited []) := by
  rw [search_nil]
  exact ⟨fun _ hn => hn, by simp, fun name hn next hs => (h.inner name hn next hs).resolve_right List.not_mem_nil⟩

/-- **A search covers its stack**, by induction on the steps. -/
theorem covers (h : Searching graph steps visited stack) :
    graph.Covers visited stack (graph.search steps visited stack) := by
  induction steps generalizing visited stack with
  | zero =>
    obtain rfl := h.stack_eq_nil
    exact h.covers_of_empty
  | succ steps ih =>
    cases stack with
    | nil => exact h.covers_of_empty
    | cons name stack =>
      rw [search]
      split
      · rename_i hseen
        have hseen := List.contains_iff_mem.1 hseen
        have hrest := ih (h.again hseen)
        exact { hrest with stack := List.forall_mem_cons.2 ⟨hrest.visited name hseen, hrest.stack⟩ }
      · rename_i hnew
        have hrest := ih (h.visit fun hm => hnew (List.contains_iff_mem.2 hm))
        obtain ⟨hname, hvisited⟩ := List.forall_mem_cons.1 hrest.visited
        have hstack := List.forall_mem_cons.2 ⟨hname, fun n hn => hrest.stack n (List.mem_append_right _ hn)⟩
        exact ⟨hvisited, hstack, hrest.closed⟩

/-- **The stack is empty when the steps are spent**: with more of them nothing else is visited. -/
theorem search_add (h : Searching graph steps visited stack) (more : Nat) :
    graph.search (steps + more) visited stack = graph.search steps visited stack := by
  induction steps generalizing visited stack with
  | zero =>
    obtain rfl := h.stack_eq_nil
    rw [search_nil, search_nil]
  | succ steps ih =>
    cases stack with
    | nil => rw [search_nil, search_nil]
    | cons name stack =>
      rw [Nat.succ_add, search, search]
      split
      · rename_i hseen
        exact ih (h.again (List.contains_iff_mem.1 hseen))
      · rename_i hnew
        exact ih (h.visit fun hm => hnew (List.contains_iff_mem.2 hm))

end Searching

/-! ## Closures -/

theorem mem_sorted {names : List String} {name : String} :
    name ∈ graph.sorted names ↔ name ∈ graph.names ∧ name ∈ names := by
  rw [sorted, List.mem_filter, List.contains_iff_mem]

theorem closure_eq {name : String} (hn : name ∈ graph.names) :
    graph.closure name = graph.sorted (graph.search (graph.edgeCount + 1) [] [name]) := by
  rw [closure, if_pos (List.contains_iff_mem.2 hn)]

theorem mem_closure_self {name : String} (hn : name ∈ graph.names) : name ∈ graph.closure name := by
  rw [closure_eq hn, mem_sorted]
  exact ⟨hn, (graph.searching_start name).covers.stack name (List.mem_singleton_self name)⟩

/-- **A closure is closed under references.** -/
theorem mem_closure_of_successor (hc : graph.Complete) {start name next : String} (hn : name ∈ graph.closure start)
    (hs : next ∈ graph.successors name) : next ∈ graph.closure start := by
  by_cases hstart : start ∈ graph.names
  · rw [closure_eq hstart, mem_sorted] at hn ⊢
    exact ⟨hc name next hs, (graph.searching_start start).covers.closed name hn.2 next hs⟩
  · rw [closure, if_neg (mt List.contains_iff_mem.1 hstart)] at hn
    cases hn

end ReferenceGraph
end Schemata
