import Mathlib.Data.List.Pairwise
import Mathlib.Data.List.Perm.Subperm
import Mathlib.Logic.Relation
import Mathlib.Tactic.ByContra
import Schemata.Proofs.Reference.Closure
/-!
# Components of the reference graph

A closure is what is reachable, and names that reach each other form classes.  The groups are made of a list of these
classes: single names that do not refer to themselves are left out, members are sorted, and then the classes are.

- `ReferenceGraph.AreComponents`: a list of all classes, in any order.
- `ReferenceGraph.sorted_eq_mergeSort`: graph order is the order of places.

Main statements: `ReferenceGraph.AreComponents.cycles_eq_groups`, whatever order the components come in, and
`ReferenceGraph.mem_groups_iff`: the groups consist of the names that lead to themselves.
-/
namespace Schemata

open Relation (ReflTransGen TransGen)

/-- **A list that is in strict order is what sorting makes of it**, however it was arranged before. -/
theorem mergeSort_eq_of_perm {α : Type} {le : α → α → Bool}
    (htrans : ∀ a b c, le a b = true → le b c = true → le a c = true) (htotal : ∀ a b, (le a b || le b a) = true)
    {xs ys : List α} (hperm : xs.Perm ys) (hys : ys.Pairwise fun a b => ¬ le b a = true) : xs.mergeSort le = ys := by
  let Same (a b : α) : Prop := le a b = true → le b a = true → a = b
  have hsymm : Std.Symm Same := ⟨fun _ _ h hab hba => (h hba hab).symm⟩
  have hdiffer : ∀ a ∈ ys, ∀ b ∈ ys, Same a b := fun a ha b hb =>
    List.Pairwise.forall_of_forall (fun _ _ _ _ => rfl) (hys.imp fun h _ hba => absurd hba h) ha hb
  have hsorted := (List.mergeSort_perm xs le).trans hperm
  refine hsorted.eq_of_pairwise (fun a b ha hb => hdiffer a (hsorted.subset ha) b hb)
    (List.pairwise_mergeSort htrans htotal xs) (hys.imp fun {a b} h => ?_)
  exact (Bool.or_eq_true_iff.1 (htotal a b)).resolve_right h

namespace ReferenceGraph

variable {graph : ReferenceGraph}

/-! ## Reachability -/

/-- **One definition mentions another name.** -/
def Refers (graph : ReferenceGraph) (name next : String) : Prop := next ∈ graph.successors name

/-- Two names that lead to each other. -/
def Mutual (graph : ReferenceGraph) (name other : String) : Prop :=
  ReflTransGen graph.Refers name other ∧ ReflTransGen graph.Refers other name

theorem Mutual.symm {name other : String} (h : graph.Mutual name other) : graph.Mutual other name := ⟨h.2, h.1⟩

theorem Mutual.trans {name other third : String} (h : graph.Mutual name other) (h' : graph.Mutual other third) :
    graph.Mutual name third :=
  ⟨h.1.trans h'.1, h'.2.trans h.2⟩

theorem Mutual.cycle {name other : String} (h : graph.Mutual name other) (hne : name ≠ other) :
    TransGen graph.Refers name name := by
  rcases Relation.reflTransGen_iff_eq_or_transGen.1 h.1 with he | ht
  · exact absurd he.symm hne
  · exact ht.trans_left h.2

/-- A search visits nothing that is out of reach. -/
theorem reaches_of_mem_search {start : String} (steps : Nat) {visited stack : List String}
    (hvisited : ∀ name ∈ visited, ReflTransGen graph.Refers start name)
    (hstack : ∀ name ∈ stack, ReflTransGen graph.Refers start name) {name : String}
    (h : name ∈ graph.search steps visited stack) : ReflTransGen graph.Refers start name := by
  induction steps generalizing visited stack with
  | zero => exact hvisited name h
  | succ steps ih =>
    cases stack with
    | nil => exact hvisited name h
    | cons top stack =>
      rw [List.forall_mem_cons] at hstack
      rw [search] at h
      split at h
      · exact ih hvisited hstack.2 h
      · refine ih (List.forall_mem_cons.2 ⟨hstack.1, hvisited⟩) (fun other ho => ?_) h
        rcases List.mem_append.1 ho with ho | ho
        · exact hstack.1.tail (List.mem_reverse.1 ho)
        · exact hstack.2 other ho

/-- **A closure is what is reachable.** -/
theorem mem_closure_iff (hc : graph.Complete) {name other : String} (hn : name ∈ graph.names) :
    other ∈ graph.closure name ↔ ReflTransGen graph.Refers name other := by
  constructor
  · intro h
    rw [closure_eq hn, mem_sorted] at h
    exact reaches_of_mem_search _ (by simp) (List.forall_mem_singleton.2 .refl) h.2
  · intro h
    induction h with
    | refl => exact mem_closure_self hn
    | tail _ hs ih => exact mem_closure_of_successor hc ih hs

theorem mem_names_of_reaches (hc : graph.Complete) {name other : String} (hn : name ∈ graph.names)
    (h : ReflTransGen graph.Refers name other) : other ∈ graph.names := by
  induction h with
  | refl => exact hn
  | tail _ hs _ => exact hc _ _ hs

/-! ## Classes -/

/-- The names that lead to a name and back, in graph order. -/
def cycleOf (graph : ReferenceGraph) (name : String) : List String :=
  graph.names.filter fun other => (graph.closure name).contains other && (graph.closure other).contains name

theorem mem_cycleOf (hc : graph.Complete) {name other : String} (hn : name ∈ graph.names) :
    other ∈ graph.cycleOf name ↔ graph.Mutual name other := by
  rw [cycleOf, List.mem_filter, Bool.and_eq_true, List.contains_iff_mem, List.contains_iff_mem]
  constructor
  · rintro ⟨ho, h, h'⟩
    exact ⟨(mem_closure_iff hc hn).1 h, (mem_closure_iff hc ho).1 h'⟩
  · rintro ⟨h, h'⟩
    have ho := mem_names_of_reaches hc hn h
    exact ⟨ho, (mem_closure_iff hc hn).2 h, (mem_closure_iff hc ho).2 h'⟩

theorem getD_get?_map_closure (graph : ReferenceGraph) (names : List String) {name : String} (hn : name ∈ names) :
    (Fields.get? (names.map fun name => (name, graph.closure name)) name).getD [] = graph.closure name := by
  induction names with
  | nil => cases hn
  | cons first names ih =>
    rw [List.map_cons, Fields.get?_cons]
    split
    · rename_i he
      rw [he]
      rfl
    · rename_i hne
      exact ih ((List.mem_cons.1 hn).resolve_left fun he => hne he.symm)

/-- Names that lead to each other have one class. -/
theorem cycleOf_eq_of_mutual (hc : graph.Complete) {name other : String} (hn : name ∈ graph.names)
    (h : graph.Mutual name other) : graph.cycleOf other = graph.cycleOf name := by
  have ho := mem_names_of_reaches hc hn h.1
  refine List.filter_congr fun third ht => ?_
  have hiff : third ∈ graph.cycleOf other ↔ third ∈ graph.cycleOf name := by
    rw [mem_cycleOf hc ho, mem_cycleOf hc hn]
    exact ⟨h.trans, h.symm.trans⟩
  simp only [cycleOf, List.mem_filter, ht, true_and] at hiff
  exact Bool.eq_iff_iff.2 hiff

/-! ## Graph order -/

theorem sorted_sublist (graph : ReferenceGraph) (names : List String) : (graph.sorted names).Sublist graph.names :=
  List.filter_sublist

theorem perm_sorted (hnd : graph.names.Nodup) {names : List String} (hnames : names.Nodup)
    (hknown : ∀ name ∈ names, name ∈ graph.names) : (graph.sorted names).Perm names := by
  refine (List.perm_ext_iff_of_nodup (hnd.sublist (graph.sorted_sublist names)) hnames).2 fun name => ?_
  rw [mem_sorted]
  exact ⟨fun h => h.2, fun h => ⟨hknown name h, h⟩⟩

theorem pairwise_idxOf (hnd : graph.names.Nodup) :
    graph.names.Pairwise fun a b => graph.names.idxOf a < graph.names.idxOf b := by
  refine List.pairwise_iff_getElem.2 fun i j hi hj hij => ?_
  rwa [hnd.idxOf_getElem, hnd.idxOf_getElem]

/-- **Graph order is the order of places.** -/
theorem sorted_eq_mergeSort (hnd : graph.names.Nodup) {names : List String} (hnames : names.Nodup)
    (hknown : ∀ name ∈ names, name ∈ graph.names) :
    graph.sorted names = names.mergeSort fun a b => graph.names.idxOf a ≤ graph.names.idxOf b := by
  refine (mergeSort_eq_of_perm (fun a b c hab hbc => ?_) (fun a b => ?_) (perm_sorted hnd hnames hknown).symm ?_).symm
  · simp only [decide_eq_true_eq] at hab hbc ⊢
    exact Nat.le_trans hab hbc
  · simp only [Bool.or_eq_true, decide_eq_true_eq]
    exact Nat.le_total _ _
  · refine ((pairwise_idxOf hnd).sublist (graph.sorted_sublist names)).imp fun hless => ?_
    simpa using hless

/-! ## Components -/

/-- A class has a first member. -/
theorem exists_first (hc : graph.Complete) {name : String} (hn : name ∈ graph.names) :
    ∃ first ∈ graph.names, (graph.cycleOf first).head? = some first ∧ graph.cycleOf first = graph.cycleOf name := by
  have hself : name ∈ graph.cycleOf name := (mem_cycleOf hc hn).2 ⟨.refl, .refl⟩
  obtain ⟨first, rest, hcons⟩ := List.exists_cons_of_ne_nil (List.ne_nil_of_mem hself)
  have hmutual : graph.Mutual name first := (mem_cycleOf hc hn).1 (hcons ▸ List.mem_cons_self)
  have hsame := cycleOf_eq_of_mutual hc hn hmutual
  exact ⟨first, mem_names_of_reaches hc hn hmutual.1, by rw [hsame, hcons, List.head?_cons], hsame⟩

/-- **Classes with different first members share no name**: a name in both would make them one. -/
theorem pairwise_disjoint_classes (hc : graph.Complete) (hnd : graph.names.Nodup) {p : String → Bool}
    (hp : ∀ name, p name = true → (graph.cycleOf name).head? = some name) :
    ((graph.names.filter p).map graph.cycleOf).Pairwise List.Disjoint := by
  rw [List.pairwise_map]
  refine (hnd.filter p).imp_of_mem fun {first other} hf ho hne name hname hother => hne ?_
  obtain ⟨hf, hfirst⟩ := List.mem_filter.1 hf
  obtain ⟨ho, hfirst'⟩ := List.mem_filter.1 ho
  have hsame : graph.cycleOf first = graph.cycleOf other :=
    (cycleOf_eq_of_mutual hc hf ((mem_cycleOf hc hf).1 hname)).symm.trans
      (cycleOf_eq_of_mutual hc ho ((mem_cycleOf hc ho).1 hother))
  exact Option.some.inj ((hp first hfirst).symm.trans ((congrArg List.head? hsame).trans (hp other hfirst')))

/-- Whether a name is the first of a class that counts as a group. -/
def startsGroup (graph : ReferenceGraph) (name : String) : Bool :=
  (graph.cycleOf name).head? == some name &&
    (decide (1 < (graph.cycleOf name).length) || (graph.successors name).contains name)

/-- **Every class of names that lead to each other is listed once**, in any order and with its members in any order. -/
structure AreComponents (graph : ReferenceGraph) (components : List (List String)) : Prop where
  nonempty : ∀ c ∈ components, c ≠ []
  nodup : ∀ c ∈ components, c.Nodup
  known : ∀ c ∈ components, ∀ name ∈ c, name ∈ graph.names
  classes : ∀ c ∈ components, ∀ name ∈ c, ∀ other, other ∈ c ↔ graph.Mutual name other
  covers : ∀ name ∈ graph.names, ∃ c ∈ components, name ∈ c
  once : components.Pairwise List.Disjoint

/-- More names than one are a cycle, and a single name is if it refers to itself. -/
theorem isCycle_iff {c : List String} {name : String} (hn : name ∈ c) :
    graph.isCycle c = true ↔ 1 < c.length ∨ graph.Refers name name := by
  match c with
  | [] => cases hn
  | [single] =>
    obtain rfl := List.mem_singleton.1 hn
    simp [isCycle, Refers]
  | _ :: _ :: _ => simp [isCycle]

/-- **The cycles stand in the order of their first members.** -/
theorem pairwise_places (hnd : graph.names.Nodup) :
    ((graph.names.filter graph.startsGroup).map graph.cycleOf).Pairwise fun a b => graph.places a < graph.places b := by
  rw [List.pairwise_map]
  refine ((pairwise_idxOf hnd).filter graph.startsGroup).imp_of_mem fun {first other} hf ho hless => ?_
  have hcons : ∀ name ∈ graph.names.filter graph.startsGroup, ∃ rest, graph.cycleOf name = name :: rest := by
    intro name hn
    have hstart := (List.mem_filter.1 hn).2
    rw [startsGroup, Bool.and_eq_true, beq_iff_eq, List.head?_eq_some_iff] at hstart
    exact hstart.1
  obtain ⟨rest, hrest⟩ := hcons first hf
  obtain ⟨rest', hrest'⟩ := hcons other ho
  rw [hrest, hrest']
  exact List.cons_lt_cons_iff.2 (.inl hless)

namespace AreComponents

variable {cs : List (List String)} (hc : graph.Complete) (hnd : graph.names.Nodup) (h : AreComponents graph cs)
include hc h

/-- A component in graph order is the class of each of its members. -/
theorem sorted_eq_cycleOf {c : List String} (hcs : c ∈ cs) {name : String} (hn : name ∈ c) :
    graph.sorted c = graph.cycleOf name := by
  have hname := h.known c hcs name hn
  refine List.filter_congr fun other ho => Bool.eq_iff_iff.2 ?_
  have hclass := (h.classes c hcs name hn other).trans (mem_cycleOf hc hname).symm
  simpa [cycleOf, ho] using hclass

include hnd

theorem mem_cycles_iff {group : List String} : group ∈ (cs.filter graph.isCycle).map graph.sorted ↔
    group ∈ (graph.names.filter graph.startsGroup).map graph.cycleOf := by
  rw [List.mem_map, List.mem_map]
  constructor
  · rintro ⟨c, hmem, rfl⟩
    obtain ⟨hcs, hcycle⟩ := List.mem_filter.1 hmem
    have hperm := perm_sorted hnd (h.nodup c hcs) (h.known c hcs)
    obtain ⟨first, rest, hsorted⟩ : ∃ first rest, graph.sorted c = first :: rest := by
      refine List.exists_cons_of_ne_nil fun hnil => h.nonempty c hcs ?_
      rw [hnil] at hperm
      exact hperm.nil_eq.symm
    have hfirst : first ∈ c := hperm.subset (hsorted ▸ List.mem_cons_self)
    have hclass := h.sorted_eq_cycleOf hc hcs hfirst
    refine ⟨first, List.mem_filter.2 ⟨h.known c hcs first hfirst, ?_⟩, hclass.symm⟩
    rw [startsGroup, ← hclass, Bool.and_eq_true, Bool.or_eq_true, decide_eq_true_eq, hperm.length_eq,
      List.contains_iff_mem]
    exact ⟨by simp [hsorted], (isCycle_iff hfirst).1 hcycle⟩
  · rintro ⟨first, hmem, rfl⟩
    obtain ⟨hf, hstart⟩ := List.mem_filter.1 hmem
    obtain ⟨c, hcs, hfirst⟩ := h.covers first hf
    have hclass := h.sorted_eq_cycleOf hc hcs hfirst
    have hperm := perm_sorted hnd (h.nodup c hcs) (h.known c hcs)
    rw [startsGroup, ← hclass, Bool.and_eq_true, Bool.or_eq_true, decide_eq_true_eq, hperm.length_eq,
      List.contains_iff_mem] at hstart
    exact ⟨c, List.mem_filter.2 ⟨hcs, (isCycle_iff hfirst).2 hstart.2⟩, hclass⟩

/-- **The cycles are the classes of their first members**, in graph order: both lists hold the same classes, once, and both
are sorted. -/
theorem cycles_eq : graph.cycles cs = (graph.names.filter graph.startsGroup).map graph.cycleOf := by
  have hplaces := pairwise_places hnd
  have hnodup : ((cs.filter graph.isCycle).map graph.sorted).Nodup := by
    rw [List.Nodup, List.pairwise_map]
    refine (h.once.filter graph.isCycle).imp_of_mem fun {c d} hcs hds hdisjoint heq => ?_
    obtain ⟨name, hn⟩ := List.exists_mem_of_ne_nil c (h.nonempty c (List.mem_filter.1 hcs).1)
    have hmem : name ∈ graph.sorted c := mem_sorted.2 ⟨h.known c (List.mem_filter.1 hcs).1 name hn, hn⟩
    rw [heq] at hmem
    exact hdisjoint hn (mem_sorted.1 hmem).2
  have hperm : ((cs.filter graph.isCycle).map graph.sorted).Perm
      ((graph.names.filter graph.startsGroup).map graph.cycleOf) := by
    refine (List.perm_ext_iff_of_nodup hnodup (hplaces.imp fun {a b} hless heq => ?_)).2 fun _ => h.mem_cycles_iff hc hnd
    exact List.lt_irrefl _ (heq ▸ hless)
  refine mergeSort_eq_of_perm (fun a b c hab hbc => ?_) (fun a b => ?_) hperm ?_
  · simp only [Bool.not_eq_true', decide_eq_false_iff_not] at hab hbc ⊢
    exact List.not_lt.2 (List.le_trans (List.not_lt.1 hab) (List.not_lt.1 hbc))
  · simp only [Bool.or_eq_true, Bool.not_eq_true', decide_eq_false_iff_not]
    exact (List.le_total _ _).imp List.not_lt.2 List.not_lt.2
  · exact hplaces.imp fun hless => by simp [decide_eq_true hless]

end AreComponents

/-- The components are the classes of their first members. -/
theorem components_eq (graph : ReferenceGraph) : graph.components =
    (graph.names.filter fun name => (graph.cycleOf name).head? == some name).map graph.cycleOf := by
  have hcycle : ∀ name ∈ graph.names, (graph.names.filter fun other =>
      ((Fields.get? (graph.names.map fun name => (name, graph.closure name)) name).getD []).contains other &&
        ((Fields.get? (graph.names.map fun name => (name, graph.closure name)) other).getD []).contains name) =
          graph.cycleOf name := by
    intro name hn
    refine List.filter_congr fun other ho => ?_
    rw [getD_get?_map_closure graph _ hn, getD_get?_map_closure graph _ ho]
  rw [← List.filterMap_eq_map, List.filterMap_filter]
  refine List.filterMap_congr fun name hn => ?_
  rw [hcycle name hn]
  rfl

section
variable (hc : graph.Complete) (hnd : graph.names.Nodup)
include hc hnd

theorem areComponents_components : AreComponents graph graph.components := by
  have hmem : ∀ c ∈ graph.components, ∃ first ∈ graph.names, (graph.cycleOf first).head? = some first ∧
      c = graph.cycleOf first := by
    intro c hcs
    obtain ⟨first, hf, rfl⟩ := List.mem_map.1 (components_eq graph ▸ hcs)
    exact ⟨first, (List.mem_filter.1 hf).1, by simpa using (List.mem_filter.1 hf).2, rfl⟩
  constructor
  case nonempty =>
    intro c hcs hnil
    obtain ⟨first, -, hhead, rfl⟩ := hmem c hcs
    rw [hnil] at hhead
    cases hhead
  case nodup =>
    intro c hcs
    obtain ⟨first, -, -, rfl⟩ := hmem c hcs
    exact hnd.filter _
  case known =>
    intro c hcs name hn
    obtain ⟨first, -, -, rfl⟩ := hmem c hcs
    exact (List.mem_filter.1 hn).1
  case classes =>
    intro c hcs name hn other
    obtain ⟨first, hf, -, rfl⟩ := hmem c hcs
    have hmutual := (mem_cycleOf hc hf).1 hn
    exact (mem_cycleOf hc hf).trans ⟨hmutual.symm.trans, hmutual.trans⟩
  case covers =>
    intro name hn
    obtain ⟨first, hf, hhead, hsame⟩ := exists_first hc hn
    have hkept : first ∈ graph.names.filter fun name => (graph.cycleOf name).head? == some name :=
      List.mem_filter.2 ⟨hf, by simpa using hhead⟩
    refine ⟨graph.cycleOf first, components_eq graph ▸ List.mem_map_of_mem hkept, ?_⟩
    rw [hsame]
    exact (mem_cycleOf hc hn).2 ⟨.refl, .refl⟩
  case once =>
    rw [components_eq]
    exact pairwise_disjoint_classes hc hnd fun name hp => by simpa using hp

/-- **The groups are the cycles among the components**, whatever order these come in. -/
theorem AreComponents.cycles_eq_groups {cs : List (List String)} (h : AreComponents graph cs) :
    graph.cycles cs = graph.groups :=
  (h.cycles_eq hc hnd).trans ((areComponents_components hc hnd).cycles_eq hc hnd).symm

/-- **The groups are the classes of their first members**, in graph order. -/
theorem groups_eq : graph.groups = (graph.names.filter graph.startsGroup).map graph.cycleOf :=
  (areComponents_components hc hnd).cycles_eq hc hnd

/-- A group stands at its first member. -/
theorem mem_groups {group : List String} : group ∈ graph.groups ↔
    ∃ first ∈ graph.names, group = graph.cycleOf first ∧ (graph.cycleOf first).head? = some first ∧
      (1 < (graph.cycleOf first).length ∨ graph.Refers first first) := by
  simp only [groups_eq hc hnd, List.mem_map, List.mem_filter, startsGroup, Bool.and_eq_true, Bool.or_eq_true, beq_iff_eq,
    decide_eq_true_eq, List.contains_iff_mem]
  constructor
  · rintro ⟨first, ⟨hf, hcond⟩, rfl⟩
    exact ⟨first, hf, rfl, hcond⟩
  · rintro ⟨first, hf, rfl, hcond⟩
    exact ⟨first, ⟨hf, hcond⟩, rfl⟩

/-- **The groups consist of the names that lead to themselves.** -/
theorem mem_groups_iff {name : String} (hn : name ∈ graph.names) :
    (∃ group ∈ graph.groups, name ∈ group) ↔ TransGen graph.Refers name name := by
  constructor
  · rintro ⟨group, hg, hm⟩
    obtain ⟨first, hf, rfl, -, hcond⟩ := (mem_groups hc hnd).1 hg
    have hmutual := (mem_cycleOf hc hf).1 hm
    by_cases hne : name = first
    · subst hne
      rcases hcond with hlen | hself
      · -- Another member leads here and back.
        have hcycle : (graph.cycleOf name).Nodup := hnd.filter _
        obtain ⟨other, ho, hne⟩ : ∃ other ∈ graph.cycleOf name, other ≠ name := by
          by_contra hall
          have hsub : graph.cycleOf name ⊆ [name] := fun other ho => by
            by_contra hnot
            exact hall ⟨other, ho, fun he => hnot (List.mem_singleton.2 he)⟩
          have hle : (graph.cycleOf name).length ≤ 1 := (List.subperm_of_subset hcycle hsub).length_le
          omega
        exact ((mem_cycleOf hc hn).1 ho).cycle (Ne.symm hne)
      · exact .single hself
    · exact hmutual.symm.cycle hne
  · intro hcycle
    obtain ⟨first, hfirst, hhead, hsame⟩ := exists_first hc hn
    have hself : name ∈ graph.cycleOf first := hsame ▸ (mem_cycleOf hc hn).2 ⟨.refl, .refl⟩
    refine ⟨graph.cycleOf first, (mem_groups hc hnd).2 ⟨first, hfirst, rfl, hhead, ?_⟩, hself⟩
    by_contra hno
    rw [not_or] at hno
    obtain ⟨next, hstep, hback⟩ := Relation.TransGen.head'_iff.1 hcycle
    have hnext : next ∈ graph.cycleOf first := hsame ▸ (mem_cycleOf hc hn).2 ⟨.single hstep, hback⟩
    -- The class is a single name, which refers to itself.
    obtain ⟨only, honly⟩ : ∃ only, graph.cycleOf first = [only] := by
      refine List.length_eq_one_iff.1 ?_
      have := List.length_pos_of_mem hself
      omega
    rw [honly, List.head?_cons, Option.some.injEq] at hhead
    rw [honly, List.mem_singleton] at hnext hself
    rw [hnext, hself, hhead] at hstep
    exact hno.2 hstep

end

end ReferenceGraph
end Schemata
