import Schemata.Proofs.Instantiation.Retry
import Schemata.Proofs.Node.Expandable
/-!
# Plain regions of a context

A context may hold generics and calls, and what a node leads to may be plain all the same.  Names that lead to each other
only are a region, and instantiation inside of it sees nothing of the rest.

- `Node.Inside region n`: the node applies and binds nothing and refers to names of the region, and its annotations are in
  order.
- `Context.Region context region`: the definitions of the region are such nodes.

Main statements, for nodes inside of a region: a run sees the region only (`run_only`), it is done or cut short
(`run_inside`), and what it gives is inside, and comes out again of every run with as much room (`run_of_run_inside`).
-/
namespace Schemata

/-! ## Nodes inside of a region -/

namespace Node

/-- **A node that refers to names of a region**, and applies and binds nothing. -/
structure Inside (region : String → Prop) (n : Node) : Prop where
  refers : n.Expandable region fun _ => False
  ordered : n.isOrdered = true

variable {region wider : String → Prop} {n : Node}

theorem expandable_of_isPlain (h : n.isPlain = true) (hr : ∀ name ∈ n.references, region name) :
    n.Expandable region fun _ => False := by
  induction n using Node.induction_on_parts with
  | node n ih =>
    rcases isPlain_cases h with ⟨definitions, root, hk⟩ | ⟨name, hk⟩ | ⟨hstructural, hparts⟩
    · exact .bundle hk
    · refine .reference hk (hr name ?_)
      rw [references, referencesUnder_eq, hk]
      exact List.mem_singleton_self name
    · obtain ⟨hchildren, hdeclared, href⟩ := form_of_isStructural hstructural
      refine .plain hstructural (isPlain_iff.1 h).1 fun c hc => ih c hc (hparts c hc) fun name hname => hr name ?_
      exact (mem_references_iff href).2 ⟨c, hchildren ▸ hc, hname, hdeclared ▸ List.not_mem_nil⟩

theorem Expandable.isPlain (h : n.Expandable region fun _ => False) : n.isPlain = true := by
  induction h with
  | reference kind | bundle kind =>
    refine isPlain_iff.2 ⟨by rw [kind]; rfl, fun c hc => ?_⟩
    rw [children, kind] at hc
    cases hc
  | call _ _ meets => exact meets.elim
  | plain _ plain _ ih => exact isPlain_iff.2 ⟨plain, fun c hc => ih c (Kind.mem_parts_of_mem_children hc)⟩

theorem Expandable.mem_region (h : n.Expandable region fun _ => False) : ∀ name ∈ n.references, region name := by
  intro x hx
  induction h with
  | @reference n name kind meets =>
    rw [references, referencesUnder_eq, kind] at hx
    exact List.mem_singleton.1 hx ▸ meets
  | call _ _ meets => exact meets.elim
  | @bundle n definitions root kind =>
    obtain ⟨c, hc, -⟩ := (mem_references_iff (by simp [kind])).1 hx
    rw [children, kind] at hc
    cases hc
  | @plain n structural _ _ ih =>
    obtain ⟨-, -, href⟩ := form_of_isStructural structural
    obtain ⟨c, hc, hx, -⟩ := (mem_references_iff href).1 hx
    exact ih c (Kind.mem_parts_of_mem_children hc) hx

theorem inside_of_isPlain (h : n.isPlain = true) (ho : n.isOrdered = true) (hr : ∀ name ∈ n.references, region name) :
    n.Inside region := ⟨expandable_of_isPlain h hr, ho⟩

theorem isPlain_of_isConcrete (h : n.isConcrete = true) : n.isPlain = true := by
  induction n using Node.induction_on_parts with
  | node n ih =>
    rcases isConcrete_cases h with ⟨definitions, root, hk⟩ | ⟨-, hplain, hchildren, hparts⟩
    · refine isPlain_iff.2 ⟨by rw [hk]; rfl, fun c hc => ?_⟩
      rw [children, hk] at hc
      cases hc
    · exact isPlain_iff.2 ⟨hplain, fun c hc => ih c (hchildren ▸ hc) (hparts c (hchildren ▸ hc))⟩

namespace Inside

theorem mono (h : n.Inside region) (hr : ∀ name, region name → wider name) : n.Inside wider :=
  ⟨h.refers.mono hr fun _ hf => hf, h.ordered⟩

theorem isPlain (h : n.Inside region) : n.isPlain = true := h.refers.isPlain

theorem exposed (h : n.Inside region) : ∀ name ∈ n.exposed, region name := fun name hn =>
  h.refers.mem_region name (mem_references_of_exposed hn)

theorem part (h : n.Inside region) (hs : n.kind.isStructural = true) {c : Node} (hc : c ∈ n.kind.parts) :
    c.Inside region := by
  obtain ⟨hchildren, hdeclared, href⟩ := form_of_isStructural hs
  have hchild : c ∈ n.children := hchildren ▸ hc
  refine inside_of_isPlain ((isPlain_iff.1 h.isPlain).2 c hchild) ((isOrdered_iff.1 h.ordered).2 c hchild) ?_
  intro name hname
  exact h.refers.mem_region name ((mem_references_iff href).2 ⟨c, hchild, hname, hdeclared ▸ List.not_mem_nil⟩)

theorem inherit (h : n.Inside region) (origin : Node) : (n.inherit origin).Inside region := by
  obtain ⟨hsorted, hparts⟩ := isOrdered_iff.1 h.ordered
  exact ⟨h.refers.of_kind rfl, isOrdered_iff.2 ⟨Annotations.sorted_override hsorted _, hparts⟩⟩

/-- A node with the form of one that is inside of a region is where its parts are. -/
theorem rebuild {form : Kind Node} {before after : Node → Node} (h : n.Inside region) (hk : n.kind = form.map before)
    (hs : form.isStructural = true) (hafter : ∀ c ∈ form.parts, (after c).Inside wider) :
    (n.rebuild (form.map after)).Inside wider := by
  have hshape : (form.map after).shape = n.kind.shape := by rw [hk, Kind.shape_map, Kind.shape_map]
  have hstructural : n.kind.isStructural = true := by rw [hk, Kind.isStructural_map, hs]
  have hpart : ∀ d ∈ (form.map after).parts, d.Inside wider := by
    rw [Kind.parts_map]
    exact List.forall_mem_map.2 hafter
  have hplain : (form.map after).isPlain = true :=
    (Kind.isPlain_of_shape hshape).trans (isPlain_iff.1 h.isPlain).1
  refine ⟨.plain ((Kind.isStructural_of_shape hshape).trans hstructural) hplain fun d hd => (hpart d hd).refers, ?_⟩
  exact isOrdered_iff.2 ⟨(isOrdered_iff.1 h.ordered).1, fun d hd => (hpart d (Kind.mem_parts_of_mem_children hd)).ordered⟩

end Inside
end Node

/-! ## Regions -/

/-- **A plain region of a context**: what its names are bound to stays inside of it. -/
def Context.Region (context : Context) (region : String → Prop) : Prop :=
  ∀ name n, region name → context.get? name = some n → n.Inside region

open Classical in
/-- The definitions of a region alone. -/
noncomputable def Context.only (context : Context) (region : String → Prop) : Context :=
  context.filter fun e => decide (region e.1)

section
variable {context : Context} {region : String → Prop} {limits : Limits} {s : State} {n m : Node} {name : String}

open Classical in
theorem Context.get?_only (context : Context) (region : String → Prop) (name : String) :
    (context.only region).get? name = if region name then context.get? name else none := by
  induction context with
  | nil => simp [only]
  | cons e rest ih =>
    obtain ⟨old, kept⟩ := e
    simp only [only] at ih ⊢
    by_cases hr : region old <;> by_cases hn : old = name <;> simp_all [Fields.get?_cons]

theorem Context.get?_only_of (hr : region name) : (context.only region).get? name = context.get? name := by
  rw [get?_only, if_pos hr]

theorem Context.eq_of_get?_only (h : (context.only region).get? name = some n) :
    region name ∧ context.get? name = some n := by
  rw [get?_only] at h
  split at h
  · exact ⟨‹_›, h⟩
  · cases h

theorem Context.Region.mono {wider : Context} (h : wider.Region region)
    (hw : ∀ name n, region name → context.get? name = some n → wider.get? name = some n) : context.Region region :=
  fun name n hr hn => h name n hr (hw name n hr hn)

theorem Context.Region.plain_only (h : context.Region region) : (context.only region).Plain := by
  intro name n hn
  obtain ⟨hr, hn⟩ := Context.eq_of_get?_only hn
  exact (h name n hr hn).isPlain

theorem Context.Region.ordered_only (h : context.Region region) : (context.only region).Ordered := by
  intro name n hn
  obtain ⟨hr, hn⟩ := Context.eq_of_get?_only hn
  exact (h name n hr hn).ordered

/-- Walks from the names of a region stay in it. -/
theorem Context.Region.meets_only (h : context.Region region) {path : List String} (hn : ∀ name ∈ n.exposed, region name) :
    Meets (context.only region) path n ↔ Meets context path n := by
  constructor
  · exact fun hm => hm.mono (fun _ _ hb => (Context.eq_of_get?_only hb).2) fun _ ho => ho
  · intro hm
    induction hm with
    | here exposed again => exact .here exposed again
    | @there path n target name exposed bound _ ih =>
      have hr := hn name exposed
      exact .there exposed ((Context.get?_only_of hr).trans bound) (ih (h name target hr bound).exposed)

theorem Context.Region.leadsBack_only (h : context.Region region) (path : List String)
    (hn : ∀ name ∈ n.exposed, region name) : leadsBack path (context.only region) n = leadsBack path context n := by
  rw [Bool.eq_iff_iff, leadsBack_iff, leadsBack_iff, h.meets_only hn]

/-- **A run inside of a region sees the region only**, by induction on the fuel. -/
theorem run_only (h : context.Region region) (hn : n.Inside region) (fuel : Nat) :
    run limits fuel (context.only region) s n = run limits fuel context s n := by
  induction fuel generalizing s n with
  | zero => rfl
  | succ fuel ih =>
    rw [run, run]
    refine bind_congr fun t => ?_
    rcases Node.isPlain_cases hn.isPlain with ⟨definitions, root, hk⟩ | ⟨name, hk⟩ | ⟨hstructural, -⟩
    · rw [step_of_bundle hk, step_of_bundle hk]
    · have hr : region name := hn.exposed name (by rw [Node.exposed_eq, hk]; exact List.mem_singleton_self name)
      simp only [step, hk, Context.get?_only_of hr]
      cases ht : context.get? name with
      | none => rfl
      | some target =>
        have htarget := h name target hr ht
        simp only [h.leadsBack_only [name] htarget.exposed, ih htarget]
    · rw [step_of_isStructural hstructural, step_of_isStructural hstructural]
      refine congrArg (· >>= _) ?_
      exact Kind.traverse_congr fun c hc => ih (hn.part hstructural hc)

/-- What is resolved inside of a region stays inside. -/
theorem Resolves.inside {k : Nat} (hr : Resolves context k n m) (hregion : context.Region region) (hn : n.Inside region) :
    m.Inside region := by
  induction hr with
  | bundle | stays => exact hn
  | @follows k n target m name hk bound _ _ ih =>
    have hname : region name := hn.exposed name (by rw [Node.exposed_eq, hk]; exact List.mem_singleton_self name)
    exact (ih (hregion name target hname bound)).inherit n
  | @parts k n form before after hk structural _ ih =>
    refine hn.rebuild hk structural fun c hc => ih c hc (hn.part (by rw [hk, Kind.isStructural_map, structural]) ?_)
    rw [hk, Kind.parts_map]
    exact List.mem_map_of_mem hc

theorem Resolves.unique {k : Nat} {r : Node} (h : Resolves context k n m) (h' : Resolves context k n r) : m = r := by
  let limits : Limits := { maxDepth := k }
  have hroom : State.initial.depth + k ≤ limits.maxDepth := by simp [State.initial, limits]
  exact Outcome.done.inj ((h.run_eq (Nat.le_refl k) hroom).symm.trans (h'.run_eq (Nat.le_refl k) hroom))

/-- **A run inside of a region is done or cut short.** -/
theorem run_inside (h : context.Region region) (hn : n.Inside region) (limits : Limits) (fuel : Nat) (s : State) :
    (∃ m, run limits fuel context s n = .done m) ∨ (run limits fuel context s n).cutShort = true := by
  rw [← run_only h hn fuel]
  cases hcut : (run limits fuel (context.only region) s n).cutShort with
  | true => exact .inr rfl
  | false =>
    -- With wider limits there is room for everything, and the run lifts to these.
    let budget := n.height + (context.only region).heights
    let wider : Limits := { limits with maxDepth := max limits.maxDepth (s.depth + budget) }
    have hwithin : limits.Within wider := ⟨Nat.le_max_left _ _, Nat.le_refl _, rfl⟩
    obtain ⟨m, hm⟩ := exists_resolves h.plain_only hn.isPlain (.inl rfl) (k := budget) (by rw [Fields.without_nil])
    have hwide : run wider (max fuel budget) (context.only region) s n = .done m :=
      hm.run_eq (Nat.le_max_right _ _) (Nat.le_max_right _ _)
    have hlift := run_liftsTo hwithin (Nat.le_max_left fuel budget) ⟨context.only region, s, n⟩ hcut
    exact .inl ⟨m, hlift.symm.trans hwide⟩

/-- **What a run inside of a region gives** is inside, and with as much room it comes out again, of the node and of
itself. -/
theorem run_of_run_inside (h : context.Region region) (hn : n.Inside region) {fuel : Nat}
    (hrun : run limits fuel context s n = .done m) : m.Inside region ∧
      ∀ more t, fuel ≤ more → t.depth ≤ s.depth →
        run limits more context t n = .done m ∧ run limits more context t m = .done m := by
  rw [← run_only h hn] at hrun
  obtain ⟨k, hfuel, hdepth, hr⟩ := (run_eq_done_iff h.plain_only hn.isPlain).1 hrun
  have honly : (context.only region).Region region := h.mono fun name n hr hb => (Context.get?_only_of hr).symm.trans hb
  have hm := hr.inside honly hn
  obtain ⟨between, hbetween, hagain⟩ := hr.exists_between (.refl _) h.ordered_only (fun _ _ hc => hc) hn.ordered
  obtain rfl := hbetween.unique hr
  refine ⟨hm, fun more t hmore ht => ⟨?_, ?_⟩⟩
  · rw [← run_only h hn]
    exact hr.run_eq (by omega) (by omega)
  · rw [← run_only h hm]
    exact hagain.run_eq (by omega) (by omega)

end
end Schemata
