import Schemata.Proofs.Instantiation.Budget
import Schemata.Proofs.Instantiation.Limits
/-!
# Retrying in a richer context

What a context leaves unresolved can be resolved later, where more names are bound.  The detour changes nothing: a
reference that stays keeps its flags and annotations, and these are handed on when it is followed in the end, with what
was handed on before.

- `Context.Within context wider`: the wider context binds every name of the other to the same node.

Main statement: `retry_loses_nothing`.
-/
namespace Schemata

/-- **A richer context** binds every name of the other one to the same node. -/
def Context.Within (context wider : Context) : Prop := ∀ name n, context.get? name = some n → wider.get? name = some n

theorem Context.Within.refl (context : Context) : context.Within context := fun _ _ h => h

theorem Context.Within.append (context more : Context) : context.Within (context ++ more) := by
  intro name n h
  induction context with
  | nil => cases h
  | cons e rest ih =>
    rw [List.cons_append, Fields.get?_cons]
    rw [Fields.get?_cons] at h
    split
    · rwa [if_pos ‹_›] at h
    · rw [if_neg ‹_›] at h
      exact ih h

section
variable {context wider : Context} {n m r : Node} {k : Nat}

theorem Context.Within.leadsBack_eq_false (h : context.Within wider) {path : List String}
    (hclear : leadsBack path wider n = false) : leadsBack path context n = false := by
  rw [Bool.eq_false_iff] at hclear ⊢
  refine fun hback => hclear ((leadsBack_iff _ _ _).2 ?_)
  exact ((leadsBack_iff _ _ _).1 hback).mono h fun _ ho => ho

/-! ## Resolution -/

theorem Resolves.mono {more : Nat} (h : Resolves context k n m) (hk : k ≤ more) : Resolves context more n m := by
  induction h generalizing more with
  | bundle hkind =>
    obtain ⟨more, rfl⟩ : ∃ j, more = j + 1 := ⟨more - 1, by omega⟩
    exact .bundle hkind
  | stays hkind still =>
    obtain ⟨more, rfl⟩ : ∃ j, more = j + 1 := ⟨more - 1, by omega⟩
    exact .stays hkind still
  | follows hkind bound clear next ih =>
    obtain ⟨more, rfl⟩ : ∃ j, more = j + 1 := ⟨more - 1, by omega⟩
    exact .follows hkind bound clear (ih (by omega))
  | parts hkind structural each ih =>
    obtain ⟨more, rfl⟩ : ∃ j, more = j + 1 := ⟨more - 1, by omega⟩
    exact .parts hkind structural fun c hc => ih c hc (by omega)

/-- The nodes that a structural node is resolved part by part from. -/
theorem isOrdered_of_parts {form : Kind Node} {before : Node → Node} (hn : n.isOrdered = true)
    (hkind : n.kind = form.map before) (structural : form.isStructural = true) :
    ∀ c ∈ form.parts, (before c).isOrdered = true := by
  intro c hc
  refine (Node.isOrdered_iff.1 hn).2 _ ?_
  rw [Node.children, hkind, Kind.children_of_isStructural (by rwa [Kind.isStructural_map]), Kind.parts_map]
  exact List.mem_map_of_mem hc

/-- What comes out has its annotations in order. -/
theorem Resolves.sorted (hcontext : context.Ordered) (h : Resolves context k n m) (hn : n.isOrdered = true) :
    m.annotations.Sorted := by
  induction h with
  | bundle | stays | parts => exact (Node.isOrdered_iff.1 hn).1
  | follows hkind bound clear next ih => exact Annotations.sorted_override (ih (hcontext _ _ bound)) _

/-- **Flags and annotations go through**: what a node inherits, its result inherits. -/
theorem Resolves.inherit (h : Resolves context k n m) (hn : n.annotations.Sorted) (origin : Node) :
    Resolves context k (n.inherit origin) (m.inherit origin) := by
  cases h with
  | bundle hkind => exact .bundle hkind
  | stays hkind still => exact .stays hkind still
  | follows hkind bound clear next =>
    rw [Node.inherit_inherit _ hn]
    exact .follows hkind bound clear next
  | parts hkind structural each =>
    exact .parts (n := n.inherit origin) hkind structural each

/-- **Resolution in a richer context goes through what the poorer one makes of the node**, unless names of the poorer one
lead back in the richer one only. -/
theorem Resolves.exists_between (hwithin : context.Within wider) (hordered : wider.Ordered)
    (hcyclic : ∀ name, context.has name → isCyclic wider name = true → isCyclic context name = true)
    (h : Resolves wider k n r) (hn : n.isOrdered = true) :
    ∃ m, Resolves context k n m ∧ Resolves wider k m r := by
  induction h with
  | bundle hkind => exact ⟨_, .bundle hkind, .bundle hkind⟩
  | @stays k n name hkind still =>
    refine ⟨n, .stays hkind ?_, .stays hkind still⟩
    cases ht : context.get? name with
    | none => exact .inl ht
    | some target =>
      refine .inr (hcyclic name (by simp [Fields.has, ht]) (still.resolve_left ?_))
      rw [hwithin name target ht]
      exact Option.some_ne_none target
  | @follows k n target r name hkind bound clear next ih =>
    cases ht : context.get? name with
    | none => exact ⟨n, .stays hkind (.inl ht), .follows hkind bound clear next⟩
    | some other =>
      have hsame : other = target := Option.some.inj ((hwithin name other ht).symm.trans bound)
      subst hsame
      obtain ⟨m, hm, hr⟩ := ih (hordered name other bound)
      refine ⟨m.inherit n, .follows hkind ht (hwithin.leadsBack_eq_false clear) hm, ?_⟩
      have hsorted : m.annotations.Sorted :=
        hm.sorted (fun name n hb => hordered name n (hwithin name n hb)) (hordered name other bound)
      exact (hr.inherit hsorted n).mono (Nat.le_succ k)
  | @parts k n form before after hkind structural each ih =>
    have hbetween : ∀ c, ∃ d, c ∈ form.parts → Resolves context k (before c) d ∧ Resolves wider k d (after c) := fun c => by
      by_cases hc : c ∈ form.parts
      · obtain ⟨d, hd⟩ := ih c hc (isOrdered_of_parts hn hkind structural c hc)
        exact ⟨d, fun _ => hd⟩
      · exact ⟨c, fun h => absurd h hc⟩
    choose between hbetween using hbetween
    refine ⟨n.rebuild (form.map between), .parts hkind structural fun c hc => (hbetween c hc).1, ?_⟩
    exact .parts (n := n.rebuild (form.map between)) rfl structural fun c hc => (hbetween c hc).2

end

/-! ## Runs -/

/-- In a plain context only limits reject: there is a budget with which everything is done. -/
theorem done_of_cutShort_eq_false {limits : Limits} {context : Context} (hplain : context.Plain) {n : Node}
    (hn : n.isPlain = true) (h : (instantiate limits context n).cutShort = false) :
    ∃ m, instantiate limits context n = .done m := by
  let wider : Limits := { limits with maxDepth := max limits.maxDepth (n.height + context.heights) }
  have hwithin : limits.Within wider := ⟨Nat.le_max_left _ _, Nat.le_refl _, rfl⟩
  have hfuel : wider.maxDepth ≤ ampleFuel wider := Nat.le_add_right _ _
  obtain ⟨m, hm⟩ := exists_run hplain hfuel hn (.inl rfl) (by rw [Fields.without_nil]; exact Nat.le_max_right _ _)
  have hlift := run_liftsTo hwithin (ampleFuel_le hwithin) ⟨context, .initial, n⟩ h
  exact ⟨m, hlift.symm.trans hm⟩

/-- **Retrying in a richer context loses nothing**, within the limits.  Where no name of the richer context leads back, it
makes of a plain node what it makes of the result that the poorer context gives for it, flags and annotations included.
In one and the same context, whether names lead back or not, a result is its own result. -/
theorem retry_loses_nothing {context wider : Context} (hwithin : context.Within wider) (hplain : wider.Plain)
    (hordered : wider.Ordered) {n : Node} (hn : n.isPlain = true) (ho : n.isOrdered = true) (limits : Limits) :
    ((∀ name, isCyclic wider name = false) → (instantiate limits wider n).cutShort = false →
      ∃ m, instantiate limits context n = .done m ∧ instantiate limits wider m = instantiate limits wider n) ∧
    ((instantiate limits wider n).cutShort = false →
      ∃ m, instantiate limits wider n = .done m ∧ instantiate limits wider m = .done m) := by
  have hretry : ∀ {poorer : Context}, poorer.Within wider →
      (∀ name, poorer.has name → isCyclic wider name = true → isCyclic poorer name = true) →
      (instantiate limits wider n).cutShort = false →
      ∃ m r, instantiate limits poorer n = .done m ∧ instantiate limits wider n = .done r ∧
        instantiate limits wider m = .done r := by
    intro poorer hpoorer hcyclic hcut
    obtain ⟨r, hr⟩ := done_of_cutShort_eq_false hplain hn hcut
    obtain ⟨k, hfuel, hdepth, hresolves⟩ := (run_eq_done_iff hplain hn).1 hr
    obtain ⟨m, hfirst, hsecond⟩ := hresolves.exists_between hpoorer hordered hcyclic ho
    exact ⟨m, r, hfirst.run_eq hfuel hdepth, hr, hsecond.run_eq hfuel hdepth⟩
  constructor
  · intro hacyclic hcut
    obtain ⟨m, r, hm, hr, hmr⟩ := hretry hwithin (fun name _ hc => absurd hc (by simp [hacyclic name])) hcut
    exact ⟨m, hm, hmr.trans hr.symm⟩
  · intro hcut
    obtain ⟨m, r, hm, hr, hmr⟩ := hretry (.refl wider) (fun _ _ hc => hc) hcut
    obtain rfl : m = r := Outcome.done.inj (hm.symm.trans hr)
    exact ⟨m, hm, hmr⟩

/-- A chain of aliases with flags and annotations of their own, the end of which is bound in the richer context only. -/
theorem retry_loses_nothing_chain :
    let context : Context := [("A", ⟨.ref "B", ⟨true, false⟩, [("a", .boolean true), ("shared", .string "A")]⟩)]
    let wider : Context := context ++ [("B", ⟨.primitive .string, ⟨false, true⟩, [("shared", .string "B")]⟩)]
    let n : Node := .object [("first", ⟨.ref "A", .plain, [("n", .null)]⟩), ("second", .reference "C")]
    let m : Node := .object [("first", ⟨.ref "B", ⟨true, false⟩, [("a", .boolean true), ("n", .null),
      ("shared", .string "A")]⟩), ("second", .reference "C")]
    context.Within wider ∧ wider.Plain ∧ wider.Ordered ∧ n.isPlain = true ∧ n.isOrdered = true ∧
      (∀ name, isCyclic wider name = false) ∧ (instantiate {} wider n).cutShort = false ∧
      instantiate {} context n = .done m ∧ instantiate {} wider m = instantiate {} wider n := by
  intro context wider n m
  have hwithin : context.Within wider := .append _ _
  have hplain : wider.Plain := .of_all (by decide +kernel)
  have hordered : wider.Ordered := .of_all (by decide +kernel)
  have hn : n.isPlain = true := by decide +kernel
  have ho : n.isOrdered = true := by decide +kernel
  have hacyclic : ∀ name, isCyclic wider name = false := isCyclic_eq_false_of_all (by decide +kernel)
  have hcut : (instantiate {} wider n).cutShort = false := by decide +kernel
  obtain ⟨m', hm', hretry⟩ := (retry_loses_nothing hwithin hplain hordered hn ho {}).1 hacyclic hcut
  have hm : instantiate {} context n = .done m := by with_unfolding_all rfl
  obtain rfl : m = m' := Outcome.done.inj (hm.symm.trans hm')
  exact ⟨hwithin, hplain, hordered, hn, ho, hacyclic, hcut, hm, hretry⟩

end Schemata
