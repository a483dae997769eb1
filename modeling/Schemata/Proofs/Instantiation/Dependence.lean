import Schemata.Proofs.Instantiation.Substitution
import Schemata.Proofs.Node.Equality
import Schemata.Reference.Graph
/-!
# What a node depends on

Substitution and the collection of references go through the same scopes, but not all of them: substitution stops at the keys
of mapped types, and references under a key of their name are collected nevertheless.

- `mem_free_iff_substitute_ne`: a name is free in a node exactly if binding it changes the node.
- `Node.keyed`: the names of references that only the key of a mapped type binds.
- `mem_references_iff_free_or_keyed`: a node refers to its free names and to its keyed ones.

Main statement: `references_iff_substitute_ne`.
-/
namespace Schemata

open List (Forall₂)

theorem Kind.scopedParts_of_children {kind : Kind Node}
    (hmapped : ∀ key rest options, kind ≠ .deferred .mapped (key :: rest) options) :
    kind.scopedParts = kind.children.map fun c => (kind.declared, c) := by
  rw [scopedParts_eq_map [], scopes_of_children hmapped, List.map_map]
  rfl

/-- What a kind declares is hidden in each of its open parts. -/
theorem Kind.declared_of_mem_scopedParts {kind : Kind Node} {e : List String × Node} (he : e ∈ kind.scopedParts)
    {x : String} (hx : x ∈ kind.declared) : x ∈ e.1 := by
  unfold scopedParts at he
  split at he
  · cases hx
  · obtain ⟨c, -, rfl⟩ := List.mem_map.1 he
    exact hx

theorem Kind.map_snd_scopedParts (kind : Kind Node) : kind.scopedParts.map Prod.snd = kind.children := by
  unfold scopedParts
  split
  · simp [children, parts, Function.comp_def]
  · simp [Function.comp_def]

/-- The name of the key, if a form is a mapped type. -/
def Kind.keyName : Kind Node → List String
  | .deferred .mapped (key :: _) _ => key.boundKey
  | _ => []

/-- What is hidden and not declared is hidden by a key. -/
theorem Kind.mem_keyName_of_mem_scopedParts {kind : Kind Node} {e : List String × Node} (he : e ∈ kind.scopedParts)
    {x : String} (hx : x ∈ e.1) (hdeclared : x ∉ kind.declared) : x ∈ kind.keyName := by
  unfold scopedParts at he
  split at he
  · rcases List.mem_cons.1 he with rfl | he
    · cases hx
    · obtain ⟨c, -, rfl⟩ := List.mem_map.1 he
      exact hx
  · obtain ⟨c, -, rfl⟩ := List.mem_map.1 he
    exact absurd hx hdeclared

namespace Node

variable {bindings : Fields Node} {n m : Node} {x : String}

theorem mem_parts_of_mem_scopedParts {e : List String × Node} (he : e ∈ n.kind.scopedParts) : e.2 ∈ n.kind.parts :=
  Kind.mem_parts_of_mem_children (n.kind.map_snd_scopedParts ▸ List.mem_map_of_mem he)

/-! ## Substitution changes what is free -/

/-- **Where no free name is bound, substitution changes nothing.** -/
theorem substitute_of_free_unbound (h : ∀ y ∈ n.free, bindings.get? y = none) : n.substitute bindings = n := by
  induction n using induction_on_parts generalizing bindings with
  | node n ih =>
    by_cases href : ∃ name, n.kind = .ref name
    · obtain ⟨name, hk⟩ := href
      have hname := h name (by rw [free_eq, hk]; exact List.mem_singleton_self name)
      rw [substitute_eq, hk]
      dsimp only
      rw [hname]
    · push Not at href
      -- In each part what is hidden is unbound, and so is what stays free.
      have hparts : ∀ e ∈ n.kind.scopedParts, e.2.substitute (bindings.without e.1) = e.2 := by
        intro e he
        refine ih _ (mem_parts_of_mem_scopedParts he) fun y hy => ?_
        rw [Fields.get?_without]
        split
        · rfl
        · exact h y ((mem_free_iff_scopedParts href).2 ⟨_, he, hy, ‹_›⟩)
      by_cases hmapped : ∃ key rest options, n.kind = .deferred .mapped (key :: rest) options
      · obtain ⟨key, rest, options, hk⟩ := hmapped
        rw [hk, Kind.scopedParts, List.forall_mem_cons, List.forall_mem_map] at hparts
        rw [Fields.without_nil] at hparts
        have hrest : rest.map (substitute (bindings.without key.boundKey)) = rest :=
          (List.map_congr_left hparts.2).trans (List.map_id' rest)
        rw [substitute_eq, hk]
        dsimp only
        rw [hparts.1, hrest, ← hk, rebuild_kind]
      · push Not at hmapped
        by_cases hcyclic : ∃ definitions root, n.kind = .cyclic definitions root
        · obtain ⟨definitions, root, hk⟩ := hcyclic
          rw [substitute_eq, hk]
        · push Not at hcyclic
          have hchildren : n.kind.children = n.kind.parts := by
            cases hk : n.kind with
            | cyclic definitions root => exact absurd hk (hcyclic definitions root)
            | _ => rfl
          rw [Kind.scopedParts_of_children hmapped, hchildren, List.forall_mem_map] at hparts
          rw [substitute_of_children href hcyclic hmapped, Kind.map_congr hparts]
          exact (congrArg n.rebuild (Kind.map_id n.kind)).trans n.rebuild_kind

/-- What a literal takes the place of is free no longer. -/
theorem not_mem_free_substitute_literal (n : Node) (x : String) (v : Literal) :
    x ∉ (n.substitute [(x, .literal v)]).free := by
  have hconcrete : ∀ y bound, Fields.get? [(x, Node.literal v)] y = some bound → bound.isConcrete = true := by
    intro y bound hbound
    rw [Fields.get?_cons] at hbound
    split at hbound
    · cases hbound
      rw [isConcrete_eq]
      rfl
    · cases hbound
  rw [free_substitute_of_isConcrete hconcrete, Fields.get?_cons, if_pos rfl]
  simp

/-- **A name is free in a node exactly if binding it changes the node.** -/
theorem mem_free_iff_substitute_ne (n : Node) (x : String) (v : Literal) :
    x ∈ n.free ↔ n.substitute [(x, .literal v)] ≠ n := by
  constructor
  · intro hx hsame
    have hgone := not_mem_free_substitute_literal n x v
    rw [hsame] at hgone
    exact hgone hx
  · intro hne
    by_contra hx
    refine hne (substitute_of_free_unbound fun y hy => ?_)
    have hyx : x ≠ y := fun he => hx (he ▸ hy)
    rw [Fields.get?_cons, if_neg hyx, Fields.get?_nil]

/-! ## Equal nodes have the same free names -/

/-- Each of the nodes has its equal among the others. -/
def HaveEquals (ns ms : List Node) : Prop := ∀ c ∈ ns, ∃ d ∈ ms, sameAs c d = true

namespace HaveEquals

variable {ns ns' ms ms' : List Node}

theorem of_forall₂ (h : Forall₂ (fun x y => sameAs x y = true) ns ms) : HaveEquals ns ms :=
  fun _ hc => exists_of_mem_left h hc

theorem cons (hc : sameAs n m = true) (h : HaveEquals ns ms) : HaveEquals (n :: ns) (m :: ms) :=
  List.forall_mem_cons.2 ⟨⟨m, List.mem_cons_self, hc⟩, fun c hn =>
    let ⟨d, hd, hs⟩ := h c hn
    ⟨d, List.mem_cons_of_mem m hd, hs⟩⟩

theorem one (hc : sameAs n m = true) : HaveEquals [n] [m] := cons hc fun _ h => nomatch h

theorem append (h : HaveEquals ns ms) (h' : HaveEquals ns' ms') : HaveEquals (ns ++ ns') (ms ++ ms') := by
  intro c hc
  rcases List.mem_append.1 hc with hc | hc
  · obtain ⟨d, hd, hs⟩ := h c hc
    exact ⟨d, List.mem_append_left _ hd, hs⟩
  · obtain ⟨d, hd, hs⟩ := h' c hc
    exact ⟨d, List.mem_append_right _ hd, hs⟩

theorem fields {fs gs : Fields Node} (h : SameFields fs gs) : HaveEquals (fs.map Prod.snd) (gs.map Prod.snd) := by
  rw [HaveEquals, List.forall_mem_map]
  intro e he
  obtain ⟨y, hy, hs⟩ := h.2 e he
  exact ⟨y, List.mem_map.2 ⟨_, Fields.mem_of_get? hy, rfl⟩, hs⟩

theorem parameter {p q : Parameter Node} (h : SameParameter p q) : HaveEquals p.parts q.parts := cons h.2.1 (one h.2.2)

theorem parameters {ps qs : List (Parameter Node)} (h : Forall₂ SameParameter ps qs) :
    HaveEquals (ps.flatMap Parameter.parts) (qs.flatMap Parameter.parts) := by
  induction h with
  | nil => exact fun _ h => nomatch h
  | cons hp _ ih => exact (parameter hp).append ih

end HaveEquals

/-- Each part of a kind has its equal among the parts of an equal kind. -/
theorem SameKind.parts {k k' : Kind Node} (h : SameKind k k') : HaveEquals k.parts k'.parts := by
  cases h with
  | primitive | literal | ref => exact fun _ h => nomatch h
  | array h | wrapper _ h => exact .one h
  | tuple h | union h | intersect h | deferred _ h | templatePattern h => exact .of_forall₂ h
  | object h | cyclic h => exact .fields h
  | function h hr | constructor h hr => exact .append (.of_forall₂ h) (.one hr)
  | dictionary hk hv => exact .cons hk (.one hv)
  | parameter h => exact .parameter h
  | generic h hb => exact .append (.parameters h) (.one hb)
  | call ht h => exact .cons ht (.of_forall₂ h)

theorem SameKind.declared {k k' : Kind Node} (h : SameKind k k') : k'.declared = k.declared := by
  cases h with
  | @generic ps qs x y h hb =>
    simp only [Kind.declared]
    induction h with
    | nil => rfl
    | cons hp _ ih => rw [List.map_cons, List.map_cons, ih, hp.1]
  | _ => rfl

theorem boundKey_of_sameAs (h : sameAs n m = true) : m.boundKey = n.boundKey := by
  have hk := (sameAs_iff.1 h).1
  rw [boundKey, boundKey]
  generalize n.kind = k at hk
  generalize m.kind = k' at hk
  cases hk with
  | parameter h => simp only [h.1]
  | _ => rfl

/-- **Equal kinds have equal parts in the same scopes.** -/
theorem SameKind.scopedParts {k k' : Kind Node} (h : SameKind k k') :
    ∀ e ∈ k.scopedParts, ∃ e' ∈ k'.scopedParts, e'.1 = e.1 ∧ sameAs e.2 e'.2 = true := by
  have hplain (hk : k.scopedParts = k.children.map fun c => (k.declared, c))
      (hk' : k'.scopedParts = k'.children.map fun c => (k'.declared, c)) (hchildren : HaveEquals k.children k'.children) :
      ∀ e ∈ k.scopedParts, ∃ e' ∈ k'.scopedParts, e'.1 = e.1 ∧ sameAs e.2 e'.2 = true := by
    rw [hk, hk', List.forall_mem_map]
    intro c hc
    obtain ⟨d, hd, hs⟩ := hchildren c hc
    exact ⟨_, List.mem_map_of_mem hd, h.declared, hs⟩
  have hparts := h.parts
  cases h with
  | cyclic => exact fun _ he => nomatch he
  | @deferred o xs ys a b hs ha =>
    by_cases ho : o = .mapped
    · subst ho
      cases hs with
      | nil => exact fun _ he => nomatch he
      | @cons key key' rest rest' hkey hrest =>
        rw [Kind.scopedParts, Kind.scopedParts, List.forall_mem_cons, List.forall_mem_map]
        refine ⟨⟨_, List.mem_cons_self, rfl, hkey⟩, fun c hc => ?_⟩
        obtain ⟨d, hd, hs⟩ := exists_of_mem_left hrest hc
        exact ⟨_, List.mem_cons_of_mem _ (List.mem_map_of_mem hd), boundKey_of_sameAs hkey, hs⟩
    · refine hplain (Kind.scopedParts_of_children ?_) (Kind.scopedParts_of_children ?_) hparts <;>
        exact fun key rest options hk => ho (Kind.deferred.inj hk).1
  | _ => exact hplain rfl rfl hparts

/-- **Equal nodes have the same free names**, as far as the first one has them. -/
theorem mem_free_of_sameAs (h : sameAs n m = true) (hx : x ∈ n.free) : x ∈ m.free := by
  induction n using induction_on_parts generalizing m with
  | node n ih =>
    have hk := (sameAs_iff.1 h).1
    by_cases href : ∃ name, n.kind = .ref name
    · obtain ⟨name, hkind⟩ := href
      rw [hkind] at hk
      rw [free_eq, hkind] at hx
      generalize hkind' : m.kind = k' at hk
      cases hk
      rw [free_eq, hkind']
      exact hx
    · push Not at href
      have href' : ∀ name, m.kind ≠ .ref name := fun name hkind => by
        rw [hkind] at hk
        generalize hkind' : n.kind = k at hk
        cases hk
        exact href name hkind'
      obtain ⟨e, he, hx, hhidden⟩ := (mem_free_iff_scopedParts href).1 hx
      obtain ⟨e', he', hbinders, hs⟩ := hk.scopedParts e he
      exact (mem_free_iff_scopedParts href').2
        ⟨e', he', ih _ (mem_parts_of_mem_scopedParts he) hs hx, hbinders ▸ hhidden⟩

/-- Where nodes equal themselves, the change can be seen by comparing. -/
theorem mem_free_iff_differs (hn : (n == n) = true) (x : String) (v : Literal) :
    x ∈ n.free ↔ (n == n.substitute [(x, .literal v)]) = false := by
  constructor
  · intro hx
    refine Bool.eq_false_iff.2 fun hsame => not_mem_free_substitute_literal n x v ?_
    exact mem_free_of_sameAs hsame hx
  · intro hne
    rw [mem_free_iff_substitute_ne n x v]
    intro hsame
    rw [hsame, hn] at hne
    cases hne

/-! ## References are collected under keys -/

/-- **The names of references that only keys bind**: they are free in an operand of a mapped type whose key has that
name. -/
def keyed (n : Node) : List String :=
  n.kind.scopedParts.attach.flatMap fun ⟨e, _⟩ =>
    (e.2.free.filter e.1.contains ++ e.2.keyed).filter fun x => !n.kind.declared.contains x
termination_by n.size
decreasing_by exact size_lt_of_mem_scopedParts ‹_›

theorem keyed_eq (n : Node) : n.keyed = n.kind.scopedParts.flatMap fun e =>
    (e.2.free.filter e.1.contains ++ e.2.keyed).filter fun x => !n.kind.declared.contains x := by
  rw [keyed, List.flatMap_def, List.flatMap_def]
  exact congrArg List.flatten (Kind.map_attach n.kind.scopedParts fun e =>
    (e.2.free.filter e.1.contains ++ e.2.keyed).filter fun x => !n.kind.declared.contains x)

theorem mem_keyed_iff : x ∈ n.keyed ↔
    ∃ e ∈ n.kind.scopedParts, (x ∈ e.2.free ∧ x ∈ e.1 ∨ x ∈ e.2.keyed) ∧ x ∉ n.kind.declared := by
  simp only [keyed_eq n, List.mem_flatMap, List.mem_filter, List.mem_append, Bool.not_eq_true',
    List.contains_eq_mem, decide_eq_false_iff_not, decide_eq_true_eq]

/-- **A node refers to its free names and to its keyed ones.** -/
theorem mem_references_iff_free_or_keyed : x ∈ n.references ↔ x ∈ n.free ∨ x ∈ n.keyed := by
  induction n using induction_on_parts with
  | node n ih =>
    by_cases href : ∃ name, n.kind = .ref name
    · obtain ⟨name, hk⟩ := href
      rw [references, mem_referencesUnder_iff, free_eq, mem_keyed_iff, hk]
      simp [Kind.scopedParts, Kind.children, Kind.parts, eq_comm]
    · push Not at href
      rw [mem_references_iff href, mem_free_iff_scopedParts href, mem_keyed_iff]
      constructor
      · rintro ⟨c, hc, hx, hdeclared⟩
        rw [children, ← Kind.map_snd_scopedParts] at hc
        obtain ⟨e, he, rfl⟩ := List.mem_map.1 hc
        rcases (ih _ (mem_parts_of_mem_scopedParts he)).1 hx with hx | hx
        · by_cases hhidden : x ∈ e.1
          · exact .inr ⟨e, he, .inl ⟨hx, hhidden⟩, hdeclared⟩
          · exact .inl ⟨e, he, hx, hhidden⟩
        · exact .inr ⟨e, he, .inr hx, hdeclared⟩
      · have hchild {e : List String × Node} (he : e ∈ n.kind.scopedParts) : e.2 ∈ n.children := by
          rw [children, ← Kind.map_snd_scopedParts]
          exact List.mem_map_of_mem he
        rintro (⟨e, he, hx, hhidden⟩ | ⟨e, he, hx, hdeclared⟩)
        · exact ⟨e.2, hchild he, (ih _ (mem_parts_of_mem_scopedParts he)).2 (.inl hx),
            mt (Kind.declared_of_mem_scopedParts he) hhidden⟩
        · exact ⟨e.2, hchild he, (ih _ (mem_parts_of_mem_scopedParts he)).2 (hx.imp_left And.left), hdeclared⟩

/-- Without a key of its name, no reference is keyed. -/
theorem not_mem_keyed (h : n.everywhere (fun kind => !kind.keyName.contains x) = true) : x ∉ n.keyed := by
  induction n using induction_on_parts with
  | node n ih =>
    obtain ⟨hkey, hparts⟩ := everywhere_iff.1 h
    rw [mem_keyed_iff]
    rintro ⟨e, he, ⟨-, hx⟩ | hx, hdeclared⟩
    · rw [List.contains_iff_mem.2 (Kind.mem_keyName_of_mem_scopedParts he hx hdeclared)] at hkey
      cases hkey
    · have hpart := mem_parts_of_mem_scopedParts he
      exact ih _ hpart (hparts _ hpart) hx

/-! ## The law -/

/-- **References and substitution agree on what is free**, unless all references to a name are keyed.  Binding a name to a
literal changes a node exactly if the name is free in it, and where the node equals itself, as every node without NaN does,
it then differs from the result.  So a node refers to a name exactly if binding it changes the node, if and only if the name
is free in the node whenever it is keyed; in particular where no mapped type has a key of that name. -/
theorem references_iff_substitute_ne (n : Node) (x : String) (v : Literal) :
    ((x ∈ n.references ↔ n.substitute [(x, .literal v)] ≠ n) ↔ (x ∈ n.keyed → x ∈ n.free)) ∧
    (n.everywhere (fun kind => !kind.keyName.contains x) = true →
      (x ∈ n.references ↔ n.substitute [(x, .literal v)] ≠ n)) ∧
    ((n == n) = true →
      (n.substitute [(x, .literal v)] ≠ n ↔ (n == n.substitute [(x, .literal v)]) = false)) := by
  have hlaw : (x ∈ n.references ↔ n.substitute [(x, .literal v)] ≠ n) ↔ (x ∈ n.keyed → x ∈ n.free) := by
    rw [mem_references_iff_free_or_keyed, ← mem_free_iff_substitute_ne]
    exact ⟨fun h hx => h.1 (.inr hx), fun h => ⟨fun hx => hx.elim id h, .inl⟩⟩
  refine ⟨hlaw, fun hkeys => hlaw.2 fun hx => absurd hx (not_mem_keyed hkeys), fun hn => ?_⟩
  rw [← mem_free_iff_substitute_ne, mem_free_iff_differs hn]

/-- Binders that hide names from each other: a generic, a key of another name, and a bundle. -/
theorem references_iff_substitute_ne_nested :
    let n : Node := .object [("m", .mapped ⟨"K", .reference "T", .never⟩ (.tuple [.reference "K", .reference "X"]) none),
      ("g", .generic [⟨"T", .unknown, .reference "X"⟩] (.call (.reference "F") [.reference "T"])),
      ("c", .cyclic [("A", .array (.reference "X"))] "A")]
    n.everywhere (fun kind => !kind.keyName.contains "X") = true ∧ (n == n) = true ∧
      "X" ∈ n.references ∧ (n == n.substitute [("X", .text "v")]) = false := by
  intro n
  have hkeys : n.everywhere (fun kind => !kind.keyName.contains "X") = true := by decide +kernel
  have hself : (n == n) = true := by decide +kernel
  have hx : "X" ∈ n.references := by decide +kernel
  obtain ⟨-, hagree, hdiffers⟩ := references_iff_substitute_ne n "X" (.string "v")
  exact ⟨hkeys, hself, hx, (hdiffers hself).1 ((hagree hkeys).1 hx)⟩

/-- **A key is taken for a dependency.**  The key `K` of a mapped type is bound in its body, so that binding `K` does not
change the node.  It is collected as a reference nevertheless, and a definition called `K` that uses the type counts as a
cycle with it. -/
theorem references_collect_keys :
    let mapping : Node := .mapped ⟨"K", .text "a", .text "a"⟩ (.reference "K") none
    let graph := ReferenceGraph.ofContext [("M", mapping), ("K", .array (.reference "M"))]
    mapping.substitute [("K", .text "v")] = mapping ∧ "K" ∈ mapping.references ∧ graph.groups = [["M", "K"]] := by
  refine ⟨by with_unfolding_all rfl, by decide +kernel, by decide +kernel⟩

end Node
end Schemata
