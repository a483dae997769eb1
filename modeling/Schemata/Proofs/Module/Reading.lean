import Schemata.Node.Build
import Schemata.Proofs.Node.Annotations
/-!
# Reading nodes as trees

A node with references denotes a tree, possibly infinite: references are followed through a scope, a bundle is read from
its root through its own definitions, and a reference without a binding is a leaf.

- `Leads scope n scope' m`: reading `n` comes to rest at `m`, whose parts are read through `scope'`.
- `Shows scope n path sight`: the tree has that sight at the end of that path.
- `Unfolds context kept n m`: `m` is `n` with the references followed that are not kept.

Main statement: `Assembled.shows_iff`, unfolding a context around kept definitions does not change any tree.
-/
namespace Schemata

/-! ## Trees -/

/-- **What is seen of a node** by itself: its form with the data in it, its flags and its annotations. -/
structure Sight where
  form : Kind Unit
  modifiers : Modifiers
  annotations : Annotations

def Node.sight (n : Node) : Sight := ⟨n.kind.shape, n.modifiers, n.annotations⟩

/-- **Reading stops at a node**: it is no bundle, and no reference that the scope binds. -/
def Stops (scope : Context) (n : Node) : Prop :=
  match n.kind with
  | .ref name => scope.get? name = none
  | .cyclic .. => False
  | _ => True

/-- **Reading a node comes to rest** at a node in some scope.  What a reference or a bundle leads to takes over its flags
and annotations. -/
inductive Leads : Context → Node → Context → Node → Prop
  | rest {scope : Context} {n : Node} (h : Stops scope n) : Leads scope n scope n
  | follow {scope scope' : Context} {n target m : Node} {name : String} (h : n.kind = .ref name)
    (bound : scope.get? name = some target) (next : Leads scope target scope' m) : Leads scope n scope' (m.inherit n)
  | enter {scope scope' : Context} {n m : Node} {definitions : Fields Node} {root : String}
    (h : n.kind = .cyclic definitions root) (next : Leads definitions (n.rebuild (.ref root)) scope' m) :
    Leads scope n scope' m

/-- **What the tree of a node shows** at the end of a path of positions. -/
inductive Shows : Context → Node → List Nat → Sight → Prop
  | here {scope scope' : Context} {n m : Node} (h : Leads scope n scope' m) : Shows scope n [] m.sight
  | inside {scope scope' : Context} {n m c : Node} {i : Nat} {path : List Nat} {sight : Sight}
    (h : Leads scope n scope' m) (part : m.kind.parts[i]? = some c) (rest : Shows scope' c path sight) :
    Shows scope n (i :: path) sight

theorem Stops.inherit {scope : Context} {n : Node} (h : Stops scope n) (origin : Node) :
    Stops scope (n.inherit origin) := h

theorem Stops.leads_eq {scope scope' : Context} {n m : Node} (h : Stops scope n) (hl : Leads scope n scope' m) :
    scope' = scope ∧ m = n := by
  cases hl with
  | rest => exact ⟨rfl, rfl⟩
  | follow hn bound =>
    rw [Stops, hn] at h
    simp only at h
    rw [h] at bound
    cases bound
  | enter hn =>
    rw [Stops, hn] at h
    cases h

/-- A bundle shows what its root shows among its definitions. -/
theorem shows_bundle (scope definitions : Context) (root : String) (path : List Nat) (sight : Sight) :
    Shows scope (.cyclic definitions root) path sight ↔ Shows definitions (.reference root) path sight := by
  have henter : ∀ {scope' m}, Leads scope (.cyclic definitions root) scope' m ↔
      Leads definitions (.reference root) scope' m := by
    intro scope' m
    constructor
    · rintro (hs | ⟨hn, -, -⟩ | ⟨hn, next⟩)
      · exact absurd hs id
      · cases hn
      · cases hn
        exact next
    · exact fun next => .enter rfl next
  constructor
  · rintro (hl | ⟨hl, part, rest⟩)
    · exact .here (henter.1 hl)
    · exact .inside (henter.1 hl) part rest
  · rintro (hl | ⟨hl, part, rest⟩)
    · exact .here (henter.2 hl)
    · exact .inside (henter.2 hl) part rest

theorem shows_reference {scope : Context} {name : String} {n : Node} (hn : scope.get? name = some n) (path : List Nat)
    (sight : Sight) : Shows scope (.reference name) path sight ↔ Shows scope n path sight := by
  have hfollow : ∀ {scope' m}, Leads scope (.reference name) scope' m ↔ Leads scope n scope' m := by
    intro scope' m
    constructor
    · rintro (hs | ⟨hk, bound, next⟩ | ⟨hk, -⟩)
      · rw [show Stops scope (.reference name) ↔ scope.get? name = none from Iff.rfl, hn] at hs
        cases hs
      · cases hk
        rw [hn] at bound
        cases bound
        rw [Node.reference, Node.inherit_of]
        exact next
      · cases hk
    · intro next
      have hl : Leads scope (.reference name) scope' (m.inherit (.reference name)) := .follow rfl hn next
      rwa [Node.reference, Node.inherit_of] at hl
  constructor
  · rintro (hl | ⟨hl, part, rest⟩)
    · exact .here (hfollow.1 hl)
    · exact .inside (hfollow.1 hl) part rest
  · rintro (hl | ⟨hl, part, rest⟩)
    · exact .here (hfollow.2 hl)
    · exact .inside (hfollow.2 hl) part rest

/-! ## Unfolding -/

/-- **`m` is `n` with references followed**, all but those to kept names and those that are not bound.  Reading stops at
what a reference is followed to. -/
inductive Unfolds (context : Context) (kept : List String) : Node → Node → Prop
  | leaf {n : Node} {name : String} (h : n.kind = .ref name) (stays : name ∈ kept ∨ context.get? name = none) :
    Unfolds context kept n n
  | follow {n target m : Node} {name : String} (h : n.kind = .ref name) (passes : name ∉ kept)
    (bound : context.get? name = some target) (next : Unfolds context kept target m) (stops : Stops context m) :
    Unfolds context kept n (m.inherit n)
  | parts {n : Node} {kind : Kind Node} (stops : Stops [] n) (noref : ∀ name, n.kind ≠ .ref name)
    (shape : kind.shape = n.kind.shape) (length : kind.parts.length = n.kind.parts.length)
    (each : ∀ (i : Nat) (c d : Node), n.kind.parts[i]? = some c → kind.parts[i]? = some d → Unfolds context kept c d) :
    Unfolds context kept n (n.rebuild kind)

/-- **Two nodes that look alike**, part by part an unfolding of each other. -/
structure Alike (context : Context) (kept : List String) (n m : Node) : Prop where
  sight : m.sight = n.sight
  length : m.kind.parts.length = n.kind.parts.length
  each : ∀ (i : Nat) (c d : Node), n.kind.parts[i]? = some c → m.kind.parts[i]? = some d → Unfolds context kept c d

/-- **A context and its kept definitions unfolded**: they bind the kept names, and no others. -/
structure Assembled (context : Context) (kept : List String) (definitions : Context) : Prop where
  bound : ∀ name ∈ kept, ∃ target unfolded, context.get? name = some target ∧
    definitions.get? name = some unfolded ∧ Unfolds context kept target unfolded
  only : ∀ name, name ∉ kept → definitions.get? name = none

namespace Alike

variable {context : Context} {kept : List String} {n m : Node}

theorem inherit (h : Alike context kept n m) (origin : Node) :
    Alike context kept (n.inherit origin) (m.inherit origin) := by
  refine ⟨?_, h.length, h.each⟩
  have hs := h.sight
  simp only [Node.sight, Sight.mk.injEq] at hs
  simp only [Node.sight, Node.inherit, hs.1, hs.2.1, hs.2.2]

theorem refl_of_ref {name : String} (h : n.kind = .ref name) : Alike context kept n n := by
  refine ⟨rfl, rfl, fun i c d hc => ?_⟩
  rw [h] at hc
  cases hc

end Alike

/-- A kind of the same shape as one that is neither a reference nor a bundle is neither of them. -/
theorem stops_rebuild {n : Node} (stops : Stops [] n) (noref : ∀ name, n.kind ≠ .ref name) {kind : Kind Node}
    (shape : kind.shape = n.kind.shape) (scope : Context) :
    Stops scope (n.rebuild kind) ∧ ∀ name, kind ≠ .ref name := by
  obtain ⟨k, modifiers, annotations⟩ := n
  cases k with
  | ref name => exact absurd rfl (noref name)
  | cyclic definitions root => exact absurd stops id
  | _ => cases kind <;> first | exact ⟨trivial, by simp⟩ | cases shape

namespace Assembled

variable {context definitions : Context} {kept : List String}

/-- A reference that is not bound in the context is not bound in the definitions. -/
theorem get?_eq_none (h : Assembled context kept definitions) {name : String} (hn : context.get? name = none) :
    definitions.get? name = none := by
  refine h.only name fun hk => ?_
  obtain ⟨target, -, ht, -⟩ := h.bound name hk
  rw [hn] at ht
  cases ht

theorem stops (h : Assembled context kept definitions) {n : Node} (hs : Stops context n) : Stops definitions n := by
  obtain ⟨kind, modifiers, annotations⟩ := n
  cases kind with
  | ref name => exact h.get?_eq_none hs
  | cyclic => exact hs
  | _ => trivial

/-- **Reading an unfolding comes to rest** where reading the node does, by induction on the reading of the node. -/
theorem leads_of_leads (h : Assembled context kept definitions) {scope : Context} {n r : Node}
    (hl : Leads context n scope r) {m : Node} (hu : Unfolds context kept n m) :
    scope = context ∧ ∃ r', Leads definitions m definitions r' ∧ Alike context kept r r' := by
  generalize hc : context = start at hl
  induction hl generalizing m with
  | @rest scope n hn =>
    subst hc
    refine ⟨rfl, ?_⟩
    cases hu with
    | leaf hk => exact ⟨n, .rest (h.stops hn), .refl_of_ref hk⟩
    | follow hk passes bound =>
      rw [Stops, hk] at hn
      simp only at hn
      rw [hn] at bound
      cases bound
    | parts stops noref shape length each =>
      refine ⟨_, .rest (stops_rebuild stops noref shape _).1, ?_, length, each⟩
      simp only [Node.sight, Node.rebuild, shape]
  | @follow scope scope' n target r name hn bound next ih =>
    subst hc
    cases hu with
    | leaf hk stays =>
      rw [hn] at hk
      cases hk
      -- The name is kept: reading goes on in its unfolded definition.
      have hkept : name ∈ kept := stays.resolve_right fun hfree => by rw [bound] at hfree; cases hfree
      obtain ⟨t, unfolded, ht, hd, hu⟩ := h.bound name hkept
      rw [bound] at ht
      cases ht
      obtain ⟨hs, r', hr, halike⟩ := ih hu rfl
      exact ⟨hs, _, .follow hn hd hr, halike.inherit n⟩
    | @follow _ t m _ hk passes hbound hnext stops =>
      rw [hn] at hk
      cases hk
      rw [bound] at hbound
      cases hbound
      obtain ⟨hs, r', hr, halike⟩ := ih hnext rfl
      obtain ⟨-, rfl⟩ := (h.stops stops).leads_eq hr
      exact ⟨hs, _, .rest ((h.stops stops).inherit n), halike.inherit n⟩
    | parts stops noref => exact absurd hn (noref _)
  | enter hn next ih =>
    subst hc
    cases hu with
    | leaf hk => rw [hn] at hk; cases hk
    | follow hk => rw [hn] at hk; cases hk
    | parts stops => rw [Stops, hn] at stops; exact absurd stops id

/-- **Where an unfolding stops, the node leads**, by induction on the unfolding. -/
theorem leads_of_stops (h : Assembled context kept definitions) {n m : Node} (hu : Unfolds context kept n m)
    (hm : Stops definitions m) : ∃ r, Leads context n context r ∧ Alike context kept r m := by
  induction hu with
  | @leaf n name hn stays =>
    have hfree : context.get? name = none := by
      refine stays.resolve_left fun hk => ?_
      obtain ⟨-, unfolded, -, hd, -⟩ := h.bound name hk
      rw [Stops, hn] at hm
      simp only at hm
      rw [hm] at hd
      cases hd
    exact ⟨n, .rest (by rw [Stops, hn]; exact hfree), .refl_of_ref hn⟩
  | @follow n target m name hn passes bound next stops ih =>
    obtain ⟨r, hr, halike⟩ := ih (h.stops stops)
    exact ⟨_, .follow hn bound hr, halike.inherit n⟩
  | @parts n kind stops noref shape length each =>
    refine ⟨n, .rest ?_, ?_, length, each⟩
    · have hself := (stops_rebuild stops noref rfl context).1
      exact hself
    · simp only [Node.sight, Node.rebuild, shape]

/-- **Reading a node comes to rest** where reading an unfolding does, by induction on the reading of the unfolding. -/
theorem leads_of_leads_unfolded (h : Assembled context kept definitions) {scope : Context} {m r' : Node}
    (hl : Leads definitions m scope r') {n : Node} (hu : Unfolds context kept n m) :
    scope = definitions ∧ ∃ r, Leads context n context r ∧ Alike context kept r r' := by
  generalize hc : definitions = start at hl
  induction hl generalizing n with
  | rest hm =>
    subst hc
    exact ⟨rfl, h.leads_of_stops hu hm⟩
  | @follow scope scope' m target r' name hm bound next ih =>
    subst hc
    cases hu with
    | leaf hn stays =>
      have hkept : name ∈ kept := by
        by_contra hnot
        rw [h.only name hnot] at bound
        cases bound
      obtain ⟨t, unfolded, ht, hd, hu⟩ := h.bound name hkept
      rw [bound] at hd
      cases hd
      obtain ⟨hs, r, hr, halike⟩ := ih hu rfl
      exact ⟨hs, _, .follow hm ht hr, halike.inherit m⟩
    | @follow n t k _ hn passes hbound hnext stops =>
      have hstop : Stops definitions (k.inherit n) := (h.stops stops).inherit n
      rw [Stops, hm] at hstop
      simp only at hstop
      rw [hstop] at bound
      cases bound
    | parts stops noref shape => exact absurd hm ((stops_rebuild stops noref shape []).2 _)
  | @enter scope scope' m r' ds root hm next ih =>
    subst hc
    cases hu with
    | leaf hn => rw [hm] at hn; cases hn
    | @follow n t k _ hn passes hbound hnext stops =>
      have hstop : Stops definitions (k.inherit n) := (h.stops stops).inherit n
      rw [Stops, hm] at hstop
      exact absurd hstop id
    | @parts n kind stops noref shape =>
      have hstop := (stops_rebuild stops noref shape definitions).1
      rw [Stops, hm] at hstop
      exact absurd hstop id

theorem exists_part {α : Type} {xs ys : List α} (h : xs.length = ys.length) {i : Nat} {x : α} (hx : xs[i]? = some x) :
    ∃ y, ys[i]? = some y := by
  obtain ⟨hi, -⟩ := List.getElem?_eq_some_iff.1 hx
  exact ⟨ys[i], List.getElem?_eq_getElem (h ▸ hi)⟩

/-- **Unfolding keeps trees**: what a node shows in the context, its unfolding shows in the definitions. -/
theorem shows_iff (h : Assembled context kept definitions) {n m : Node} (hu : Unfolds context kept n m)
    (path : List Nat) (sight : Sight) : Shows context n path sight ↔ Shows definitions m path sight := by
  induction path generalizing n m with
  | nil =>
    constructor
    · rintro ⟨hl⟩
      obtain ⟨-, r', hr, halike⟩ := h.leads_of_leads hl hu
      rw [← halike.sight]
      exact .here hr
    · rintro ⟨hl⟩
      obtain ⟨-, r, hr, halike⟩ := h.leads_of_leads_unfolded hl hu
      rw [halike.sight]
      exact .here hr
  | cons i path ih =>
    constructor
    · rintro (_ | ⟨hl, part, rest⟩)
      obtain ⟨rfl, r', hr, halike⟩ := h.leads_of_leads hl hu
      obtain ⟨d, hd⟩ := exists_part halike.length.symm part
      exact .inside hr hd ((ih (halike.each _ _ _ part hd)).1 rest)
    · rintro (_ | ⟨hl, part, rest⟩)
      obtain ⟨rfl, r, hr, halike⟩ := h.leads_of_leads_unfolded hl hu
      obtain ⟨c, hc⟩ := exists_part halike.length part
      exact .inside hr hc ((ih (halike.each _ _ _ hc part)).2 rest)

end Assembled
end Schemata
