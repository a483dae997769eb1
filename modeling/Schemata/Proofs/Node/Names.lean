import Schemata.Instantiation.Substitution
import Schemata.Proofs.Node.Parts
/-!
# Names in a tree

A reference is bound by the generics and the bundles around it.

- `loose` lists the references of a tree that nothing in it binds, those inside of bundles included.
- `trapped` lists those that leave a bundle but that no substitution from outside can reach.
- `Grounded allowed declared n` says that all loose references of a node are allowed, except that open ones may be
  declared names.  It is a property of the parts (`grounded_iff_parts`), and substitution keeps it (`Grounded.substitute`).
-/
namespace Schemata

namespace Kind

/-- The names that a kind binds for its parts: parameters of a generic, definitions of a bundle. -/
def binds {α : Type} : Kind α → List String
  | .cyclic definitions _ => definitions.map Prod.fst
  | kind => kind.declared

/-- Whether the references of a kind are those of its parts. -/
def isBranch {α : Type} : Kind α → Bool
  | .ref _ | .cyclic .. | .deferred .. => false
  | _ => true

def isSettled {α : Type} : Kind α → Bool
  | .deferred .. => false
  | _ => true

def isDirect {α : Type} : Kind α → Bool
  | .deferred .. | .cyclic .. => false
  | _ => true

theorem isBranch_of_shape {α β : Type} {kind : Kind α} {other : Kind β} (h : kind.shape = other.shape) :
    kind.isBranch = other.isBranch := by
  cases kind <;> cases other <;> first | rfl | cases h

theorem shape_map {α β : Type} (f : α → β) (kind : Kind α) : (kind.map f).shape = kind.shape := by
  cases kind <;> simp [shape, map, Function.comp_def]

theorem parts_map {α β : Type} (f : α → β) (kind : Kind α) : (kind.map f).parts = kind.parts.map f := by
  cases kind <;> simp [parts, map, Parameter.parts, List.flatMap_map, List.map_flatMap]

end Kind

namespace Node

/-- The names other than bound ones that are referred to below a node, inside of bundles too. -/
def looseUnder (bound : List String) (n : Node) : List String :=
  match n.kind with
  | .ref name => if bound.contains name then [] else [name]
  | kind => n.kind.parts.attach.flatMap fun ⟨c, _⟩ => c.looseUnder (bound ++ kind.binds)
termination_by n.size
decreasing_by exact size_lt_of_mem_parts ‹_›

theorem looseUnder_eq (bound : List String) (n : Node) : n.looseUnder bound =
    match n.kind with
    | .ref name => if bound.contains name then [] else [name]
    | kind => n.kind.parts.flatMap (looseUnder (bound ++ kind.binds)) := by
  rw [looseUnder]; split <;> simp_all

/-- **The references that nothing in a tree binds**, those inside of bundles included. -/
def loose (n : Node) : List String := n.looseUnder []

/-- **The references that leave a bundle** of the tree, whatever is declared around the bundle. -/
def trapped (n : Node) : List String :=
  match n.kind with
  | .cyclic .. => n.loose
  | _ => n.kind.parts.attach.flatMap fun ⟨c, _⟩ => c.trapped
termination_by n.size
decreasing_by exact size_lt_of_mem_parts ‹_›

theorem trapped_eq (n : Node) : n.trapped =
    match n.kind with
    | .cyclic .. => n.loose
    | _ => n.kind.parts.flatMap trapped := by
  rw [trapped]; split <;> simp_all

/-! ## Names part by part -/

variable {n : Node} {x : String}

/-- Collecting names below binders: what is hidden from the start is taken out, and nothing else. -/
theorem mem_under_iff {under : List String → Node → List String} {below : Node → List Node}
    {binds : Node → List String} (hbelow : ∀ n, ∀ c ∈ below n, c ∈ n.kind.parts)
    (hunder : ∀ hidden n x, x ∈ under hidden n ↔ (n.kind = .ref x ∧ x ∉ hidden) ∨
      ((∀ name, n.kind ≠ .ref name) ∧ ∃ c ∈ below n, x ∈ under (hidden ++ binds n) c)) {hidden : List String} :
    x ∈ under hidden n ↔ x ∈ under [] n ∧ x ∉ hidden := by
  induction n using Node.induction_on_parts generalizing hidden with
  | node n ih =>
    rw [hunder hidden, hunder []]
    constructor
    · rintro (⟨hk, hx⟩ | ⟨href, c, hc, hx⟩)
      · exact ⟨.inl ⟨hk, List.not_mem_nil⟩, hx⟩
      · rw [ih c (hbelow n c hc), List.mem_append, not_or] at hx
        exact ⟨.inr ⟨href, c, hc, (ih c (hbelow n c hc)).2 ⟨hx.1, hx.2.2⟩⟩, hx.2.1⟩
    · rintro ⟨⟨hk, -⟩ | ⟨href, c, hc, hx⟩, hh⟩
      · exact .inl ⟨hk, hh⟩
      · rw [ih c (hbelow n c hc)] at hx
        refine .inr ⟨href, c, hc, (ih c (hbelow n c hc)).2 ⟨hx.1, ?_⟩⟩
        rw [List.mem_append, not_or]
        exact ⟨hh, hx.2⟩

theorem mem_unless {hidden : List String} {name : String} :
    x ∈ (if hidden.contains name then [] else [name]) ↔ name = x ∧ x ∉ hidden := by
  by_cases h : name ∈ hidden
  · rw [if_pos (List.contains_iff_mem.2 h)]
    simp only [List.not_mem_nil, false_iff, not_and, not_not]
    exact fun hx => hx ▸ h
  · rw [if_neg fun hc => h (List.contains_iff_mem.1 hc), List.mem_singleton]
    exact ⟨fun hx => ⟨hx.symm, hx ▸ h⟩, fun hx => hx.1.symm⟩

theorem mem_referencesUnder_iff (hidden : List String) (n : Node) (x : String) :
    x ∈ n.referencesUnder hidden ↔ (n.kind = .ref x ∧ x ∉ hidden) ∨
      ((∀ name, n.kind ≠ .ref name) ∧ ∃ c ∈ n.children, x ∈ c.referencesUnder (hidden ++ n.kind.declared)) := by
  rw [referencesUnder_eq]
  obtain ⟨kind, modifiers, annotations⟩ := n
  cases kind with
  | ref name =>
    dsimp only
    rw [mem_unless]
    simp
  | _ => simp

theorem mem_looseUnder_iff (bound : List String) (n : Node) (x : String) :
    x ∈ n.looseUnder bound ↔ (n.kind = .ref x ∧ x ∉ bound) ∨
      ((∀ name, n.kind ≠ .ref name) ∧ ∃ c ∈ n.kind.parts, x ∈ c.looseUnder (bound ++ n.kind.binds)) := by
  rw [looseUnder_eq]
  obtain ⟨kind, modifiers, annotations⟩ := n
  cases kind with
  | ref name =>
    dsimp only
    rw [mem_unless]
    simp
  | _ => simp

theorem mem_referencesUnder {hidden : List String} : x ∈ n.referencesUnder hidden ↔ x ∈ n.references ∧ x ∉ hidden :=
  mem_under_iff (fun _ _ => Kind.mem_parts_of_mem_children) mem_referencesUnder_iff

theorem mem_looseUnder {bound : List String} : x ∈ n.looseUnder bound ↔ x ∈ n.loose ∧ x ∉ bound :=
  mem_under_iff (fun _ _ h => h) mem_looseUnder_iff

/-- A node that is no reference refers to what its open parts refer to, without what it declares. -/
theorem mem_references_iff (href : ∀ name, n.kind ≠ .ref name) :
    x ∈ n.references ↔ ∃ c ∈ n.children, x ∈ c.references ∧ x ∉ n.kind.declared := by
  rw [references, mem_referencesUnder_iff]
  constructor
  · rintro (⟨hk, -⟩ | ⟨-, c, hc, hx⟩)
    · exact absurd hk (href x)
    · exact ⟨c, hc, mem_referencesUnder.1 hx⟩
  · rintro ⟨c, hc, hx⟩
    exact .inr ⟨href, c, hc, mem_referencesUnder.2 hx⟩

theorem mem_loose_iff (href : ∀ name, n.kind ≠ .ref name) :
    x ∈ n.loose ↔ ∃ c ∈ n.kind.parts, x ∈ c.loose ∧ x ∉ n.kind.binds := by
  rw [loose, mem_looseUnder_iff]
  constructor
  · rintro (⟨hk, -⟩ | ⟨-, c, hc, hx⟩)
    · exact absurd hk (href x)
    · exact ⟨c, hc, mem_looseUnder.1 hx⟩
  · rintro ⟨c, hc, hx⟩
    exact .inr ⟨href, c, hc, mem_looseUnder.2 hx⟩

/-- A loose reference is open, or it leaves a bundle. -/
theorem mem_references_or_trapped (h : x ∈ n.loose) : x ∈ n.references ∨ x ∈ n.trapped := by
  induction n using Node.induction_on_parts with
  | node n ih =>
    by_cases href : ∃ name, n.kind = .ref name
    · obtain ⟨name, hk⟩ := href
      rw [loose, looseUnder_eq, hk] at h
      rw [references, referencesUnder_eq, hk]
      exact .inl h
    · have href' : ∀ name, n.kind ≠ .ref name := fun name hk => href ⟨name, hk⟩
      by_cases hbundle : ∃ definitions root, n.kind = .cyclic definitions root
      · obtain ⟨definitions, root, hk⟩ := hbundle
        rw [trapped_eq, hk]
        exact .inr h
      · obtain ⟨c, hc, hx, hb⟩ := (mem_loose_iff href').1 h
        have hopen : c ∈ n.children ∧ n.kind.binds = n.kind.declared ∧ n.trapped = n.kind.parts.flatMap trapped := by
          rw [trapped_eq, children]
          obtain ⟨kind, modifiers, annotations⟩ := n
          cases kind with
          | cyclic definitions root => exact absurd ⟨definitions, root, rfl⟩ hbundle
          | _ => exact ⟨hc, rfl, rfl⟩
        rcases ih c hc hx with hx | hx
        · exact .inl ((mem_references_iff href').2 ⟨c, hopen.1, hx, hopen.2.1 ▸ hb⟩)
        · rw [hopen.2.2]
          exact .inr (List.mem_flatMap.2 ⟨c, hc, hx⟩)

theorem names_of_kind {m : Node} (h : m.kind = n.kind) :
    m.references = n.references ∧ m.trapped = n.trapped ∧ m.loose = n.loose := by
  obtain ⟨kind, modifiers, annotations⟩ := n
  obtain ⟨kind', modifiers', annotations'⟩ := m
  have hk : kind' = kind := h
  subst hk
  have hloose : (Node.mk kind' modifiers' annotations').loose = (Node.mk kind' modifiers annotations).loose := by
    rw [loose, loose, looseUnder_eq, looseUnder_eq]
  refine ⟨?_, ?_, hloose⟩
  · rw [references, references, referencesUnder_eq, referencesUnder_eq]
    rfl
  · rw [trapped_eq, trapped_eq, hloose]

/-! ## Grounded nodes -/

/-- **Every loose reference is allowed**, or declared around the node where a substitution can reach it; and no operator
is deferred. -/
structure Grounded (allowed : String → Prop) (declared : List String) (n : Node) : Prop where
  settled : n.everywhere Kind.isSettled = true
  references : ∀ x ∈ n.references, x ∈ declared ∨ allowed x
  trapped : ∀ x ∈ n.trapped, allowed x

namespace Grounded

variable {allowed wider : String → Prop} {declared more : List String}

theorem mono (h : Grounded allowed declared n) (ha : ∀ x, allowed x → wider x) (hd : ∀ x ∈ declared, x ∈ more) :
    Grounded wider more n :=
  ⟨h.settled, fun x hx => (h.references x hx).imp (hd x) (ha x), fun x hx => ha x (h.trapped x hx)⟩

theorem of_kind {m : Node} (h : Grounded allowed declared n) (hk : m.kind = n.kind) : Grounded allowed declared m := by
  obtain ⟨hr, ht, -⟩ := names_of_kind hk
  refine ⟨?_, hr ▸ h.references, ht ▸ h.trapped⟩
  have hs := h.settled
  rw [everywhere_eq] at hs ⊢
  rw [hk]
  exact hs

/-- What a grounded node does not refer to need not be declared, nor what is allowed. -/
theorem narrow (h : Grounded allowed declared n) (hd : ∀ x ∈ n.references, x ∈ declared → x ∈ more ∨ allowed x) :
    Grounded allowed more n :=
  ⟨h.settled, fun x hx => (h.references x hx).elim (hd x hx) .inr, h.trapped⟩

theorem loose (h : Grounded allowed declared n) {x : String} (hx : x ∈ n.loose) : x ∈ declared ∨ allowed x := by
  rcases mem_references_or_trapped hx with hx | hx
  · exact h.references x hx
  · exact .inr (h.trapped x hx)

theorem reference {name : String} (h : allowed name) : Grounded allowed declared (Node.of (.ref name)) := by
  refine ⟨by rw [everywhere_eq]; rfl, fun x hx => ?_, fun x hx => ?_⟩
  · rw [Node.references, mem_referencesUnder_iff] at hx
    rcases hx with ⟨hk, -⟩ | ⟨href, -⟩
    · cases hk
      exact .inr h
    · exact absurd rfl (href name)
  · rw [trapped_eq] at hx
    cases hx

end Grounded

/-- **Being grounded is a property of the parts.** -/
theorem grounded_iff_parts {allowed : String → Prop} {declared : List String} (h : n.kind.isBranch = true) :
    Grounded allowed declared n ↔ ∀ c ∈ n.kind.parts, Grounded allowed (declared ++ n.kind.declared) c := by
  have hopen : n.children = n.kind.parts ∧ n.trapped = n.kind.parts.flatMap trapped ∧ n.kind.isSettled = true ∧
      ∀ name, n.kind ≠ .ref name := by
    rw [trapped_eq, children]
    obtain ⟨kind, modifiers, annotations⟩ := n
    cases kind with
    | ref | cyclic | deferred => cases h
    | _ => exact ⟨rfl, rfl, rfl, by simp⟩
  obtain ⟨hchildren, htrapped, hsettled, href⟩ := hopen
  constructor
  · intro hg c hc
    refine ⟨(everywhere_iff.1 hg.settled).2 c hc, fun x hx => ?_, fun x hx => hg.trapped x ?_⟩
    · by_cases hd : x ∈ n.kind.declared
      · exact .inl (List.mem_append_right _ hd)
      · have hn := hg.references x ((mem_references_iff href).2 ⟨c, hchildren ▸ hc, hx, hd⟩)
        exact hn.imp (List.mem_append_left _) id
    · rw [htrapped]
      exact List.mem_flatMap.2 ⟨c, hc, hx⟩
  · intro hg
    refine ⟨everywhere_iff.2 ⟨hsettled, fun c hc => (hg c hc).settled⟩, fun x hx => ?_, fun x hx => ?_⟩
    · obtain ⟨c, hc, hx, hd⟩ := (mem_references_iff href).1 hx
      rcases (hg c (hchildren ▸ hc)).references x hx with hx | hx
      · exact .inl ((List.mem_append.1 hx).resolve_right hd)
      · exact .inr hx
    · rw [htrapped] at hx
      obtain ⟨c, hc, hx⟩ := List.mem_flatMap.1 hx
      exact (hg c hc).trapped x hx

theorem Grounded.map {allowed : String → Prop} {declared : List String} (h : n.kind.isBranch = true) {f : Node → Node}
    (hf : ∀ c ∈ n.kind.parts, Grounded allowed (declared ++ n.kind.declared) (f c)) :
    Grounded allowed declared (n.rebuild (n.kind.map f)) := by
  have hshape : (n.kind.map f).shape = n.kind.shape := Kind.shape_map _ _
  refine (grounded_iff_parts ((Kind.isBranch_of_shape hshape).trans h)).2 fun d hd => ?_
  simp only [rebuild, Kind.parts_map, List.mem_map] at hd
  obtain ⟨c, hc, rfl⟩ := hd
  have hg := hf c hc
  rw [← Kind.declared_eq_of_shape hshape] at hg
  exact hg

theorem Grounded.traverse {allowed : String → Prop} {declared : List String} (h : n.kind.isBranch = true)
    {f : Node → Outcome Node} {kind : Kind Node} (ht : n.kind.traverse f = .done kind)
    (hf : ∀ c ∈ n.kind.parts, ∀ d, f c = .done d → Grounded allowed (declared ++ n.kind.declared) d) :
    Grounded allowed declared (n.rebuild kind) := by
  obtain ⟨hshape, hparts⟩ := Kind.forall₂_of_traverse ht
  refine (grounded_iff_parts ((Kind.isBranch_of_shape hshape).trans h)).2 fun d hd => ?_
  obtain ⟨c, hc, hcd⟩ := exists_of_mem_right hparts hd
  have hg := hf c hc d hcd
  rw [← Kind.declared_eq_of_shape hshape] at hg
  exact hg

/-- **A node without deferred operators and bundles** is grounded when its references are allowed. -/
theorem grounded_of_isDirect {allowed : String → Prop} (h : n.everywhere Kind.isDirect = true)
    (hr : ∀ x ∈ n.references, allowed x) : Grounded allowed [] n := by
  have hsettled : n.everywhere Kind.isSettled = true ∧ n.trapped = [] := by
    clear hr
    induction n using Node.induction_on_parts with
    | node n ih =>
      obtain ⟨hdirect, hparts⟩ := everywhere_iff.1 h
      rw [everywhere_iff, trapped_eq]
      obtain ⟨kind, modifiers, annotations⟩ := n
      cases kind with
      | deferred | cyclic => cases hdirect
      | _ =>
        refine ⟨⟨rfl, fun c hc => (ih c hc (hparts c hc)).1⟩, ?_⟩
        exact List.flatMap_eq_nil_iff.2 fun c hc => (ih c hc (hparts c hc)).2
  refine ⟨hsettled.1, fun x hx => .inr (hr x hx), fun x hx => ?_⟩
  rw [hsettled.2] at hx
  cases hx

/-- **A bundle is grounded** when all its loose references are allowed. -/
theorem grounded_bundle {allowed : String → Prop} {declared : List String} {definitions : Fields Node} {root : String}
    (hs : ∀ c ∈ definitions.map Prod.snd, c.everywhere Kind.isSettled = true)
    (h : ∀ x ∈ (Node.of (.cyclic definitions root)).loose, allowed x) :
    Grounded allowed declared (.of (.cyclic definitions root)) := by
  refine ⟨everywhere_iff.2 ⟨rfl, hs⟩, fun x hx => ?_, fun x hx => h x (by rw [trapped_eq] at hx; exact hx)⟩
  obtain ⟨c, hc, -⟩ := (mem_references_iff (by intro name hk; cases hk)).1 hx
  cases hc

/-- **Substitution keeps a node grounded** and brings it out of the scope of what is bound. -/
theorem Grounded.substitute {allowed : String → Prop} {inner outer : List String} {bindings : Fields Node}
    (h : Grounded allowed inner n) (hb : ∀ name m, bindings.get? name = some m → Grounded allowed outer m)
    (hd : ∀ x ∈ inner, x ∈ outer ∨ bindings.has x = true) : Grounded allowed outer (n.substitute bindings) := by
  induction n using Node.induction_on_parts generalizing inner outer bindings with
  | node n ih =>
    rw [substitute_eq]
    obtain ⟨kind, modifiers, annotations⟩ := n
    cases kind with
    | ref name =>
      dsimp only
      cases hg : bindings.get? name with
      | some m => exact (hb name m hg).of_kind rfl
      | none =>
        refine ⟨h.settled, fun x hx => ?_, h.trapped⟩
        rcases h.references x hx with hin | ha
        · -- What is in scope and not bound is in scope outside.
          have hname : x = name := by
            rw [Node.references, mem_referencesUnder_iff] at hx
            rcases hx with ⟨hk, -⟩ | ⟨href, -⟩
            · cases hk
              rfl
            · exact absurd rfl (href name)
          refine .inl ((hd x hin).resolve_right ?_)
          rw [hname, Fields.has, hg]
          decide
        · exact .inr ha
    | cyclic definitions root =>
      refine ⟨h.settled, fun x hx => ?_, h.trapped⟩
      obtain ⟨c, hc, -⟩ := (mem_references_iff (by intro name hk; cases hk)).1 hx
      cases hc
    | deferred operator operands options => cases (everywhere_iff.1 h.settled).1
    | generic parameters body =>
      refine Grounded.map rfl fun c hc => ih c hc ((grounded_iff_parts rfl).1 h c hc) (fun name m hm => ?_) fun x hx => ?_
      · rw [Fields.get?_without] at hm
        split at hm
        · cases hm
        · exact (hb name m hm).mono (fun _ ha => ha) fun x hx => List.mem_append_left _ hx
      · by_cases hp : x ∈ parameters.map (·.name)
        · exact .inl (List.mem_append_right _ hp)
        · rcases hd x ((List.mem_append.1 hx).resolve_right hp) with ho | hbound
          · exact .inl (List.mem_append_left _ ho)
          · right
            rw [Fields.has, Fields.get?_without, if_neg hp]
            exact hbound
    | _ =>
      refine Grounded.map rfl fun c hc => ?_
      have hparts := (grounded_iff_parts rfl).1 h c hc
      simp only [Kind.declared, List.append_nil] at hparts ⊢
      exact ih c hc hparts hb hd

end Node

/-- What a node exposes it refers to. -/
theorem mem_references_of_exposed {n : Node} {name : String} (hn : name ∈ n.exposed) : name ∈ n.references := by
  rw [Node.references]
  induction n using Node.induction_on_parts with
  | node n ih =>
    obtain ⟨kind, modifiers, annotations⟩ := n
    rw [Node.exposed_eq] at hn
    rw [Node.referencesUnder_eq]
    cases kind with
    | ref other => simpa using hn
    | generic => cases hn
    | _ =>
      simp only at hn
      obtain ⟨c, hc, hn⟩ := List.mem_flatMap.1 hn
      exact mem_distinct.2 (List.mem_flatMap.2 ⟨c, hc, ih c (Kind.mem_parts_of_mem_children hc) hn⟩)

end Schemata
