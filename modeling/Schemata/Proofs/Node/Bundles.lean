import Schemata.Proofs.Instantiation.Concrete
import Schemata.Proofs.Node.Names
/-!
# Closed bundles

A bundle is closed when its root is one of its definitions and these refer to each other only.

- `Node.isSealed`: every bundle of a tree is closed.  In such a tree nothing but an open reference is loose.
- `Node.isAnchored`: whatever is applied or bound outside of bundles refers to some name.
- `Node.HeldBy names n`: a sealed and anchored node refers to some of `names` only.  So are the definitions of a closed
  bundle by its names, and what a node held by no name at all comes to is concrete (`HeldBy.isConcrete`).
-/
namespace Schemata

/-- **Whether a bundle is closed**: its root is defined, and its definitions refer to definitions only. -/
def Kind.isSealed : Kind Node → Bool
  | .cyclic definitions root =>
    Fields.has definitions root && definitions.all fun e => e.2.references.all (Fields.has definitions)
  | _ => true

namespace Node

variable {n m : Node} {names : List String} {x : String}

/-- **Whether every bundle of a tree is closed**, those inside of bundles included. -/
def isSealed (n : Node) : Bool := n.everywhere Kind.isSealed

theorem isSealed_iff : n.isSealed = true ↔ n.kind.isSealed = true ∧ ∀ c ∈ n.kind.parts, c.isSealed = true := everywhere_iff

/-- **A sealed tree has no loose names** but those of open references. -/
theorem isSealed.mem_references (h : n.isSealed = true) (hx : x ∈ n.loose) : x ∈ n.references := by
  induction n using Node.induction_on_parts with
  | node n ih =>
    obtain ⟨hkind, hparts⟩ := isSealed_iff.1 h
    by_cases href : ∃ name, n.kind = .ref name
    · obtain ⟨name, hk⟩ := href
      rw [loose, looseUnder_eq, hk] at hx
      rw [references, referencesUnder_eq, hk]
      exact hx
    · have href' : ∀ name, n.kind ≠ .ref name := fun name hk => href ⟨name, hk⟩
      obtain ⟨c, hc, hloose, hbinds⟩ := (mem_loose_iff href').1 hx
      have hopen := ih c hc (hparts c hc) hloose
      obtain ⟨kind, modifiers, annotations⟩ := n
      cases kind with
      | cyclic definitions root =>
        -- What a definition refers to is defined.
        obtain ⟨e, he, rfl⟩ := List.mem_map.1 hc
        rw [Kind.isSealed, Bool.and_eq_true] at hkind
        have hdefined := List.all_eq_true.1 (List.all_eq_true.1 hkind.2 e he) x hopen
        exact absurd (Fields.mem_names_iff.2 hdefined) hbinds
      | _ => exact (mem_references_iff href').2 ⟨c, hc, hopen, hbinds⟩

/-! ## Anchored nodes -/

/-- **Whether all that is applied or bound outside of bundles refers to some name.** -/
def isAnchored (n : Node) : Bool :=
  if n.kind.isPlain then n.children.attach.all fun ⟨c, _⟩ => c.isAnchored else !n.references.isEmpty
termination_by n.size
decreasing_by exact size_lt_of_mem_children ‹_›

theorem isAnchored_eq (n : Node) :
    n.isAnchored = if n.kind.isPlain then n.children.all isAnchored else !n.references.isEmpty := by
  rw [isAnchored]
  simp

theorem isAnchored_iff (h : n.kind.isPlain = true) : n.isAnchored = true ↔ ∀ c ∈ n.children, c.isAnchored = true := by
  rw [isAnchored_eq, if_pos h, List.all_eq_true]

theorem isAnchored_of_isConcrete (h : n.isConcrete = true) : n.isAnchored = true := by
  induction n using Node.induction_on_parts with
  | node n ih =>
    rcases isConcrete_cases h with ⟨definitions, root, hk⟩ | ⟨-, hplain, hchildren, hparts⟩
    · rw [isAnchored_iff (by rw [hk]; rfl), children, hk]
      exact fun c hc => absurd hc List.not_mem_nil
    · rw [isAnchored_iff hplain, hchildren]
      exact fun c hc => ih c hc (hparts c hc)

theorem references_of_isConcrete (h : n.isConcrete = true) : n.references = [] := by
  induction n using Node.induction_on_parts with
  | node n ih =>
    refine List.eq_nil_iff_forall_not_mem.2 fun x hx => ?_
    rw [isConcrete_eq] at h
    have href : ∀ name, n.kind ≠ .ref name := fun name hk => by
      rw [hk] at h
      cases h
    obtain ⟨c, hc, hx, -⟩ := (mem_references_iff href).1 hx
    rcases isConcrete_cases (n := n) (by rw [isConcrete_eq]; exact h) with ⟨definitions, root, hk⟩ | ⟨-, -, -, hparts⟩
    · rw [children, hk] at hc
      cases hc
    · have hpart := Kind.mem_parts_of_mem_children hc
      rw [ih c hpart (hparts c hpart)] at hx
      cases hx

/-! ## Held nodes -/

/-- **A sealed and anchored node that refers to some names only.** -/
structure HeldBy (names : List String) (n : Node) : Prop where
  isAnchored : n.isAnchored = true
  references : ∀ x ∈ n.references, x ∈ names
  isSealed : n.isSealed = true

theorem isAnchored_of_kind (h : m.kind = n.kind) : m.isAnchored = n.isAnchored := by
  rw [isAnchored_eq, isAnchored_eq n, children, children, h, (names_of_kind h).1]

theorem isSealed_of_kind (h : m.kind = n.kind) : m.isSealed = n.isSealed := by
  rw [isSealed, isSealed, everywhere_eq, everywhere_eq, h]

theorem HeldBy.of_kind (h : n.HeldBy names) (hk : m.kind = n.kind) : m.HeldBy names :=
  ⟨isAnchored_of_kind hk ▸ h.isAnchored, (names_of_kind hk).1 ▸ h.references, isSealed_of_kind hk ▸ h.isSealed⟩

theorem heldBy_of_isConcrete (hn : n.isConcrete = true) (hs : n.isSealed = true) (names : List String) :
    n.HeldBy names := by
  refine ⟨isAnchored_of_isConcrete hn, fun x hx => ?_, hs⟩
  rw [references_of_isConcrete hn] at hx
  cases hx

/-- A bundle is held by anything. -/
theorem heldBy_bundle {definitions : Fields Node} {root : String} (hk : n.kind = .cyclic definitions root)
    (hs : n.isSealed = true) (names : List String) : n.HeldBy names :=
  heldBy_of_isConcrete (isConcrete_of_bundle hk) hs names

/-- **Being held is a property of the parts**, for all forms but references, bundles and what applies or binds. -/
theorem heldBy_iff_parts (hstructural : n.kind.isStructural = true) (hplain : n.kind.isPlain = true) :
    n.HeldBy names ↔ ∀ c ∈ n.kind.parts, c.HeldBy names := by
  obtain ⟨hchildren, hdeclared, href⟩ := form_of_isStructural hstructural
  have hsealed : n.kind.isSealed = true := by
    cases hk : n.kind with
    | cyclic =>
      rw [hk] at hstructural
      cases hstructural
    | _ => rfl
  constructor
  · intro h c hc
    refine ⟨(isAnchored_iff hplain).1 h.isAnchored c (hchildren ▸ hc), fun x hx => h.references x ?_,
      (isSealed_iff.1 h.isSealed).2 c hc⟩
    exact (mem_references_iff href).2 ⟨c, hchildren ▸ hc, hx, hdeclared ▸ List.not_mem_nil⟩
  · intro h
    refine ⟨(isAnchored_iff hplain).2 fun c hc => (h c (hchildren ▸ hc)).isAnchored, fun x hx => ?_,
      isSealed_iff.2 ⟨hsealed, fun c hc => (h c hc).isSealed⟩⟩
    obtain ⟨c, hc, hx, -⟩ := (mem_references_iff href).1 hx
    exact (h c (hchildren ▸ hc)).references x hx

/-- **What is held by no name is concrete.** -/
theorem HeldBy.isConcrete (h : n.HeldBy []) : n.isConcrete = true := by
  induction n using Node.induction_on_parts with
  | node n ih =>
    have hnone : n.references = [] := List.eq_nil_iff_forall_not_mem.2 fun x hx => List.not_mem_nil (h.references x hx)
    have hplain : n.kind.isPlain = true := by
      by_contra hp
      have hanchored := h.isAnchored
      rw [isAnchored_eq, if_neg hp, hnone] at hanchored
      cases hanchored
    by_cases hstructural : n.kind.isStructural = true
    · have href : ∀ name, n.kind ≠ .ref name := fun name hk => by
        rw [hk] at hstructural
        cases hstructural
      refine isConcrete_of_parts hplain href fun c hc => ?_
      have hpart := Kind.mem_parts_of_mem_children hc
      exact ih c hpart ((heldBy_iff_parts hstructural hplain).1 h c hpart)
    · cases hk : n.kind with
      | cyclic definitions root => exact isConcrete_of_bundle hk
      | ref name =>
        rw [Node.references, referencesUnder_eq, hk] at hnone
        cases hnone
      | call | deferred | generic =>
        rw [hk] at hplain
        cases hplain
      | _ =>
        rw [hk] at hstructural
        exact absurd rfl hstructural

theorem HeldBy.loose_eq_nil (h : n.HeldBy []) : n.loose = [] :=
  List.eq_nil_iff_forall_not_mem.2 fun _ hx => List.not_mem_nil (h.references _ (isSealed.mem_references h.isSealed hx))

/-- The definitions of a closed bundle are held by its names. -/
theorem isSealed.bundle {definitions : Fields Node} {root : String} (hk : n.kind = .cyclic definitions root)
    (h : n.isSealed = true) : (∃ target, definitions.get? root = some target) ∧
      ∀ e ∈ definitions, e.2.isSealed = true ∧ ∀ x ∈ e.2.references, x ∈ definitions.names := by
  obtain ⟨hkind, hparts⟩ := isSealed_iff.1 h
  rw [hk] at hkind hparts
  rw [Kind.isSealed, Bool.and_eq_true] at hkind
  refine ⟨Option.isSome_iff_exists.1 hkind.1, fun e he => ⟨hparts e.2 (List.mem_map_of_mem he), fun x hx => ?_⟩⟩
  exact Fields.mem_names_iff.2 (List.all_eq_true.1 (List.all_eq_true.1 hkind.2 e he) x hx)

end Node
end Schemata
