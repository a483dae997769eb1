import Mathlib.Logic.Equiv.Basic
import Schemata.Proofs.Node.Equality
import Schemata.Proofs.Node.Parts
/-!
# Renaming

`n.rename ρ` gives other names to the references, parameters and definitions of a tree, binders and what they bind alike.
Names of properties stay: they are part of what a node means.

- Renaming by what agrees on the names of a tree is the same (`rename_congr`), and a permutation is undone by its inverse.
- Equality of nodes does not depend on names (`sameAs_rename`).
-/
namespace Schemata

open List (Forall₂)

/-! ## Fields -/

namespace Fields

variable {α β : Type}

/-- Fields under new names, with new values. -/
def rename (ρ : String → String) (f : α → β) (fields : Fields α) : Fields β := fields.map fun e => (ρ e.1, f e.2)

variable {ρ : String → String} (hρ : ρ.Injective) {f : α → β}
include hρ

theorem get?_rename (fields : Fields α) (name : String) :
    (fields.rename ρ f).get? (ρ name) = (fields.get? name).map f := by
  induction fields with
  | nil => rfl
  | cons e rest ih =>
    obtain ⟨old, value⟩ := e
    change (if ρ old = ρ name then _ else Fields.get? (Fields.rename ρ f rest) (ρ name)) = _
    rw [get?_cons, ih]
    by_cases h : old = name
    · rw [if_pos h, if_pos (congrArg ρ h)]
      rfl
    · rw [if_neg h, if_neg fun he => h (hρ he)]

end Fields

/-! ## Kinds and nodes -/

/-- **A kind under other names**, with other parts. -/
def Kind.relabel {α β : Type} (ρ : String → String) (f : α → β) : Kind α → Kind β
  | .ref name => .ref (ρ name)
  | .parameter p => .parameter ⟨ρ p.name, f p.constraint, f p.default⟩
  | .generic parameters body => .generic (parameters.map fun p => ⟨ρ p.name, f p.constraint, f p.default⟩) (f body)
  | .cyclic definitions root => .cyclic (definitions.map fun e => (ρ e.1, f e.2)) (ρ root)
  | kind => kind.map f

/-- The names that a kind gives or refers to, other than those of properties. -/
def Kind.labels {α : Type} : Kind α → List String
  | .ref name => [name]
  | .parameter p => [p.name]
  | .generic parameters _ => parameters.map (·.name)
  | .cyclic definitions root => root :: definitions.map Prod.fst
  | _ => []

namespace Node

/-- **A node under other names.** -/
def rename (ρ : String → String) (n : Node) : Node :=
  n.rebuild ((n.kind.mapParts fun c _ => c.rename ρ).relabel ρ id)
termination_by n.size
decreasing_by exact size_lt_of_mem_parts ‹_›

/-- **All names in a tree**, other than those of properties. -/
def names (n : Node) : List String := n.kind.labels ++ n.kind.parts.attach.flatMap fun ⟨c, _⟩ => c.names
termination_by n.size
decreasing_by exact size_lt_of_mem_parts ‹_›

end Node

namespace Kind

variable {α β γ : Type} {ρ σ : String → String}

theorem relabel_map (f : α → β) (g : β → γ) (kind : Kind α) : (kind.map f).relabel ρ g = kind.relabel ρ (g ∘ f) := by
  cases kind <;> simp [map, relabel, Function.comp_def]

theorem map_relabel (f : α → β) (g : β → γ) (kind : Kind α) : (kind.relabel ρ f).map g = kind.relabel ρ (g ∘ f) := by
  cases kind <;> simp [map, relabel, Function.comp_def]

theorem relabel_relabel (f : α → β) (g : β → γ) (kind : Kind α) :
    (kind.relabel ρ f).relabel σ g = kind.relabel (σ ∘ ρ) (g ∘ f) := by
  cases kind <;> simp [map, relabel, Function.comp_def]

theorem relabel_congr {f g : α → β} {kind : Kind α} (hlabels : ∀ x ∈ kind.labels, ρ x = σ x)
    (hparts : ∀ c ∈ kind.parts, f c = g c) : kind.relabel ρ f = kind.relabel σ g := by
  cases kind <;> simp_all [map, relabel, labels, parts, Parameter.parts]
  case object => exact fun name c hc => hparts c name hc
  case generic parameters body =>
    exact fun p hp => ⟨hparts _ (.inl ⟨p, hp, .inl rfl⟩), hparts _ (.inl ⟨p, hp, .inr rfl⟩)⟩
  case cyclic definitions root => exact fun name c hc => ⟨hlabels.2 name c hc, hparts c name hc⟩

theorem relabel_id (kind : Kind α) : kind.relabel id id = kind := by
  cases kind <;> simp [map, relabel]

end Kind

namespace Node

variable {ρ σ : String → String}

theorem rename_eq (ρ : String → String) (n : Node) : n.rename ρ = n.rebuild (n.kind.relabel ρ (rename ρ)) := by
  rw [rename, Kind.mapParts_eq_map, Kind.relabel_map]
  rfl

theorem names_eq (n : Node) : n.names = n.kind.labels ++ n.kind.parts.flatMap names := by
  rw [names]
  simp

@[simp] theorem kind_rename (ρ : String → String) (n : Node) : (n.rename ρ).kind = n.kind.relabel ρ (rename ρ) := by
  rw [rename_eq]
  rfl

@[simp] theorem modifiers_rename (ρ : String → String) (n : Node) : (n.rename ρ).modifiers = n.modifiers := by
  rw [rename_eq]
  rfl

@[simp] theorem annotations_rename (ρ : String → String) (n : Node) : (n.rename ρ).annotations = n.annotations := by
  rw [rename_eq]
  rfl

theorem rename_mk (ρ : String → String) (kind : Kind Node) (modifiers : Modifiers) (annotations : Annotations) :
    Node.rename ρ ⟨kind, modifiers, annotations⟩ = ⟨kind.relabel ρ (rename ρ), modifiers, annotations⟩ :=
  rename_eq ρ _

theorem rename_of (ρ : String → String) (kind : Kind Node) : (Node.of kind).rename ρ = .of (kind.relabel ρ (rename ρ)) :=
  rename_mk ρ kind .plain []

/-- **Renaming depends on the names in a tree only.** -/
theorem rename_congr {n : Node} (h : ∀ x ∈ n.names, ρ x = σ x) : n.rename ρ = n.rename σ := by
  induction n using Node.induction_on_parts with
  | node n ih =>
    rw [names_eq] at h
    rw [rename_eq, rename_eq]
    refine congrArg n.rebuild (Kind.relabel_congr (fun x hx => h x (List.mem_append_left _ hx)) fun c hc => ?_)
    exact ih c hc fun x hx => h x (List.mem_append_right _ (List.mem_flatMap.2 ⟨c, hc, hx⟩))

theorem rename_id (n : Node) : n.rename id = n := by
  induction n using Node.induction_on_parts with
  | node n ih =>
    obtain ⟨kind, modifiers, annotations⟩ := n
    rw [rename_mk]
    exact congrArg (Node.mk · modifiers annotations) ((Kind.relabel_congr (fun _ _ => rfl) ih).trans kind.relabel_id)

theorem rename_of_fixed {n : Node} (h : ∀ x ∈ n.names, ρ x = x) : n.rename ρ = n :=
  (rename_congr h).trans n.rename_id

theorem rename_rename (n : Node) : (n.rename ρ).rename σ = n.rename (σ ∘ ρ) := by
  induction n using Node.induction_on_parts with
  | node n ih =>
    obtain ⟨kind, modifiers, annotations⟩ := n
    rw [rename_mk, rename_mk, rename_mk, Kind.relabel_relabel]
    exact congrArg (Node.mk · modifiers annotations) (Kind.relabel_congr (fun _ _ => rfl) ih)

end Node

/-! ## Permutations of names -/

/-- **What is injective on finitely many names agrees there with a permutation.** -/
theorem exists_perm_of_injective_on (f : String → String) (names : List String)
    (hf : ∀ x ∈ names, ∀ y ∈ names, f x = f y → x = y) : ∃ σ : Equiv.Perm String, ∀ x ∈ names, σ x = f x := by
  induction names with
  | nil => exact ⟨Equiv.refl String, by simp⟩
  | cons x names ih =>
    obtain ⟨σ, hσ⟩ := ih fun y hy z hz => hf y (List.mem_cons_of_mem _ hy) z (List.mem_cons_of_mem _ hz)
    refine ⟨σ.trans (Equiv.swap (σ x) (f x)), fun y hy => ?_⟩
    rw [Equiv.trans_apply]
    by_cases hxy : y = x
    · rw [hxy, Equiv.swap_apply_left]
    · -- The swap moves neither of the values that are right already.
      have hmem : y ∈ names := (List.mem_cons.1 hy).resolve_left hxy
      have hne : f y ≠ f x := fun he => hxy (hf y hy x List.mem_cons_self he)
      rw [Equiv.swap_apply_of_ne_of_ne (fun he => hxy (σ.injective he)) (hσ y hmem ▸ hne), hσ y hmem]

namespace Node

variable {ρ : Equiv.Perm String}

@[simp] theorem rename_symm_rename (n : Node) : (n.rename ρ).rename ρ.symm = n := by
  rw [rename_rename, Equiv.symm_comp_self, rename_id]

theorem SameFields.rename {f : String → String} (hf : f.Injective) {fs gs : Fields Node} (hs : SameFields fs gs)
    (ih : ∀ x ∈ fs.map Prod.snd, ∀ y, sameAs x y = true → sameAs (x.rename ρ) (y.rename ρ) = true) :
    SameFields (fs.rename f (Node.rename ρ)) (gs.rename f (Node.rename ρ)) := by
  refine ⟨by simpa [Fields.rename] using hs.1, fun e he => ?_⟩
  obtain ⟨⟨name, x⟩, hx, rfl⟩ := List.mem_map.1 he
  obtain ⟨y, hy, hxy⟩ := hs.2 _ hx
  exact ⟨y.rename ρ, by rw [Fields.get?_rename hf, hy]; rfl, ih x (List.mem_map_of_mem (f := Prod.snd) hx) y hxy⟩

theorem forall₂_same_rename {xs ys : List Node} (hs : Forall₂ (fun x y => sameAs x y = true) xs ys)
    (ih : ∀ x ∈ xs, ∀ y, sameAs x y = true → sameAs (x.rename ρ) (y.rename ρ) = true) :
    Forall₂ (fun x y => sameAs x y = true) (xs.map (rename ρ)) (ys.map (rename ρ)) := by
  induction hs with
  | nil => exact .nil
  | cons hxy _ more =>
    rw [List.forall_mem_cons] at ih
    exact .cons (ih.1 _ hxy) (more ih.2)

theorem SameParameter.rename {p q : Parameter Node} (hs : SameParameter p q)
    (ih : ∀ x ∈ p.parts, ∀ y, sameAs x y = true → sameAs (x.rename ρ) (y.rename ρ) = true) :
    SameParameter ⟨ρ p.name, p.constraint.rename ρ, p.default.rename ρ⟩
      ⟨ρ q.name, q.constraint.rename ρ, q.default.rename ρ⟩ :=
  ⟨congrArg ρ hs.1, ih _ List.mem_cons_self _ hs.2.1, ih _ (List.mem_cons_of_mem _ List.mem_cons_self) _ hs.2.2⟩

theorem forall₂_sameParameter_rename {ps qs : List (Parameter Node)} (hs : Forall₂ SameParameter ps qs)
    (ih : ∀ p ∈ ps, ∀ x ∈ p.parts, ∀ y, sameAs x y = true → sameAs (x.rename ρ) (y.rename ρ) = true) :
    Forall₂ SameParameter (ps.map fun p => ⟨ρ p.name, p.constraint.rename ρ, p.default.rename ρ⟩)
      (qs.map fun p => ⟨ρ p.name, p.constraint.rename ρ, p.default.rename ρ⟩) := by
  induction hs with
  | nil => exact .nil
  | cons hpq _ more =>
    rw [List.forall_mem_cons] at ih
    exact .cons (hpq.rename ih.1) (more ih.2)

theorem SameKind.rename {x y : Node} (h : SameKind x.kind y.kind) :
    SameKind (x.rename ρ).kind (y.rename ρ).kind := by
  induction x using Node.induction_on_parts generalizing y with
  | node x ih =>
    replace ih : ∀ c ∈ x.kind.parts, ∀ y, sameAs c y = true → sameAs (c.rename ρ) (y.rename ρ) = true := by
      intro c hc y hs
      obtain ⟨hk, hm, ha⟩ := sameAs_iff.1 hs
      exact sameAs_iff.2 ⟨ih c hc hk, by simpa using hm, by simpa using ha⟩
    obtain ⟨kind, modifiers, annotations⟩ := x
    obtain ⟨kind', modifiers', annotations'⟩ := y
    rw [kind_rename, kind_rename]
    cases h with
    | primitive p => exact .primitive p
    | literal hl => exact .literal hl
    | array hs => exact .array (ih _ List.mem_cons_self _ hs)
    | tuple hs rest => exact .tuple (forall₂_same_rename hs ih) rest
    | object hs => exact .object (hs.rename Function.injective_id ih)
    | union hs => exact .union (forall₂_same_rename hs ih)
    | intersect hs => exact .intersect (forall₂_same_rename hs ih)
    | function hs hr =>
      exact .function (forall₂_same_rename hs fun c hc => ih c (List.mem_append_left _ hc))
        (ih _ (List.mem_append_right _ List.mem_cons_self) _ hr)
    | constructor hs hr =>
      exact .constructor (forall₂_same_rename hs fun c hc => ih c (List.mem_append_left _ hc))
        (ih _ (List.mem_append_right _ List.mem_cons_self) _ hr)
    | wrapper w hs => exact .wrapper w (ih _ List.mem_cons_self _ hs)
    | dictionary hk hv =>
      exact .dictionary (ih _ List.mem_cons_self _ hk) (ih _ (List.mem_cons_of_mem _ List.mem_cons_self) _ hv)
    | ref name => exact .ref (ρ name)
    | parameter hp => exact .parameter (hp.rename ih)
    | generic hs hb =>
      refine .generic (forall₂_sameParameter_rename hs fun p hp c hc => ih c ?_)
        (ih _ (List.mem_append_right _ List.mem_cons_self) _ hb)
      exact List.mem_append_left _ (List.mem_flatMap.2 ⟨p, hp, hc⟩)
    | call ht hs =>
      exact .call (ih _ List.mem_cons_self _ ht) (forall₂_same_rename hs fun c hc => ih c (List.mem_cons_of_mem _ hc))
    | deferred o hs ho => exact .deferred o (forall₂_same_rename hs ih) ho
    | cyclic hs root => exact .cyclic (hs.rename ρ.injective ih) (ρ root)
    | templatePattern hs => exact .templatePattern (forall₂_same_rename hs ih)

theorem sameKind_rename (x y : Node) : sameKind (x.rename ρ).kind (y.rename ρ).kind = sameKind x.kind y.kind := by
  rw [Bool.eq_iff_iff, sameKind_iff, sameKind_iff]
  refine ⟨fun h => ?_, SameKind.rename⟩
  have hback : SameKind ((x.rename ρ).rename ρ.symm).kind ((y.rename ρ).rename ρ.symm).kind := h.rename
  rwa [rename_symm_rename, rename_symm_rename] at hback

/-- **Equality does not depend on names.** -/
theorem sameAs_rename (x y : Node) : sameAs (x.rename ρ) (y.rename ρ) = sameAs x y := by
  rw [Bool.eq_iff_iff, sameAs_iff, sameAs_iff, ← sameKind_iff, ← sameKind_iff, sameKind_rename]
  simp

end Node
end Schemata
