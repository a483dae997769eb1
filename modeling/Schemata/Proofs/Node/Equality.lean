import Mathlib.Data.List.Forall2
import Mathlib.Data.List.Perm.Subperm
import Schemata.Node.Basic
/-!
# Equality of nodes, part by part

`Node.sameAs` compares lists item by item (`sameAll_iff`) and fields by name (`sameFields_iff`), so equal kinds are of one
form and have equal parts (`sameKind_iff`).  Fields that are as many under distinct names are equal from either side
(`SameFields.exists_left`).
-/
namespace Schemata

open List (Forall₂)

theorem Fields.get?_of_mem {α : Type} {fields : Fields α} (hd : fields.Distinct) {name : String} {value : α}
    (h : (name, value) ∈ fields) : fields.get? name = some value := by
  induction fields with
  | nil => cases h
  | cons e rest ih =>
    obtain ⟨old, kept⟩ := e
    obtain ⟨hnew, hd⟩ := List.nodup_cons.1 hd
    rw [get?_cons]
    rcases List.mem_cons.1 h with h | h
    · cases h
      rw [if_pos rfl]
    · have hne : old ≠ name := fun he => hnew (he ▸ List.mem_map.2 ⟨_, h, rfl⟩)
      rw [if_neg hne, ih hd h]

namespace Node

theorem sameAll_iff {xs ys : List Node} : sameAll xs ys = true ↔ Forall₂ (fun x y => sameAs x y = true) xs ys := by
  induction xs generalizing ys with
  | nil => cases ys <;> simp [sameAll]
  | cons x xs ih => cases ys <;> simp [sameAll, ih]

theorem sameFields_iff {fs : List (String × Node)} {gs : Fields Node} :
    sameFields fs gs = true ↔ ∀ e ∈ fs, ∃ y, gs.get? e.1 = some y ∧ sameAs e.2 y = true := by
  induction fs with
  | nil => simp [sameFields]
  | cons e fs ih =>
    obtain ⟨name, x⟩ := e
    rw [sameFields, Bool.and_eq_true, ih, List.forall_mem_cons]
    cases gs.get? name <;> simp

/-! ## Kinds -/

/-- Fields of one length, each on the left with its equal on the right under the same name. -/
def SameFields (fs gs : Fields Node) : Prop :=
  fs.length = gs.length ∧ ∀ e ∈ fs, ∃ y, gs.get? e.1 = some y ∧ sameAs e.2 y = true

/-- **Equal fields from the other side**: each has its equal on the left under the same name. -/
theorem SameFields.exists_left {fs gs : Fields Node} (h : SameFields fs gs) (hf : fs.Distinct) (hg : gs.Distinct)
    {name : String} {y : Node} (hy : (name, y) ∈ gs) : ∃ x, (name, x) ∈ fs ∧ sameAs x y = true := by
  obtain ⟨hlen, h⟩ := h
  have hsub : fs.names ⊆ gs.names := fun other ho => by
    obtain ⟨e, he, rfl⟩ := List.mem_map.1 ho
    obtain ⟨z, hz, -⟩ := h e he
    exact List.mem_map.2 ⟨_, Fields.mem_of_get? hz, rfl⟩
  have hperm : fs.names.Perm gs.names :=
    (List.subperm_of_subset hf hsub).perm_of_length_le (by simp [Fields.names, hlen])
  obtain ⟨⟨_, x⟩, hx, rfl⟩ := List.mem_map.1 (hperm.mem_iff.2 (List.mem_map.2 ⟨_, hy, rfl⟩))
  obtain ⟨z, hz, hs⟩ := h _ hx
  rw [Fields.get?_of_mem hg hy] at hz
  cases hz
  exact ⟨x, hx, hs⟩

/-- **Equal fields hold equal nodes under every name**, or none. -/
theorem SameFields.get?_rel {fs gs : Fields Node} (h : SameFields fs gs) (hf : fs.Distinct) (hg : gs.Distinct)
    (name : String) : Option.Rel (fun x y => sameAs x y = true) (fs.get? name) (gs.get? name) := by
  cases hx : fs.get? name with
  | some x =>
    obtain ⟨y, hy, hs⟩ := h.2 _ (Fields.mem_of_get? hx)
    rw [hy]
    exact .some hs
  | none =>
    cases hy : gs.get? name with
    | none => exact .none
    | some y =>
      obtain ⟨x, hmem, -⟩ := h.exists_left hf hg (Fields.mem_of_get? hy)
      rw [Fields.get?_of_mem hf hmem] at hx
      cases hx

def SameParameter (p q : Parameter Node) : Prop :=
  p.name = q.name ∧ sameAs p.constraint q.constraint = true ∧ sameAs p.default q.default = true

theorem sameParameter_iff {p q : Parameter Node} : sameParameter p q = true ↔ SameParameter p q := by
  obtain ⟨name, constraint, default⟩ := p
  obtain ⟨name', constraint', default'⟩ := q
  simp [sameParameter, SameParameter, and_assoc]

theorem sameParameters_iff {ps qs : List (Parameter Node)} :
    sameParameters ps qs = true ↔ Forall₂ SameParameter ps qs := by
  induction ps generalizing qs with
  | nil => cases qs <;> simp [sameParameters]
  | cons p ps ih => cases qs <;> simp [sameParameters, sameParameter_iff, ih]

/-- **Equal kinds**: one form, with parts that are equal one by one. -/
inductive SameKind : Kind Node → Kind Node → Prop
  | primitive (p : Primitive) : SameKind (.primitive p) (.primitive p)
  | literal {l l' : Literal} (h : (l == l') = true) : SameKind (.literal l) (.literal l')
  | array {x y : Node} (h : sameAs x y = true) : SameKind (.array x) (.array y)
  | tuple {xs ys : List Node} (h : Forall₂ (fun x y => sameAs x y = true) xs ys) (rest : Bool) :
    SameKind (.tuple xs rest) (.tuple ys rest)
  | object {fs gs : Fields Node} (h : SameFields fs gs) : SameKind (.object fs) (.object gs)
  | union {xs ys : List Node} (h : Forall₂ (fun x y => sameAs x y = true) xs ys) :
    SameKind (.union xs) (.union ys)
  | intersect {xs ys : List Node} (h : Forall₂ (fun x y => sameAs x y = true) xs ys) :
    SameKind (.intersect xs) (.intersect ys)
  | function {xs ys : List Node} {x y : Node} (h : Forall₂ (fun x y => sameAs x y = true) xs ys)
    (hr : sameAs x y = true) : SameKind (.function xs x) (.function ys y)
  | constructor {xs ys : List Node} {x y : Node} (h : Forall₂ (fun x y => sameAs x y = true) xs ys)
    (hr : sameAs x y = true) : SameKind (.constructor xs x) (.constructor ys y)
  | wrapper (w : Wrapper) {x y : Node} (h : sameAs x y = true) : SameKind (.wrapper w x) (.wrapper w y)
  | dictionary {x y v w : Node} (hk : sameAs x y = true) (hv : sameAs v w = true) :
    SameKind (.dictionary x v) (.dictionary y w)
  | ref (name : String) : SameKind (.ref name) (.ref name)
  | parameter {p q : Parameter Node} (h : SameParameter p q) : SameKind (.parameter p) (.parameter q)
  | generic {ps qs : List (Parameter Node)} {x y : Node} (h : Forall₂ SameParameter ps qs) (hb : sameAs x y = true) :
    SameKind (.generic ps x) (.generic qs y)
  | call {x y : Node} {xs ys : List Node} (ht : sameAs x y = true)
    (h : Forall₂ (fun x y => sameAs x y = true) xs ys) : SameKind (.call x xs) (.call y ys)
  | deferred (o : Operator) {xs ys : List Node} {a b : Annotations}
    (h : Forall₂ (fun x y => sameAs x y = true) xs ys) (ha : Annotations.sameAs a b = true) :
    SameKind (.deferred o xs a) (.deferred o ys b)
  | cyclic {ds es : Fields Node} (h : SameFields ds es) (root : String) :
    SameKind (.cyclic ds root) (.cyclic es root)
  | templatePattern {xs ys : List Node} (h : Forall₂ (fun x y => sameAs x y = true) xs ys) :
    SameKind (.templatePattern xs) (.templatePattern ys)

theorem sameKind_iff {k k' : Kind Node} : sameKind k k' = true ↔ SameKind k k' := by
  constructor
  · intro h
    cases k <;> cases k' <;>
      simp only [sameKind, sameAll_iff, sameFields_iff, sameParameters_iff, sameParameter_iff, Bool.and_eq_true,
        beq_iff_eq, Bool.false_eq_true] at h
    case primitive => exact h ▸ .primitive _
    case literal => exact .literal h
    case array => exact .array h
    case tuple => exact h.2 ▸ .tuple h.1 _
    case object => exact .object h
    case union => exact .union h
    case intersect => exact .intersect h
    case function => exact .function h.1 h.2
    case constructor => exact .constructor h.1 h.2
    case wrapper => exact h.1 ▸ .wrapper _ h.2
    case dictionary => exact .dictionary h.1 h.2
    case ref => exact h ▸ .ref _
    case parameter => exact .parameter h
    case generic => exact .generic h.1 h.2
    case call => exact .call h.1 h.2
    case deferred => exact h.1.1 ▸ .deferred _ h.1.2 h.2
    case cyclic => exact h.2 ▸ .cyclic h.1 _
    case templatePattern => exact .templatePattern h
  · intro h
    cases h <;>
      simp only [sameKind, sameAll_iff, sameFields_iff, sameParameters_iff, sameParameter_iff, Bool.and_eq_true,
        beq_iff_eq, and_true, true_and] <;>
      first | assumption | exact ⟨‹_›, ‹_›⟩

theorem sameAs_iff {x y : Node} : sameAs x y = true ↔
    SameKind x.kind y.kind ∧ x.modifiers = y.modifiers ∧ Annotations.sameAs x.annotations y.annotations = true := by
  obtain ⟨kind, modifiers, annotations⟩ := x
  obtain ⟨kind', modifiers', annotations'⟩ := y
  simp only [sameAs, sameKind_iff, Bool.and_eq_true, beq_iff_eq, and_assoc]

theorem sameKind_of_sameAs {x y : Node} (h : sameAs x y = true) : sameKind x.kind y.kind = true :=
  sameKind_iff.2 (sameAs_iff.1 h).1

end Node
end Schemata
