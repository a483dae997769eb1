import Mathlib.Data.List.Forall2
import Mathlib.Tactic.Choose
import Schemata.Node.References
import Schemata.Instantiation.Outcome
/-!
# Shapes and parts

What a traversal gives has the shape of what it was given, and its parts stand for the old ones one by one
(`Kind.forall₂_of_traverse`).  `Node.everywhere` says which forms the nodes of a tree have.
-/
namespace Schemata

open List (Forall₂)

theorem rel_of_getElem? {α β : Type} {R : α → β → Prop} {xs : List α} {ys : List β} (h : Forall₂ R xs ys) {i : Nat}
    {x : α} {y : β} (hx : xs[i]? = some x) (hy : ys[i]? = some y) : R x y := by
  obtain ⟨hi, rfl⟩ := List.getElem?_eq_some_iff.1 hx
  obtain ⟨hj, rfl⟩ := List.getElem?_eq_some_iff.1 hy
  exact h.get hi hj

theorem Outcome.forall₂_of_mapM {α β : Type} {f : α → Outcome β} {xs : List α} {ys : List β}
    (h : xs.mapM f = .done ys) : Forall₂ (fun x y => f x = .done y) xs ys := by
  induction xs generalizing ys with
  | nil =>
    cases h
    exact .nil
  | cons x xs ih =>
    rw [List.mapM_cons] at h
    obtain ⟨y, hy, h⟩ := bind_eq_done.1 h
    obtain ⟨ys, hys, h⟩ := bind_eq_done.1 h
    cases h
    exact .cons hy (ih hys)

theorem Outcome.mapM_of_forall₂ {α β : Type} {f : α → Outcome β} {xs : List α} {ys : List β}
    (h : Forall₂ (fun x y => f x = .done y) xs ys) : xs.mapM f = .done ys := by
  induction h with
  | nil => rfl
  | cons hx _ ih =>
    rw [List.mapM_cons, hx, done_bind, ih]
    rfl

theorem exists_of_mem_right {α β : Type} {R : α → β → Prop} {xs : List α} {ys : List β} (h : Forall₂ R xs ys) {y : β}
    (hy : y ∈ ys) : ∃ x ∈ xs, R x y := by
  induction h with
  | nil => cases hy
  | cons hxy h ih =>
    rcases List.mem_cons.1 hy with rfl | hy
    · exact ⟨_, List.mem_cons_self, hxy⟩
    · obtain ⟨x, hx, hr⟩ := ih hy
      exact ⟨x, List.mem_cons_of_mem _ hx, hr⟩

theorem exists_of_mem_left {α β : Type} {R : α → β → Prop} {xs : List α} {ys : List β} (h : Forall₂ R xs ys) {x : α}
    (hx : x ∈ xs) : ∃ y ∈ ys, R x y := exists_of_mem_right h.flip hx

theorem Outcome.mapM_of_done {α β : Type} {f : α → Outcome β} {g : α → β} {xs : List α}
    (h : ∀ x ∈ xs, f x = .done (g x)) : xs.mapM f = .done (xs.map g) :=
  mapM_of_forall₂ (List.forall₂_map_right_iff.2 (List.forall₂_same.2 h))

theorem Outcome.mapM_congr {α β : Type} {f g : α → Outcome β} {xs : List α} (h : ∀ x ∈ xs, f x = g x) :
    xs.mapM f = xs.mapM g := by
  induction xs with
  | nil => rfl
  | cons x xs ih =>
    rw [List.mapM_cons, List.mapM_cons, h x List.mem_cons_self, ih fun y hy => h y (List.mem_cons_of_mem x hy)]

theorem Outcome.exists_of_mem_mapM {α β : Type} {f : α → Outcome β} {xs : List α} {ys : List β}
    (h : xs.mapM f = .done ys) {y : β} (hy : y ∈ ys) : ∃ x ∈ xs, f x = .done y :=
  exists_of_mem_right (forall₂_of_mapM h) hy

/-- Steps that keep a name give fields under the names. -/
theorem Outcome.names_of_mapM {β : Type} {f : String → Outcome (String × β)} {names : List String}
    {fields : Fields β} (hf : ∀ name e, f name = .done e → e.1 = name) (h : names.mapM f = .done fields) :
    fields.names = names := by
  have hall := forall₂_of_mapM h
  clear h
  induction hall with
  | nil => rfl
  | cons hxy hall ih => exact congrArg₂ List.cons (hf _ _ hxy) ih

namespace Kind

variable {α β : Type}

/-- **The form of a kind**, without its parts. -/
def shape (kind : Kind α) : Kind Unit := kind.map fun _ => ()

theorem declared_shape (kind : Kind α) : kind.shape.declared = kind.declared := by
  cases kind <;> simp [shape, map, declared]

theorem declared_eq_of_shape {kind : Kind α} {other : Kind β} (h : other.shape = kind.shape) :
    other.declared = kind.declared := by
  rw [← declared_shape, h, declared_shape]

theorem map_const_of_forall₂ {γ δ : Type} {R : γ → δ → Prop} {xs : List γ} {ys : List δ} (h : Forall₂ R xs ys) :
    (ys.map fun _ => ()) = xs.map fun _ => () := by
  induction h with
  | nil => rfl
  | cons _ _ ih => simp [ih]

theorem forall₂_of_mapM_fields {f : α → Outcome β} {fields : List (String × α)} {results : List (String × β)}
    (h : (fields.mapM fun e => do return (e.1, ← f e.2)) = .done results) :
    (results.map fun e => (e.1, ())) = (fields.map fun e => (e.1, ())) ∧
      Forall₂ (fun c d => f c = .done d) (fields.map Prod.snd) (results.map Prod.snd) := by
  induction fields generalizing results with
  | nil =>
    cases h
    exact ⟨rfl, .nil⟩
  | cons e fields ih =>
    rw [List.mapM_cons] at h
    obtain ⟨r, hr, h⟩ := Outcome.bind_eq_done.1 h
    obtain ⟨rs, hrs, h⟩ := Outcome.bind_eq_done.1 h
    obtain ⟨d, hd, hr⟩ := Outcome.bind_eq_done.1 hr
    cases h
    cases hr
    obtain ⟨hnames, hparts⟩ := ih hrs
    exact ⟨by simp [hnames], .cons hd hparts⟩

theorem forall₂_of_mapM_parameters {f : α → Outcome β} {parameters : List (Parameter α)}
    {results : List (Parameter β)}
    (h : (parameters.mapM fun p => do
      return (⟨p.name, ← f p.constraint, ← f p.default⟩ : Parameter β)) = .done results) :
    (results.map fun p => (⟨p.name, (), ()⟩ : Parameter Unit)) = (parameters.map fun p => ⟨p.name, (), ()⟩) ∧
      Forall₂ (fun c d => f c = .done d) (parameters.flatMap Parameter.parts) (results.flatMap Parameter.parts) := by
  induction parameters generalizing results with
  | nil =>
    cases h
    exact ⟨rfl, .nil⟩
  | cons p ps ih =>
    rw [List.mapM_cons] at h
    obtain ⟨r, hr, h⟩ := Outcome.bind_eq_done.1 h
    obtain ⟨rs, hrs, h⟩ := Outcome.bind_eq_done.1 h
    obtain ⟨constraint, hc, hr⟩ := Outcome.bind_eq_done.1 hr
    obtain ⟨default, hd, hr⟩ := Outcome.bind_eq_done.1 hr
    cases h
    cases hr
    obtain ⟨hnames, hparts⟩ := ih hrs
    exact ⟨by simp [hnames], .cons hc (.cons hd hparts)⟩

/-- **A traversal keeps the shape** and replaces the parts one by one. -/
theorem forall₂_of_traverse {f : α → Outcome β} {kind : Kind α} {result : Kind β}
    (h : kind.traverse f = .done result) :
    result.shape = kind.shape ∧ Forall₂ (fun c d => f c = .done d) kind.parts result.parts := by
  cases kind with
  | primitive p | literal l | ref name =>
    cases h
    exact ⟨rfl, .nil⟩
  | array | wrapper =>
    obtain ⟨d, hd, h⟩ := Outcome.bind_eq_done.1 h
    cases h
    exact ⟨rfl, .cons hd .nil⟩
  | dictionary | parameter =>
    obtain ⟨d, hd, h⟩ := Outcome.bind_eq_done.1 h
    obtain ⟨e, he, h⟩ := Outcome.bind_eq_done.1 h
    cases h
    exact ⟨rfl, .cons hd (.cons he .nil)⟩
  | tuple | union | intersect | templatePattern | deferred =>
    obtain ⟨ds, hds, h⟩ := Outcome.bind_eq_done.1 h
    cases h
    have hparts := Outcome.forall₂_of_mapM hds
    exact ⟨by simp only [shape, map, map_const_of_forall₂ hparts], hparts⟩
  | function | constructor =>
    obtain ⟨ds, hds, h⟩ := Outcome.bind_eq_done.1 h
    obtain ⟨e, he, h⟩ := Outcome.bind_eq_done.1 h
    cases h
    have hparts := Outcome.forall₂_of_mapM hds
    exact ⟨by simp only [shape, map, map_const_of_forall₂ hparts], List.rel_append hparts (.cons he .nil)⟩
  | call target arguments =>
    obtain ⟨e, he, h⟩ := Outcome.bind_eq_done.1 h
    obtain ⟨ds, hds, h⟩ := Outcome.bind_eq_done.1 h
    cases h
    have hparts := Outcome.forall₂_of_mapM hds
    exact ⟨by simp only [shape, map, map_const_of_forall₂ hparts], .cons he hparts⟩
  | object | cyclic =>
    obtain ⟨rs, hrs, h⟩ := Outcome.bind_eq_done.1 h
    cases h
    obtain ⟨hnames, hparts⟩ := forall₂_of_mapM_fields hrs
    exact ⟨by simp only [shape, map, hnames], hparts⟩
  | generic parameters body =>
    obtain ⟨rs, hrs, h⟩ := Outcome.bind_eq_done.1 h
    obtain ⟨e, he, h⟩ := Outcome.bind_eq_done.1 h
    cases h
    obtain ⟨hnames, hparts⟩ := forall₂_of_mapM_parameters hrs
    exact ⟨by simp only [shape, map, hnames], List.rel_append hparts (.cons he .nil)⟩

/-! ### Traversals that are done -/

theorem map_id (kind : Kind α) : (kind.map fun c => c) = kind := by
  cases kind <;> simp [map]

theorem traverse_map {γ : Type} (f : β → Outcome γ) (g : α → β) (kind : Kind α) :
    (kind.map g).traverse f = kind.traverse fun c => f (g c) := by
  cases kind <;> simp [traverse, map, List.mapM_map, Function.comp_def]

/-- **A traversal looks at the parts only.** -/
theorem traverse_congr {f g : α → Outcome β} {kind : Kind α} (h : ∀ c ∈ kind.parts, f c = g c) :
    kind.traverse f = kind.traverse g := by
  cases kind with
  | primitive | literal | ref => rfl
  | array item | wrapper w item => rw [traverse, traverse, h item (by simp [parts])]
  | tuple xs | union xs | intersect xs | templatePattern xs | deferred _ xs =>
    have hparts : xs.mapM f = xs.mapM g := Outcome.mapM_congr h
    rw [traverse, traverse, hparts]
  | object fields | cyclic fields =>
    have hfields : (fields.mapM fun e => do return (e.1, ← f e.2)) = fields.mapM fun e => do return (e.1, ← g e.2) :=
      Outcome.mapM_congr fun e he => by rw [h e.2 (List.mem_map_of_mem he)]
    rw [traverse, traverse, hfields]
  | function xs c | constructor xs c =>
    rw [traverse, traverse, Outcome.mapM_congr fun x hx => h x (List.mem_append_left _ hx), h c (by simp [parts])]
  | dictionary key value => rw [traverse, traverse, h key (by simp [parts]), h value (by simp [parts])]
  | parameter p =>
    rw [traverse, traverse, h p.constraint (by simp [parts, Parameter.parts]), h p.default (by simp [parts, Parameter.parts])]
  | generic ps body =>
    have hparameters : (ps.mapM fun p => do return (⟨p.name, ← f p.constraint, ← f p.default⟩ : Parameter β)) =
        ps.mapM fun p => do return (⟨p.name, ← g p.constraint, ← g p.default⟩ : Parameter β) :=
      Outcome.mapM_congr fun p hp => by
        have hpart : ∀ c ∈ p.parts, f c = g c := fun c hc =>
          h c (List.mem_append_left _ (List.mem_flatMap.2 ⟨p, hp, hc⟩))
        rw [hpart p.constraint (by simp [Parameter.parts]), hpart p.default (by simp [Parameter.parts])]
    rw [traverse, traverse, hparameters, h body (by simp [parts])]
  | call target arguments =>
    rw [traverse, traverse, h target (by simp [parts]), Outcome.mapM_congr fun c hc => h c (List.mem_cons_of_mem _ hc)]

theorem fields_of_done {f : α → Outcome β} {g : α → β} {fields : List (String × α)}
    (h : ∀ c ∈ fields.map Prod.snd, f c = .done (g c)) :
    (fields.mapM fun e => do return (e.1, ← f e.2)) = .done (fields.map fun e => (e.1, g e.2)) :=
  Outcome.mapM_of_done fun e he => by
    rw [h e.2 (List.mem_map_of_mem he)]
    rfl

theorem parameters_of_done {f : α → Outcome β} {g : α → β} {parameters : List (Parameter α)}
    (h : ∀ c ∈ parameters.flatMap Parameter.parts, f c = .done (g c)) :
    (parameters.mapM fun p => do return (⟨p.name, ← f p.constraint, ← f p.default⟩ : Parameter β)) =
      .done (parameters.map fun p => ⟨p.name, g p.constraint, g p.default⟩) :=
  Outcome.mapM_of_done fun p hp => by
    have hparts : ∀ c ∈ p.parts, f c = .done (g c) := fun c hc => h c (List.mem_flatMap.2 ⟨p, hp, hc⟩)
    rw [hparts p.constraint (by simp [Parameter.parts]), hparts p.default (by simp [Parameter.parts])]
    rfl

theorem traverse_of_done {f : α → Outcome β} {g : α → β} {kind : Kind α} (h : ∀ c ∈ kind.parts, f c = .done (g c)) :
    kind.traverse f = .done (kind.map g) := by
  cases kind with
  | primitive | literal | ref => rfl
  | array item | wrapper w item =>
    rw [traverse, h item (by simp [parts])]
    rfl
  | tuple xs | union xs | intersect xs | templatePattern xs | deferred _ xs =>
    have hxs : xs.mapM f = .done (xs.map g) := Outcome.mapM_of_done h
    rw [traverse, hxs]
    rfl
  | object | cyclic =>
    rw [traverse, fields_of_done h]
    rfl
  | function xs c | constructor xs c =>
    rw [traverse, Outcome.mapM_of_done fun x hx => h x (List.mem_append_left _ hx), Outcome.done_bind, h c (by simp [parts])]
    rfl
  | dictionary key value =>
    rw [traverse, h key (by simp [parts]), Outcome.done_bind, h value (by simp [parts])]
    rfl
  | parameter p =>
    rw [traverse, h p.constraint (by simp [parts, Parameter.parts]), Outcome.done_bind,
      h p.default (by simp [parts, Parameter.parts])]
    rfl
  | generic ps body =>
    rw [traverse, parameters_of_done fun c hc => h c (List.mem_append_left _ hc), Outcome.done_bind,
      h body (by simp [parts])]
    rfl
  | call target arguments =>
    rw [traverse, h target (by simp [parts]), Outcome.done_bind,
      Outcome.mapM_of_done fun c hc => h c (List.mem_cons_of_mem _ hc)]
    rfl

/-- **Two functions that agree on the parts** map alike. -/
theorem map_congr {f g : α → β} {kind : Kind α} (h : ∀ c ∈ kind.parts, f c = g c) : kind.map f = kind.map g := by
  have hf : kind.traverse (fun c => Outcome.done (g c)) = .done (kind.map f) :=
    traverse_of_done fun c hc => congrArg Outcome.done (h c hc).symm
  have hg : kind.traverse (fun c => Outcome.done (g c)) = .done (kind.map g) := traverse_of_done fun _ _ => rfl
  exact Outcome.done.inj (hf.symm.trans hg)

/-- **A traversal is done** when every part gives something, and gives the form with these in place of the parts. -/
theorem traverse_eq_done_iff [Inhabited β] {f : α → Outcome β} {kind : Kind α} {result : Kind β} :
    kind.traverse f = .done result ↔ ∃ g : α → β, (∀ c ∈ kind.parts, f c = .done (g c)) ∧ result = kind.map g := by
  constructor
  · intro h
    have hdone : ∀ c, ∃ d, c ∈ kind.parts → f c = .done d := fun c => by
      by_cases hc : c ∈ kind.parts
      · obtain ⟨d, -, hd⟩ := exists_of_mem_left (forall₂_of_traverse h).2 hc
        exact ⟨d, fun _ => hd⟩
      · exact ⟨default, fun h => absurd h hc⟩
    choose g hg using hdone
    rw [traverse_of_done hg] at h
    cases h
    exact ⟨g, hg, rfl⟩
  · rintro ⟨g, hg, rfl⟩
    exact traverse_of_done hg

end Kind

namespace Node

theorem size_pos (n : Node) : 0 < n.size := by
  obtain ⟨kind, modifiers, annotations⟩ := n
  exact Nat.succ_pos _

theorem isPrimitive_iff {n : Node} {p : Primitive} : n.isPrimitive p = true ↔ n.kind = .primitive p := by
  unfold isPrimitive primitive?
  cases n.kind <;> simp

theorem literal?_eq_some_iff {n : Node} {l : Literal} : n.literal? = some l ↔ n.kind = .literal l := by
  unfold literal?
  cases n.kind <;> simp

/-! ## Trees throughout -/

/-- **Whether the forms of all nodes of a tree are allowed**, inside of bundles too. -/
def everywhere (allowed : Kind Node → Bool) (n : Node) : Bool :=
  allowed n.kind && n.kind.parts.attach.all fun ⟨c, _⟩ => c.everywhere allowed
termination_by n.size
decreasing_by exact size_lt_of_mem_parts ‹_›

theorem everywhere_eq (allowed : Kind Node → Bool) (n : Node) :
    n.everywhere allowed = (allowed n.kind && n.kind.parts.all (everywhere allowed)) := by
  rw [everywhere]
  simp

theorem everywhere_iff {allowed : Kind Node → Bool} {n : Node} :
    n.everywhere allowed = true ↔ allowed n.kind = true ∧ ∀ c ∈ n.kind.parts, c.everywhere allowed = true := by
  rw [everywhere_eq, Bool.and_eq_true, List.all_eq_true]

end Node
end Schemata
