import Schemata.Proofs.Json.Rendering
/-!
# Values are read back

What a document says is a value whose objects are in order, nested no deeper than it may be; and a value of this kind is
read back from the document that it is written as.

Main statements: `Document.toJson?_spelled` and `Document.isOrdered_of_toJson?`.
-/
namespace Schemata

theorem mapM_of_some {α β : Type} {f : α → Option β} {g : α → β} {xs : List α} (h : ∀ x ∈ xs, f x = some (g x)) :
    xs.mapM f = some (xs.map g) := by
  induction xs with
  | nil => rfl
  | cons x xs ih =>
    rw [List.forall_mem_cons] at h
    rw [List.mapM_cons, h.1, ih h.2]
    rfl

/-- What is written item by item is read item by item. -/
theorem mapM_map_of_some {α β : Type} {read : β → Option α} {write : α → β} {xs : List α}
    (h : ∀ x ∈ xs, read (write x) = some x) : (xs.map write).mapM read = some xs := by
  have hid : xs.mapM (fun x => read (write x)) = some (xs.map id) := mapM_of_some h
  rw [List.mapM_map]
  rwa [List.map_id] at hid

theorem forall₂_of_mapM_some {α β : Type} {f : α → Option β} {xs : List α} {ys : List β} (h : xs.mapM f = some ys) :
    List.Forall₂ (fun x y => f x = some y) xs ys := by
  induction xs generalizing ys with
  | nil =>
    cases h
    exact .nil
  | cons x xs ih =>
    rw [List.mapM_cons] at h
    obtain ⟨y, hy, h⟩ := Option.bind_eq_some_iff.1 h
    obtain ⟨ys, hys, h⟩ := Option.bind_eq_some_iff.1 h
    cases h
    exact .cons hy (ih hys)

namespace Json

/-- Arrays and objects take a level. -/
theorem exists_of_levels_array_le {items : List Json} {levels : Nat} (h : (Json.array items).levels ≤ levels) :
    ∃ k, levels = k + 1 ∧ ∀ j ∈ items, j.levels ≤ k := by
  obtain ⟨k, rfl⟩ : ∃ k, levels = k + 1 := ⟨levels - 1, by rw [levels_array] at h; omega⟩
  exact ⟨k, rfl, levels_array_le.1 h⟩

theorem exists_of_levels_object_le {fields : List (String × Json)} {levels : Nat}
    (h : (Json.object fields).levels ≤ levels) : ∃ k, levels = k + 1 ∧ ∀ e ∈ fields, e.2.levels ≤ k := by
  obtain ⟨k, rfl⟩ : ∃ k, levels = k + 1 := ⟨levels - 1, by rw [levels_object] at h; omega⟩
  exact ⟨k, rfl, levels_object_le.1 h⟩

end Json

namespace Document

theorem named?_spelled (fields : List (String × Json)) :
    named? (fields.map fun e => (some e.1, e.2.spelled)) = some (fields.map fun e => (e.1, e.2.spelled)) := by
  rw [named?, List.mapM_map]
  exact mapM_of_some fun _ _ => rfl

/-- **A value is read back from the document that it is written as**, if its numbers are, its objects are in order and
there are levels enough. -/
theorem toJson?_spelled {j : Json} {levels : Nat} (hn : ∀ x ∈ j.numbers, x.ReadsBack) (ho : j.isOrdered = true)
    (hl : j.levels ≤ levels) : j.spelled.toJson? levels = some j := by
  induction j using Json.induction_on_parts generalizing levels with
  | null | boolean | string => cases levels <;> rfl
  | integer i =>
    have hread := i.toJson?_numeral
    cases levels <;> exact hread
  | number x =>
    have hread := (hn x (List.mem_singleton_self x)).toJson?_numeral
    cases levels <;> exact hread
  | array items ih =>
    obtain ⟨k, rfl, hparts⟩ := Json.exists_of_levels_array_le hl
    have hitems : (items.map Json.spelled).mapM (toJson? k) = some items := mapM_map_of_some fun j hj =>
      ih j hj (fun x hx => hn x (Json.mem_numbers_array.2 ⟨j, hj, hx⟩)) (Json.isOrdered_array.1 ho j hj) (hparts j hj)
    rw [Json.spelled_array, toJson?, hitems]
    rfl
  | object fields ih =>
    obtain ⟨k, rfl, hparts⟩ := Json.exists_of_levels_object_le hl
    obtain ⟨hsorted, hordered⟩ := Json.isOrdered_object.1 ho
    have hfields : (fields.map fun e => (e.1, e.2.spelled)).mapM (fun e => do return (e.1, ← toJson? k e.2)) =
        some fields := mapM_map_of_some fun e he => by
      rw [ih e he (fun x hx => hn x (Json.mem_numbers_object.2 ⟨e, he, hx⟩)) (hordered e he) (hparts e he)]
      rfl
    rw [Json.spelled_object, toJson?, named?_spelled]
    dsimp only [Option.bind_eq_bind, Option.bind_some] at hfields ⊢
    rw [hfields, Option.bind_some, Annotations.ofList_of_sorted hsorted]
    rfl

theorem exists_of_mem_mapM_some {α β : Type} {f : α → Option β} {xs : List α} {ys : List β} (h : xs.mapM f = some ys)
    {y : β} (hy : y ∈ ys) : ∃ x ∈ xs, f x = some y := exists_of_mem_right (forall₂_of_mapM_some h) hy

/-- **What a document says, part by part.** -/
theorem toJson?_cases {d : Document} {levels : Nat} {j : Json} (h : d.toJson? levels = some j) :
    (j.isOrdered = true ∧ j.levels = 0) ∨ ∃ k, levels = k + 1 ∧
      ((∃ (items : List Document) (js : List Json), j = .array js ∧ items.mapM (toJson? k) = some js) ∨
        ∃ (members : List (String × Document)) (fields : List (String × Json)),
          j = .object (Annotations.ofList fields) ∧
          members.mapM (fun e => do return (e.1, ← toJson? k e.2)) = some fields) := by
  cases d with
  | null | boolean =>
    rw [toJson?] at h
    cases h
    exact .inl ⟨rfl, rfl⟩
  | number n =>
    rw [toJson?, Numeral.toJson?] at h
    split at h
    · cases h
      exact .inl ⟨rfl, rfl⟩
    · obtain ⟨x, -, rfl⟩ := Option.map_eq_some_iff.1 h
      exact .inl ⟨rfl, rfl⟩
  | string s =>
    rw [toJson?] at h
    obtain ⟨text, -, rfl⟩ := Option.map_eq_some_iff.1 h
    exact .inl ⟨rfl, rfl⟩
  | array items =>
    cases levels with
    | zero => cases h
    | succ k =>
      rw [toJson?] at h
      obtain ⟨js, hjs, rfl⟩ := Option.map_eq_some_iff.1 h
      exact .inr ⟨k, rfl, .inl ⟨items, js, rfl, hjs⟩⟩
  | object members =>
    cases levels with
    | zero => cases h
    | succ k =>
      rw [toJson?] at h
      obtain ⟨named, -, h⟩ := Option.bind_eq_some_iff.1 h
      obtain ⟨fields, hfields, h⟩ := Option.bind_eq_some_iff.1 h
      cases h
      exact .inr ⟨k, rfl, .inr ⟨named, fields, rfl, hfields⟩⟩

/-- **What a document says** has its objects in order and no more levels than allowed. -/
theorem isOrdered_of_toJson? {d : Document} {levels : Nat} {j : Json} (h : d.toJson? levels = some j) :
    j.isOrdered = true ∧ j.levels ≤ levels := by
  induction levels generalizing d j with
  | zero =>
    obtain ⟨ho, hl⟩ | ⟨k, hk, -⟩ := toJson?_cases h
    · exact ⟨ho, hl.le⟩
    · cases hk
  | succ k ih =>
    obtain ⟨ho, hl⟩ | ⟨_, ⟨⟩, ⟨items, js, rfl, hjs⟩ | ⟨members, fields, rfl, hfields⟩⟩ := toJson?_cases h
    · exact ⟨ho, hl.le.trans (Nat.zero_le _)⟩
    · have hparts : ∀ j ∈ js, j.isOrdered = true ∧ j.levels ≤ k := fun j hj => by
        obtain ⟨d, -, hd⟩ := exists_of_mem_mapM_some hjs hj
        exact ih hd
      exact ⟨Json.isOrdered_array.2 fun j hj => (hparts j hj).1, Json.levels_array_le.2 fun j hj => (hparts j hj).2⟩
    · have hparts : ∀ e ∈ Annotations.ofList fields, e.2.isOrdered = true ∧ e.2.levels ≤ k := fun e he => by
        obtain ⟨member, -, hmember⟩ := exists_of_mem_mapM_some hfields (Annotations.mem_ofList he)
        obtain ⟨j, hj, he⟩ := Option.bind_eq_some_iff.1 hmember
        cases he
        exact ih hj
      exact ⟨Json.isOrdered_object.2 ⟨Annotations.sorted_ofList fields, fun e he => (hparts e he).1⟩,
        Json.levels_object_le.2 fun e he => (hparts e he).2⟩

end Document
end Schemata
