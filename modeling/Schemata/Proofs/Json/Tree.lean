import Schemata.Proofs.Node.Annotations
/-!
# What JSON values hold

- `Json.numbers`: the numbers in a value, at any depth.
- `Json.levels`: how deep arrays and objects are nested.
- `Json.isOrdered`: all objects have their names in order, as annotations have.

Each is one fold over the value.
-/
namespace Schemata
namespace Json

mutual
/-- **What a value comes to**, part by part. -/
def fold {α : Type} (leaf : Json → α) (array : List α → α) (object : List (String × α) → α) : Json → α
  | .array items => array (foldItems leaf array object items)
  | .object fields => object (foldFields leaf array object fields)
  | j => leaf j

def foldItems {α : Type} (leaf : Json → α) (array : List α → α) (object : List (String × α) → α) : List Json → List α
  | [] => []
  | j :: js => fold leaf array object j :: foldItems leaf array object js

def foldFields {α : Type} (leaf : Json → α) (array : List α → α) (object : List (String × α) → α) :
    List (String × Json) → List (String × α)
  | [] => []
  | (name, j) :: rest => (name, fold leaf array object j) :: foldFields leaf array object rest
end

section
variable {α : Type} (leaf : Json → α) (array : List α → α) (object : List (String × α) → α)

theorem fold_array (items : List Json) :
    fold leaf array object (.array items) = array (items.map (fold leaf array object)) := by
  have hitems : ∀ js : List Json, foldItems leaf array object js = js.map (fold leaf array object) := fun js => by
    induction js with
    | nil => rfl
    | cons j js ih => rw [foldItems, ih, List.map_cons]
  rw [fold, hitems]

theorem fold_object (fields : List (String × Json)) :
    fold leaf array object (.object fields) = object (fields.map fun e => (e.1, fold leaf array object e.2)) := by
  have hfields : ∀ es : List (String × Json),
      foldFields leaf array object es = es.map fun e => (e.1, fold leaf array object e.2) := fun es => by
    induction es with
    | nil => rfl
    | cons e es ih => rw [foldFields, ih, List.map_cons]
  rw [fold, hfields]

end

/-! ## Levels -/

/-- **How deep arrays and objects are nested.** -/
def levels : Json → Nat :=
  fold (fun _ => 0) (fun each => each.foldr max 0 + 1) fun fields => (fields.map Prod.snd).foldr max 0 + 1

theorem levels_boolean (b : Bool) : levels (.boolean b) = 0 := rfl

theorem levels_string (s : String) : levels (.string s) = 0 := rfl

theorem levels_array (items : List Json) : levels (.array items) = (items.map levels).foldr max 0 + 1 := fold_array _ _ _ _

theorem levels_object (fields : List (String × Json)) :
    levels (.object fields) = (fields.map fun e => e.2.levels).foldr max 0 + 1 := by
  rw [levels, fold_object, ← levels, List.map_map]
  rfl

theorem foldr_max_le {xs : List Nat} {k : Nat} : xs.foldr max 0 ≤ k ↔ ∀ x ∈ xs, x ≤ k := by
  induction xs with
  | nil => simp
  | cons x xs ih => rw [List.foldr_cons, Nat.max_le, ih, List.forall_mem_cons]

theorem levels_array_le {items : List Json} {k : Nat} :
    levels (.array items) ≤ k + 1 ↔ ∀ j ∈ items, j.levels ≤ k := by
  rw [levels_array, Nat.succ_le_succ_iff, foldr_max_le, List.forall_mem_map]

theorem levels_object_le {fields : List (String × Json)} {k : Nat} :
    levels (.object fields) ≤ k + 1 ↔ ∀ e ∈ fields, e.2.levels ≤ k := by
  rw [levels_object, Nat.succ_le_succ_iff, foldr_max_le, List.forall_mem_map]

theorem levels_lt_array {items : List Json} {j : Json} (h : j ∈ items) : j.levels < levels (.array items) := by
  rw [levels_array, Nat.lt_succ_iff]
  exact foldr_max_le.1 le_rfl _ (List.mem_map_of_mem h)

theorem levels_lt_object {fields : List (String × Json)} {e : String × Json} (h : e ∈ fields) :
    e.2.levels < levels (.object fields) := by
  rw [levels_object, Nat.lt_succ_iff]
  exact foldr_max_le.1 le_rfl _ (List.mem_map_of_mem h)

/-- **Induction over the parts of a value.** -/
@[elab_as_elim] theorem induction_on_parts {motive : Json → Prop} (j : Json) (null : motive .null)
    (boolean : ∀ b, motive (.boolean b)) (integer : ∀ i, motive (.integer i)) (number : ∀ x, motive (.number x))
    (string : ∀ s, motive (.string s)) (array : ∀ items, (∀ j ∈ items, motive j) → motive (.array items))
    (object : ∀ fields : List (String × Json), (∀ e ∈ fields, motive e.2) → motive (.object fields)) : motive j := by
  induction hk : j.levels using Nat.strongRecOn generalizing j with
  | ind k ih =>
    cases j with
    | null => exact null
    | boolean b => exact boolean b
    | integer i => exact integer i
    | number x => exact number x
    | string s => exact string s
    | array items => exact array items fun j hj => ih j.levels (hk ▸ levels_lt_array hj) j rfl
    | object fields => exact object fields fun e he => ih e.2.levels (hk ▸ levels_lt_object he) e.2 rfl

/-! ## Numbers -/

/-- **The numbers in a value.** -/
def numbers : Json → List Number :=
  fold (fun | .number x => [x] | _ => []) List.flatten fun fields => (fields.map Prod.snd).flatten

theorem mem_numbers_array {items : List Json} {x : Number} :
    x ∈ numbers (.array items) ↔ ∃ j ∈ items, x ∈ j.numbers := by
  rw [numbers, fold_array, ← numbers, List.mem_flatten]
  simp

theorem mem_numbers_object {fields : List (String × Json)} {x : Number} :
    x ∈ numbers (.object fields) ↔ ∃ e ∈ fields, x ∈ e.2.numbers := by
  rw [numbers, fold_object, ← numbers, List.mem_flatten]
  simp

/-! ## Order -/

/-- **Whether all objects of a value have their names in order**, each name once. -/
def isOrdered : Json → Bool :=
  fold (fun _ => true) (fun each => each.all id) fun fields =>
    decide ((fields.map Prod.fst).Pairwise (· < ·)) && fields.all (·.2)

theorem isOrdered_array {items : List Json} :
    isOrdered (.array items) = true ↔ ∀ j ∈ items, j.isOrdered = true := by
  rw [isOrdered, fold_array, ← isOrdered]
  simp

theorem isOrdered_object {fields : List (String × Json)} :
    isOrdered (.object fields) = true ↔ Annotations.Sorted fields ∧ ∀ e ∈ fields, e.2.isOrdered = true := by
  rw [isOrdered, fold_object, ← isOrdered]
  simp [Annotations.Sorted, Function.comp_def]

end Json
end Schemata
