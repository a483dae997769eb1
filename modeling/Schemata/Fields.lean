/-!
# Ordered fields

`Fields α` lists names with what they stand for, in the order in which they were first named.  Object properties,
bundle definitions and contexts are all such lists.  The operations keep names distinct: `insert` replaces in place or
adds at the end, so `Fields.ofList` gives distinct names to any list.
-/
namespace Schemata

/-- Names with their values, in order. -/
abbrev Fields (α : Type) := List (String × α)

namespace Fields

variable {α β : Type}

def Distinct (fields : Fields α) : Prop := (fields.map Prod.fst).Nodup

/-- The names, in order. -/
def names (fields : Fields α) : List String := fields.map Prod.fst

/-- The values, in order. -/
def values (fields : Fields α) : List α := fields.map Prod.snd

def get? : Fields α → String → Option α
  | [], _ => none
  | (name, value) :: rest, wanted => if name = wanted then some value else get? rest wanted

def has (fields : Fields α) (name : String) : Bool := (fields.get? name).isSome

/-- **Binds a name**: in place when it occurs, at the end when it is new. -/
def insert : Fields α → String → α → Fields α
  | [], name, value => [(name, value)]
  | (old, kept) :: rest, name, value =>
    if old = name then (name, value) :: rest else (old, kept) :: insert rest name value

/-- The fields of a list in which names may repeat: first position, last value. -/
def ofList (entries : List (String × α)) : Fields α := entries.foldl (fun fields e => fields.insert e.1 e.2) []

/-- Every field of `upper` bound over those of `fields`. -/
def extend (fields upper : Fields α) : Fields α := upper.foldl (fun acc e => acc.insert e.1 e.2) fields

def without (fields : Fields α) (names : List String) : Fields α := fields.filter fun e => !names.contains e.1

def mapValues (f : α → β) (fields : Fields α) : Fields β := fields.map fun e => (e.1, f e.2)

/-! ## Laws -/

@[simp] theorem get?_nil (name : String) : get? ([] : Fields α) name = none := rfl

theorem get?_cons (name wanted : String) (value : α) (rest : Fields α) :
    get? ((name, value) :: rest) wanted = if name = wanted then some value else get? rest wanted := rfl

theorem get?_insert (fields : Fields α) (name wanted : String) (value : α) :
    (fields.insert name value).get? wanted = if name = wanted then some value else fields.get? wanted := by
  induction fields with
  | nil => rfl
  | cons e rest ih =>
    obtain ⟨old, kept⟩ := e
    by_cases h : old = name
    · subst h; by_cases hw : old = wanted <;> simp [insert, get?_cons, hw]
    · by_cases hw : old = wanted
      · subst hw; simp [insert, h, get?_cons, Ne.symm h]
      · simp [insert, h, get?_cons, hw, ih]

theorem has_insert_iff {fields : Fields α} {name wanted : String} {value : α} :
    (fields.insert name value).has wanted = true ↔ name = wanted ∨ fields.has wanted = true := by
  rw [has, get?_insert]
  by_cases h : name = wanted
  · simp [h]
  · simp [h, has]

theorem names_insert (fields : Fields α) (name : String) (value : α) :
    (fields.insert name value).names = if name ∈ fields.names then fields.names else fields.names ++ [name] := by
  induction fields with
  | nil => simp [insert, names]
  | cons e rest ih =>
    obtain ⟨old, kept⟩ := e
    by_cases h : old = name
    · subst h; simp [insert, names]
    · have hn : name ≠ old := fun h' => h h'.symm
      simp only [names] at ih
      by_cases hm : name ∈ rest.map Prod.fst <;> simp [insert, names, h, hn, hm, ih]

/-- Binding keeps names distinct. -/
theorem distinct_insert {fields : Fields α} (h : fields.Distinct) (name : String) (value : α) :
    (fields.insert name value).Distinct := by
  have hn := names_insert fields name value
  unfold Distinct at *
  unfold names at hn
  rw [hn]
  split
  · exact h
  · rename_i hm
    exact List.nodup_append.2 ⟨h, by simp, fun a ha b hb => by
      simp at hb; subst hb; intro he; subst he; exact hm ha⟩

/-- A new name is bound at the end. -/
theorem insert_of_not_mem {fields : Fields α} {name : String} (h : name ∉ fields.names) (value : α) :
    fields.insert name value = fields ++ [(name, value)] := by
  induction fields with
  | nil => rfl
  | cons e rest ih =>
    obtain ⟨old, kept⟩ := e
    rw [names, List.map_cons, List.mem_cons, not_or] at h
    rw [insert, if_neg (Ne.symm h.1), ih h.2]
    rfl

/-- **Distinct names stay as they are.** -/
theorem ofList_of_distinct {entries : List (String × α)} (h : Distinct entries) : ofList entries = entries := by
  have hfold : ∀ (more : List (String × α)) (fields : Fields α), Distinct (fields ++ more) →
      more.foldl (fun fields e => fields.insert e.1 e.2) fields = fields ++ more := by
    intro more
    induction more with
    | nil => exact fun fields _ => (List.append_nil fields).symm
    | cons e more ih =>
      intro fields hd
      have hnew : e.1 ∉ fields.names := by
        rw [Distinct, List.map_append, List.map_cons] at hd
        exact fun hm => (List.nodup_append.1 hd).2.2 e.1 hm e.1 List.mem_cons_self rfl
      rw [List.append_cons] at hd ⊢
      rw [List.foldl_cons, insert_of_not_mem hnew, ih _ hd]
  exact hfold entries [] h

/-- Whatever the entries are, the names come out distinct. -/
theorem distinct_ofList (entries : List (String × α)) : (ofList entries).Distinct := by
  have hfold : ∀ (more : List (String × α)) (fields : Fields α), fields.Distinct →
      Distinct (more.foldl (fun fields e => fields.insert e.1 e.2) fields) := by
    intro more
    induction more with
    | nil => exact fun _ hd => hd
    | cons e more ih => exact fun fields hd => ih _ (distinct_insert hd e.1 e.2)
  exact hfold entries [] List.nodup_nil

theorem without_nil (fields : Fields α) : fields.without [] = fields := by
  simp [without]

theorem without_cons (e : String × α) (rest : Fields α) (hidden : List String) :
    without (e :: rest) hidden = if e.1 ∈ hidden then rest.without hidden else e :: rest.without hidden := by
  by_cases h : e.1 ∈ hidden <;> simp [without, h]

theorem get?_without (fields : Fields α) (hidden : List String) (wanted : String) :
    (fields.without hidden).get? wanted = if wanted ∈ hidden then none else fields.get? wanted := by
  induction fields with
  | nil => simp [without]
  | cons e rest ih =>
    obtain ⟨name, value⟩ := e
    simp only [without] at ih ⊢
    by_cases h : name ∈ hidden
    · by_cases hw : name = wanted
      · subst hw; simpa [h, get?_cons] using ih
      · simpa [h, get?_cons, hw] using ih
    · by_cases hw : name = wanted
      · subst hw; simp [h, get?_cons]
      · simpa [h, get?_cons, hw] using ih

section
variable (cost : α → Nat)

/-- What the values cost together. -/
def total (fields : Fields α) : Nat := fields.foldr (fun e sum => cost e.2 + sum) 0

theorem total_cons (e : String × α) (rest : Fields α) : total cost (e :: rest) = cost e.2 + total cost rest := rfl

theorem total_without_le (fields : Fields α) {hidden more : List String} (h : ∀ name ∈ hidden, name ∈ more) :
    total cost (fields.without more) ≤ total cost (fields.without hidden) := by
  induction fields with
  | nil => exact Nat.le_refl _
  | cons e rest ih =>
    rw [without_cons, without_cons]
    by_cases hh : e.1 ∈ hidden
    · rwa [if_pos hh, if_pos (h _ hh)]
    · rw [if_neg hh, total_cons]
      split
      · omega
      · rw [total_cons]
        omega

/-- **A name that is left out pays for its value.** -/
theorem add_total_without_le {fields : Fields α} {name : String} {value : α} {hidden : List String}
    (hb : fields.get? name = some value) (hn : name ∉ hidden) :
    cost value + total cost (fields.without (name :: hidden)) ≤ total cost (fields.without hidden) := by
  induction fields with
  | nil => cases hb
  | cons e rest ih =>
    obtain ⟨old, kept⟩ := e
    rw [get?_cons] at hb
    rw [without_cons, without_cons]
    by_cases hold : old = name
    · subst hold
      rw [if_pos rfl] at hb
      cases hb
      rw [if_pos List.mem_cons_self, if_neg hn, total_cons]
      exact Nat.add_le_add_left (total_without_le cost rest fun _ => List.mem_cons_of_mem old) _
    · rw [if_neg hold] at hb
      have hrest := ih hb
      by_cases hh : old ∈ hidden
      · rwa [if_pos (List.mem_cons_of_mem name hh), if_pos hh]
      · rw [if_neg (by simpa using ⟨hold, hh⟩), if_neg hh, total_cons, total_cons]
        omega

end

theorem mem_of_get? {fields : Fields α} {name : String} {value : α} (h : fields.get? name = some value) :
    (name, value) ∈ fields := by
  induction fields with
  | nil => cases h
  | cons e rest ih =>
    obtain ⟨old, kept⟩ := e
    rw [get?_cons] at h
    split at h
    · rename_i he
      cases h
      rw [he]
      exact List.mem_cons_self
    · exact List.mem_cons_of_mem _ (ih h)

theorem mem_insert {fields : Fields α} {name : String} {value : α} {e : String × α} (h : e ∈ fields.insert name value) :
    e = (name, value) ∨ e ∈ fields := by
  induction fields with
  | nil => exact .inl (List.mem_singleton.1 h)
  | cons f rest ih =>
    obtain ⟨old, kept⟩ := f
    rw [insert] at h
    split at h
    · exact (List.mem_cons.1 h).imp id (List.mem_cons_of_mem _)
    · rcases List.mem_cons.1 h with rfl | h
      · exact .inr List.mem_cons_self
      · exact (ih h).imp id (List.mem_cons_of_mem _)

theorem mem_ofList {entries : List (String × α)} {e : String × α} (h : e ∈ ofList entries) : e ∈ entries := by
  have hfold : ∀ (more : List (String × α)) (fields : Fields α),
      e ∈ more.foldl (fun fields e => fields.insert e.1 e.2) fields → e ∈ fields ∨ e ∈ more := by
    intro more
    induction more with
    | nil => exact fun _ => .inl
    | cons f more ih =>
      intro fields he
      rcases ih _ he with he | he
      · rcases mem_insert he with rfl | he
        · exact .inr List.mem_cons_self
        · exact .inl he
      · exact .inr (List.mem_cons_of_mem f he)
  exact (hfold entries [] h).resolve_left List.not_mem_nil

/-- What holds of all values holds of them after one more is bound. -/
theorem forall_insert {P : α → Prop} {fields : Fields α} {value : α} (h : ∀ e ∈ fields, P e.2) (hvalue : P value)
    (name : String) : ∀ e ∈ fields.insert name value, P e.2 := by
  intro e he
  rcases mem_insert he with rfl | he
  · exact hvalue
  · exact h e he

theorem forall_extend {P : α → Prop} {fields upper : Fields α} (h : ∀ e ∈ fields, P e.2) (hupper : ∀ e ∈ upper, P e.2) :
    ∀ e ∈ fields.extend upper, P e.2 := by
  induction upper generalizing fields with
  | nil => exact h
  | cons f rest ih =>
    rw [List.forall_mem_cons] at hupper
    exact ih (forall_insert h hupper.1 f.1) hupper.2

/-- A name occurs when it stands for something. -/
theorem mem_names_iff {fields : Fields α} {name : String} : name ∈ fields.names ↔ fields.has name = true := by
  induction fields with
  | nil => simp [names, has]
  | cons e rest ih =>
    obtain ⟨old, kept⟩ := e
    by_cases he : old = name
    · simp [names, has, get?_cons, he]
    · simpa [names, has, get?_cons, he, Ne.symm he] using ih

theorem get?_mapValues (f : α → β) (fields : Fields α) (name : String) :
    (fields.mapValues f).get? name = (fields.get? name).map f := by
  induction fields with
  | nil => rfl
  | cons e rest ih =>
    obtain ⟨old, kept⟩ := e
    simp only [mapValues, List.map_cons, get?_cons] at ih ⊢
    split
    · rfl
    · exact ih

end Fields
end Schemata
