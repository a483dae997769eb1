/-!
# First occurrences

`distinct` leaves out what equals an earlier element.  Equality is whatever `==` says; an element that does not equal
itself is never left out.
-/
namespace Schemata

variable {α : Type} [BEq α]

/-- The elements that equal none of `seen` and none before them. -/
def distinctFrom (seen : List α) : List α → List α
  | [] => []
  | x :: xs => if seen.any (· == x) then distinctFrom seen xs else x :: distinctFrom (x :: seen) xs

/-- **The elements without repetitions**, in order of first occurrence. -/
def distinct (xs : List α) : List α := distinctFrom [] xs

/-! ## Laws -/

theorem mem_of_mem_distinctFrom {x : α} {seen xs : List α} (h : x ∈ distinctFrom seen xs) : x ∈ xs := by
  induction xs generalizing seen with
  | nil => exact h
  | cons y ys ih =>
    rw [distinctFrom] at h
    split at h
    · exact List.mem_cons_of_mem y (ih h)
    · rcases List.mem_cons.1 h with rfl | h
      · exact List.mem_cons_self
      · exact List.mem_cons_of_mem y (ih h)

/-- Nothing is added, whatever equality says. -/
theorem mem_of_mem_distinct {x : α} {xs : List α} (h : x ∈ distinct xs) : x ∈ xs := mem_of_mem_distinctFrom h

theorem exists_mem_distinctFrom {x : α} {seen xs : List α} (h : x ∈ xs) :
    ∃ y, (y ∈ seen ∨ y ∈ distinctFrom seen xs) ∧ (y = x ∨ (y == x) = true) := by
  induction xs generalizing seen with
  | nil => cases h
  | cons z zs ih =>
    rw [distinctFrom]
    split
    · rename_i hseen
      rcases List.mem_cons.1 h with rfl | h
      · obtain ⟨y, hy, hyx⟩ := List.any_eq_true.1 hseen
        exact ⟨y, .inl hy, .inr hyx⟩
      · exact ih h
    · rcases List.mem_cons.1 h with rfl | h
      · exact ⟨x, .inr List.mem_cons_self, .inl rfl⟩
      · obtain ⟨y, hy, hyx⟩ := @ih (z :: seen) h
        refine ⟨y, ?_, hyx⟩
        rcases hy with hy | hy
        · exact (List.mem_cons.1 hy).elim (fun h => .inr (h ▸ List.mem_cons_self)) .inl
        · exact .inr (List.mem_cons_of_mem _ hy)

/-- Nothing is lost: of each element one is left that is the same or equals it. -/
theorem exists_mem_distinct {x : α} {xs : List α} (h : x ∈ xs) : ∃ y ∈ distinct xs, y = x ∨ (y == x) = true := by
  obtain ⟨y, hy, hyx⟩ := @exists_mem_distinctFrom α _ x [] xs h
  exact ⟨y, hy.resolve_left List.not_mem_nil, hyx⟩

section
variable [LawfulBEq α]

theorem mem_distinctFrom {x : α} {seen xs : List α} : x ∈ distinctFrom seen xs ↔ x ∈ xs ∧ x ∉ seen := by
  induction xs generalizing seen with
  | nil => simp [distinctFrom]
  | cons y ys ih =>
    have hany : (seen.any fun z => z == y) = true ↔ y ∈ seen := by simp
    rw [distinctFrom]
    split
    · rename_i h
      have hy : y ∈ seen := hany.1 h
      rw [ih, List.mem_cons]
      constructor
      · exact fun hx => ⟨.inr hx.1, hx.2⟩
      · rintro ⟨rfl | hx, hs⟩
        · exact absurd hy hs
        · exact ⟨hx, hs⟩
    · rename_i h
      have hy : y ∉ seen := fun hm => h (hany.2 hm)
      rw [List.mem_cons, ih, List.mem_cons, List.mem_cons]
      constructor
      · rintro (rfl | hx)
        · exact ⟨.inl rfl, hy⟩
        · exact ⟨.inr hx.1, fun hs => hx.2 (.inr hs)⟩
      · rintro ⟨hx, hs⟩
        by_cases hxy : x = y
        · exact .inl hxy
        · exact .inr ⟨hx.resolve_left hxy, fun h => h.elim hxy hs⟩

theorem nodup_distinctFrom (seen xs : List α) : (distinctFrom seen xs).Nodup := by
  induction xs generalizing seen with
  | nil => exact List.nodup_nil
  | cons y ys ih =>
    rw [distinctFrom]
    split
    · exact ih seen
    · exact List.nodup_cons.2 ⟨fun h => (mem_distinctFrom.1 h).2 List.mem_cons_self, ih _⟩

@[simp] theorem mem_distinct {x : α} {xs : List α} : x ∈ distinct xs ↔ x ∈ xs := by
  rw [distinct, mem_distinctFrom]
  exact ⟨fun h => h.1, fun h => ⟨h, List.not_mem_nil⟩⟩

theorem nodup_distinct (xs : List α) : (distinct xs).Nodup := nodup_distinctFrom [] xs

end
end Schemata
