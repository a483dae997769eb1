import Mathlib.Data.String.Basic
import Schemata.Proofs.Node.Names
/-!
# Annotations that are handed on

A node that takes the place of another one inherits its flags and annotations, and the replacement may be replaced
again.  Annotations are kept in the order of their names, so it does not matter in which order two names are bound
(`Annotations.insert_comm`), nor how a chain of replacements is grouped.

- `Node.outside test n`: a test holds of every node of a tree outside of bundles.
- `Node.isOrdered`: the annotations out there are in order.

Main statement: `Node.inherit_inherit`.
-/
namespace Schemata

/-! ## Annotations in order -/

namespace Annotations

variable {a b c : Annotations} {name wanted : String} {value : Json}

instance (a : Annotations) : Decidable a.Sorted := inferInstanceAs (Decidable (List.Pairwise (· < ·) (a.map Prod.fst)))

theorem sorted_nil : Sorted [] := List.Pairwise.nil

theorem sorted_cons {e : String × Json} : Sorted (e :: a) ↔ (∀ x ∈ a, e.1 < x.1) ∧ a.Sorted := by
  simp [Sorted]

theorem insert_of_lt (h : ∀ e ∈ a, name < e.1) (value : Json) : a.insert name value = (name, value) :: a := by
  cases a with
  | nil => rfl
  | cons e rest =>
    have hlt : name < e.1 := h e List.mem_cons_self
    rw [insert, if_neg hlt.ne, if_pos hlt]

/-- Of two bindings of a name, the later one stays. -/
theorem insert_insert (a : Annotations) (name : String) (value other : Json) :
    (a.insert name value).insert name other = a.insert name other := by
  induction a with
  | nil => simp [insert]
  | cons e rest ih =>
    obtain ⟨old, kept⟩ := e
    by_cases hold : name = old
    · simp [insert, hold]
    · by_cases hlt : name < old <;> simp [insert, hold, hlt, ih]

/-- Two names are bound in either order. -/
theorem insert_comm (a : Annotations) {name wanted : String} (h : name ≠ wanted) (value other : Json) :
    (a.insert name value).insert wanted other = (a.insert wanted other).insert name value := by
  induction a with
  | nil => rcases lt_or_gt_of_ne h with hlt | hlt <;> simp [insert, h, Ne.symm h, hlt, not_lt.2 hlt.le]
  | cons e rest ih => grind [insert]

theorem mem_insert {e : String × Json} (h : e ∈ a.insert name value) : e = (name, value) ∨ e ∈ a := by
  induction a with
  | nil => exact .inl (List.mem_singleton.1 h)
  | cons f rest ih =>
    obtain ⟨old, kept⟩ := f
    rw [insert] at h
    split at h
    · exact (List.mem_cons.1 h).imp id (List.mem_cons_of_mem _)
    · split at h
      · exact List.mem_cons.1 h
      · rcases List.mem_cons.1 h with rfl | h
        · exact .inr List.mem_cons_self
        · exact (ih h).imp id (List.mem_cons_of_mem _)

theorem sorted_insert (h : a.Sorted) (name : String) (value : Json) : (a.insert name value).Sorted := by
  induction a with
  | nil => exact List.pairwise_singleton _ _
  | cons e rest ih =>
    obtain ⟨old, kept⟩ := e
    obtain ⟨hfirst, hrest⟩ := sorted_cons.1 h
    rw [insert]
    split
    · rename_i hold
      exact sorted_cons.2 ⟨fun x hx => hold ▸ hfirst x hx, hrest⟩
    · rename_i hold
      split
      · rename_i hlt
        refine sorted_cons.2 ⟨fun x hx => ?_, h⟩
        rcases List.mem_cons.1 hx with rfl | hx
        · exact hlt
        · exact hlt.trans (hfirst x hx)
      · rename_i hnot
        refine sorted_cons.2 ⟨fun x hx => ?_, ih hrest⟩
        rcases mem_insert hx with rfl | hx
        · exact lt_of_le_of_ne (not_lt.1 hnot) (Ne.symm hold)
        · exact hfirst x hx

theorem sorted_override (h : a.Sorted) (b : Annotations) : (a.override b).Sorted := by
  induction b generalizing a with
  | nil => exact h
  | cons e rest ih => exact ih (sorted_insert h e.1 e.2)

/-- Binding a name last is binding it among what is written over. -/
theorem override_insert (a : Annotations) (hb : b.Sorted) (name : String) (value : Json) :
    (a.override b).insert name value = a.override (b.insert name value) := by
  induction b generalizing a with
  | nil => rfl
  | cons e rest ih =>
    obtain ⟨old, kept⟩ := e
    obtain ⟨hfirst, hrest⟩ := sorted_cons.1 hb
    have hover : ∀ (a : Annotations) (e : String × Json) (b : Annotations),
        a.override (e :: b) = (a.insert e.1 e.2).override b := fun _ _ _ => rfl
    rw [hover, ih _ hrest, insert]
    rcases lt_trichotomy name old with hlt | rfl | hlt
    · rw [if_neg hlt.ne, if_pos hlt, insert_of_lt (fun x hx => hlt.trans (hfirst x hx)), hover, hover, hover,
        insert_comm a hlt.ne']
    · rw [if_pos rfl, insert_of_lt hfirst, hover, hover, insert_insert]
    · rw [if_neg hlt.ne', if_neg hlt.not_gt, hover]

/-- **Overriding can be grouped either way**, where what stands in the middle is in order. -/
theorem override_override (a : Annotations) (hb : b.Sorted) (c : Annotations) :
    (a.override b).override c = a.override (b.override c) := by
  induction c generalizing b with
  | nil => rfl
  | cons e rest ih =>
    have hrest := ih (sorted_insert hb e.1 e.2)
    rw [← override_insert a hb] at hrest
    exact hrest

theorem insert_of_gt (h : ∀ e ∈ a, e.1 < name) (value : Json) : a.insert name value = a ++ [(name, value)] := by
  induction a with
  | nil => rfl
  | cons e rest ih =>
    obtain ⟨old, kept⟩ := e
    rw [List.forall_mem_cons] at h
    rw [insert, if_neg h.1.ne', if_neg h.1.not_gt, ih h.2]
    rfl

/-- **What is in order stays as it is.** -/
theorem ofList_of_sorted (h : a.Sorted) : ofList a = a := by
  have hfold : ∀ more acc : Annotations, Sorted (acc ++ more) → acc.override more = acc ++ more := by
    intro more
    induction more with
    | nil => exact fun acc _ => (List.append_nil acc).symm
    | cons e more ih =>
      intro acc hs
      have hlast : ∀ x ∈ acc, x.1 < e.1 := by
        rw [Sorted, List.map_append, List.map_cons] at hs
        exact fun x hx => (List.pairwise_append.1 hs).2.2 x.1 (List.mem_map_of_mem hx) e.1 List.mem_cons_self
      rw [List.append_cons] at hs ⊢
      rw [← ih _ hs, ← insert_of_gt hlast]
      rfl
  exact hfold a [] h

theorem sorted_ofList (entries : List (String × Json)) : (ofList entries).Sorted := sorted_override sorted_nil entries

theorem mem_ofList {entries : List (String × Json)} {e : String × Json} (h : e ∈ ofList entries) : e ∈ entries := by
  have hfold : ∀ (more : List (String × Json)) (acc : Annotations), e ∈ acc.override more → e ∈ acc ∨ e ∈ more := by
    intro more
    induction more with
    | nil => exact fun _ => .inl
    | cons f more ih =>
      intro acc he
      rcases ih (acc.insert f.1 f.2) he with he | he
      · rcases mem_insert he with rfl | he
        · exact .inr List.mem_cons_self
        · exact .inl he
      · exact .inr (List.mem_cons_of_mem f he)
  exact (hfold entries [] h).resolve_left List.not_mem_nil

end Annotations

/-! ## Trees outside of bundles -/

namespace Node

/-- **Whether a test holds of all nodes of a tree outside of bundles**; the bundles themselves are tested. -/
def outside (test : Node → Bool) (n : Node) : Bool :=
  test n && n.children.attach.all fun ⟨c, _⟩ => c.outside test
termination_by n.size
decreasing_by exact size_lt_of_mem_children ‹_›

theorem outside_iff {test : Node → Bool} {n : Node} :
    n.outside test = true ↔ test n = true ∧ ∀ c ∈ n.children, c.outside test = true := by
  rw [outside, Bool.and_eq_true]
  simp

/-- **Whether annotations are in the order of their names**, outside of bundles. -/
def isOrdered (n : Node) : Bool := n.outside fun m => decide m.annotations.Sorted

theorem isOrdered_iff {n : Node} :
    n.isOrdered = true ↔ n.annotations.Sorted ∧ ∀ c ∈ n.children, c.isOrdered = true := by
  rw [isOrdered, outside_iff, decide_eq_true_iff]
  rfl

/-- A new node has nothing to hand on. -/
theorem inherit_of (n : Node) (kind : Kind Node) : n.inherit (.of kind) = n := by
  obtain ⟨k, ⟨optional, readonly⟩, annotations⟩ := n
  simp [inherit, of, Modifiers.merge, Modifiers.plain, Annotations.override]

/-- **Inheriting can be grouped either way.** -/
theorem inherit_inherit (n : Node) {m : Node} (hm : m.annotations.Sorted) (origin : Node) :
    (n.inherit m).inherit origin = n.inherit (m.inherit origin) := by
  simp only [inherit, Annotations.override_override _ hm, Modifiers.merge, Bool.or_assoc]

end Node

/-- All definitions of a context have annotations in order. -/
def Context.Ordered (context : Context) : Prop := ∀ name n, context.get? name = some n → n.isOrdered = true

theorem Context.Ordered.of_all {context : Context} (h : (context.all fun e => e.2.isOrdered) = true) : context.Ordered :=
  fun _ _ hn => List.all_eq_true.1 h _ (Fields.mem_of_get? hn)

end Schemata
