import Schemata.Proofs.Reference.Reachability
/-!
# Chasing references in a richer context

A chain of references that ends at a generic ends there in every context that binds as much.  Where no name leads back, no
chain repeats a name, so the names of the context are steps enough for it (`chase_of_chaseFor`).

Main statement: `chase_mono`.
-/
namespace Schemata

open Relation (TransGen)

variable {context wider : Context} {name found : String} {parameters : List (Parameter Node)} {body : Node}

theorem chase_of_unbound {name : String} (h : context.get? name = none) : chase context name = .unresolved := by
  rw [chase]
  cases context.length with
  | zero => rfl
  | succ fuel => rw [Context.chaseFor, h]

theorem chase_of_generic {name : String} {n : Node} {parameters : List (Parameter Node)} {body : Node}
    (hn : context.get? name = some n) (hk : n.kind = .generic parameters body) :
    chase context name = .generic name parameters body := by
  cases context with
  | nil => cases hn
  | cons e rest =>
    rw [chase, List.length_cons, Context.chaseFor, hn]
    simp only [hk]

theorem chaseFor_mono (hwithin : ∀ name n, context.get? name = some n → wider.get? name = some n) {fuel more : Nat}
    (hf : fuel ≤ more) (h : context.chaseFor fuel name = .generic found parameters body) :
    wider.chaseFor more name = .generic found parameters body := by
  induction fuel generalizing more name with
  | zero => cases h
  | succ fuel ih =>
    obtain ⟨more, rfl⟩ : ∃ m, more = m + 1 := ⟨more - 1, by omega⟩
    rw [Context.chaseFor] at h ⊢
    cases hn : context.get? name with
    | none =>
      rw [hn] at h
      cases h
    | some n =>
      rw [hn] at h
      rw [hwithin name n hn]
      dsimp only at h ⊢
      cases hk : n.kind with
      | ref next =>
        rw [hk] at h
        exact ih (by omega) h
      | _ =>
        rw [hk] at h
        exact h

/-- A definition that is a reference exposes what it refers to. -/
theorem exposes_of_ref {n : Node} {next : String} (hn : context.get? name = some n) (hk : n.kind = .ref next) :
    Exposes context name next := by
  refine ⟨n, hn, ?_⟩
  rw [Node.exposed_eq, hk]
  exact List.mem_singleton_self next

/-- **The names of a context are steps enough** where none leads back, by induction on the steps taken; `visited` are the
names that the chain came through. -/
theorem chaseFor_of_visited (hacyclic : ∀ name, isCyclic context name = false) {fuel : Nat} {visited : List String}
    (hnodup : visited.Nodup) (hbound : ∀ v ∈ visited, context.has v)
    (hleads : ∀ v ∈ visited, TransGen (Exposes context) v name)
    (h : context.chaseFor fuel name = .generic found parameters body) :
    context.chaseFor (context.length - visited.length) name = .generic found parameters body := by
  induction fuel generalizing visited name with
  | zero => cases h
  | succ fuel ih =>
    rw [Context.chaseFor] at h
    cases hn : context.get? name with
    | none =>
      rw [hn] at h
      cases h
    | some n =>
      have hnew : name ∉ visited := fun hv => by
        have hcyclic : isCyclic context name = true := isCyclic_iff.2 ⟨name, .refl, hleads name hv⟩
        rw [hacyclic name] at hcyclic
        cases hcyclic
      have hnodup' : (name :: visited).Nodup := List.nodup_cons.2 ⟨hnew, hnodup⟩
      have hbound' : ∀ v ∈ name :: visited, context.has v := by
        intro v hv
        rcases List.mem_cons.1 hv with rfl | hv
        · simp [Fields.has, hn]
        · exact hbound v hv
      have hroom := length_le_of_bound hnodup' hbound'
      rw [List.length_cons] at hroom
      obtain ⟨rest, hrest⟩ : ∃ rest, context.length - visited.length = rest + 1 :=
        ⟨context.length - visited.length - 1, by omega⟩
      rw [hn] at h
      rw [hrest, Context.chaseFor, hn]
      dsimp only at h ⊢
      cases hk : n.kind with
      | ref next =>
        rw [hk] at h
        have hnext : Exposes context name next := exposes_of_ref hn hk
        have hleads' : ∀ v ∈ name :: visited, TransGen (Exposes context) v next := by
          intro v hv
          rcases List.mem_cons.1 hv with rfl | hv
          · exact .single hnext
          · exact .tail (hleads v hv) hnext
        have hchase := ih hnodup' hbound' hleads' h
        rwa [List.length_cons, show context.length - (visited.length + 1) = rest by omega] at hchase
      | _ =>
        rw [hk] at h
        exact h

theorem chase_of_chaseFor (hacyclic : ∀ name, isCyclic context name = false) {fuel : Nat}
    (h : context.chaseFor fuel name = .generic found parameters body) :
    chase context name = .generic found parameters body :=
  chaseFor_of_visited hacyclic List.nodup_nil (fun _ hv => by cases hv) (fun _ hv => by cases hv) h

/-- **A generic that a name leads to is found in a richer context too**, if no name of that one leads back. -/
theorem chase_mono (hwithin : ∀ name n, context.get? name = some n → wider.get? name = some n)
    (hacyclic : ∀ name, isCyclic wider name = false) (h : chase context name = .generic found parameters body) :
    chase wider name = .generic found parameters body :=
  chase_of_chaseFor hacyclic (chaseFor_mono hwithin (Nat.le_refl _) h)

end Schemata
