import Schemata.Operator.Properties
import Schemata.Proofs.Node.Equality
import Schemata.Proofs.Node.Proper
/-!
# Intersections of objects

`Node.objects` lists the objects that an intersection consists of, in order.  Where objects that have a property in common
hold equal types for it, evaluating the intersection keeps the first of them (`get?_of_collapse`).
-/
namespace Schemata

open List (Forall₂)

/-! ## The objects of an intersection -/

namespace Node

mutual
/-- **The property lists of an object**, or of an intersection of objects one after the other; the intersection of nothing
is an object without properties. -/
def objects : Node → Option (List (Fields Node))
  | ⟨.object properties, _, _⟩ => some [properties]
  | ⟨.intersect [], _, _⟩ => some [[]]
  | ⟨.intersect (m :: ms), _, _⟩ => return (← objects m) ++ (← objectsAll ms)
  | _ => none

def objectsAll : List Node → Option (List (Fields Node))
  | [] => some []
  | n :: ns => return (← objects n) ++ (← objectsAll ns)
end

theorem objectsAll_cons {n : Node} {ns : List Node} {parts : List (Fields Node)} (h : objectsAll (n :: ns) = some parts) :
    ∃ first more, objects n = some first ∧ objectsAll ns = some more ∧ parts = first ++ more := by
  simp only [objectsAll, Option.bind_eq_bind, Option.bind_eq_some_iff, Option.pure_def, Option.some.injEq] at h
  obtain ⟨first, hfirst, more, hmore, rfl⟩ := h
  exact ⟨first, more, hfirst, hmore, rfl⟩

/-- **What has objects** is an object itself, an intersection of nothing, or one of members that have objects. -/
theorem objects_cases {n : Node} {parts : List (Fields Node)} (h : n.objects = some parts) :
    (∃ properties, n.kind = .object properties ∧ parts = [properties]) ∨
      (n.kind = .intersect [] ∧ parts = [[]]) ∨
      ∃ ns, n.kind = .intersect ns ∧ ns ≠ [] ∧ objectsAll ns = some parts := by
  obtain ⟨kind, modifiers, annotations⟩ := n
  cases kind with
  | object properties =>
    rw [objects] at h
    cases h
    exact .inl ⟨properties, rfl, rfl⟩
  | intersect ns =>
    cases ns with
    | nil =>
      rw [objects] at h
      cases h
      exact .inr (.inl ⟨rfl, rfl⟩)
    | cons m ms => exact .inr (.inr ⟨_, rfl, List.cons_ne_nil _ _, by rw [objectsAll, ← h, objects]⟩)
  | _ =>
    rw [objects] at h
    · cases h
    all_goals simp

/-- Each member of an intersection of objects has objects, which are among those of the intersection. -/
theorem exists_objects_of_mem {ns : List Node} {parts : List (Fields Node)} (h : objectsAll ns = some parts) {m : Node}
    (hm : m ∈ ns) : ∃ more, m.objects = some more ∧ more ⊆ parts := by
  induction ns generalizing parts with
  | nil => cases hm
  | cons n ns ih =>
    obtain ⟨first, more, hfirst, hmore, rfl⟩ := objectsAll_cons h
    rcases List.mem_cons.1 hm with rfl | hm
    · exact ⟨first, hfirst, List.subset_append_left _ _⟩
    · obtain ⟨others, hothers, hsub⟩ := ih hmore hm
      exact ⟨others, hothers, fun _ ho => List.mem_append_right _ (hsub ho)⟩

/-- Each object of an intersection is one of a member. -/
theorem exists_mem_of_objectsAll {ns : List Node} {parts : List (Fields Node)} (h : objectsAll ns = some parts)
    {part : Fields Node} (hpart : part ∈ parts) : ∃ m ∈ ns, ∃ more, m.objects = some more ∧ part ∈ more := by
  induction ns generalizing parts with
  | nil =>
    cases h
    cases hpart
  | cons n ns ih =>
    obtain ⟨first, more, hfirst, hmore, rfl⟩ := objectsAll_cons h
    rcases List.mem_append.1 hpart with hpart | hpart
    · exact ⟨n, List.mem_cons_self, first, hfirst, hpart⟩
    · obtain ⟨m, hm, hobjects⟩ := ih hmore hpart
      exact ⟨m, List.mem_cons_of_mem _ hm, hobjects⟩

/-- The types that the objects hold are proper, if the intersection is. -/
theorem isProper_of_objects {n : Node} (hn : n.isProper = true) {parts : List (Fields Node)}
    (h : n.objects = some parts) {part : Fields Node} (hpart : part ∈ parts) {name : String} {x : Node}
    (hx : part.get? name = some x) : x.isProper = true := by
  induction n using induction_on_parts generalizing parts with
  | node n ih =>
    obtain ⟨-, -, hproper⟩ := isProper_iff.1 hn
    rcases objects_cases h with ⟨properties, hk, rfl⟩ | ⟨-, rfl⟩ | ⟨ns, hk, -, hall⟩
    · cases List.mem_singleton.1 hpart
      exact hproper x (by rw [hk]; exact List.mem_map_of_mem (Fields.mem_of_get? hx))
    · cases List.mem_singleton.1 hpart
      cases hx
    · obtain ⟨m, hm, more, hmore, hpart⟩ := exists_mem_of_objectsAll hall hpart
      have hm : m ∈ n.kind.parts := by rwa [hk]
      exact ih m hm (hproper m hm) hmore hpart

theorem objects_ne_nil {n : Node} {parts : List (Fields Node)} (h : n.objects = some parts) : parts ≠ [] := by
  induction n using induction_on_parts generalizing parts with
  | node n ih =>
    rcases objects_cases h with ⟨_, -, rfl⟩ | ⟨-, rfl⟩ | ⟨ns, hk, hne, hall⟩
    · simp
    · simp
    · obtain ⟨m, hm⟩ := List.exists_mem_of_ne_nil ns hne
      obtain ⟨more, hmore, hsub⟩ := exists_objects_of_mem hall hm
      obtain ⟨part, hpart⟩ := List.exists_mem_of_ne_nil more (ih m (by rwa [hk]) hmore)
      exact List.ne_nil_of_mem (hsub hpart)

end Node

/-! ## The first of several -/

/-- What the first of some objects that has a property holds for it. -/
def firstOf (parts : List (Fields Node)) (name : String) : Option Node := parts.findSome? fun part => part.get? name

@[simp] theorem firstOf_nil (name : String) : firstOf [] name = none := rfl

theorem firstOf_cons (part : Fields Node) (parts : List (Fields Node)) (name : String) :
    firstOf (part :: parts) name = (part.get? name).or (firstOf parts name) := by
  rw [firstOf, List.findSome?_cons, ← firstOf]
  cases part.get? name <;> rfl

@[simp] theorem firstOf_singleton (part : Fields Node) : firstOf [part] = part.get? := by
  funext name
  rw [firstOf_cons, firstOf_nil, Option.or_none]

theorem firstOf_append (parts more : List (Fields Node)) (name : String) :
    firstOf (parts ++ more) name = (firstOf parts name).or (firstOf more name) := by
  rw [firstOf, List.findSome?_append]
  rfl

/-- **Objects that hold equal types for a property**, those that have it. -/
def AgreeOn (R : Node → Node → Prop) (name : String) (parts : List (Fields Node)) : Prop :=
  parts.Pairwise fun part other => ∀ x y, part.get? name = some x → other.get? name = some y → R x y

/-- What one of some objects holds for a property agrees with what the first holds, or is the same. -/
theorem AgreeOn.exists_first {R : Node → Node → Prop} {name : String} {parts : List (Fields Node)} (h : AgreeOn R name parts)
    {part : Fields Node} (hpart : part ∈ parts) {y : Node} (hy : part.get? name = some y) :
    ∃ x, firstOf parts name = some x ∧ (x = y ∨ R x y) := by
  induction parts with
  | nil => cases hpart
  | cons other parts ih =>
    obtain ⟨hother, h⟩ := List.pairwise_cons.1 h
    rw [firstOf_cons]
    cases hx : other.get? name with
    | some x =>
      rcases List.mem_cons.1 hpart with rfl | hpart
      · exact ⟨x, rfl, .inl (Option.some.inj (hx.symm.trans hy))⟩
      · exact ⟨x, rfl, .inr (hother part hpart x y hx hy)⟩
    | none =>
      rcases List.mem_cons.1 hpart with rfl | hpart
      · rw [hx] at hy
        cases hy
      · exact ih h hpart

theorem AgreeOn.imp {R S : Node → Node → Prop} (hRS : ∀ x y, R x y → S x y) {name : String} {parts : List (Fields Node)}
    (h : AgreeOn R name parts) : AgreeOn S name parts :=
  List.Pairwise.imp (fun hpair x y hx hy => hRS x y (hpair x y hx hy)) h

/-! ## Evaluation -/

theorem distinct_mergeProperties {merged : Fields Node} (h : merged.Distinct) (more : Fields Node) :
    (mergeProperties merged more).Distinct := by
  induction more generalizing merged with
  | nil => exact h
  | cons e more ih =>
    refine ih ?_
    dsimp only
    split <;> exact Fields.distinct_insert h _ _

/-- One more property leaves all others as they are, and itself where an equal one is held. -/
theorem get?_mergeProperties_singleton {merged : Fields Node} {name : String} {e : String × Node}
    (hsame : e.1 = name → ∀ x, merged.get? name = some x → (x == e.2) = true) :
    (mergeProperties merged [e]).get? name = (merged.get? name).or (Fields.get? [e] name) := by
  obtain ⟨wanted, y⟩ := e
  simp only [mergeProperties, List.foldl_cons, List.foldl_nil, Fields.get?_cons, Fields.get?_nil]
  by_cases hw : wanted = name
  · subst hw
    cases hx : merged.get? wanted with
    | none => simp [Fields.get?_insert]
    | some x => simp [Fields.get?_insert, intersectProperty, hsame rfl x hx]
  · split <;> simp [Fields.get?_insert, hw]

/-- **A property that both lists hold equally** is merged to the one of the first list. -/
theorem get?_mergeProperties {name : String} {merged more : Fields Node} (hd : more.Distinct)
    (hsame : ∀ x y, merged.get? name = some x → more.get? name = some y → (x == y) = true) :
    (mergeProperties merged more).get? name = (merged.get? name).or (more.get? name) := by
  induction more generalizing merged with
  | nil => simp [mergeProperties]
  | cons e more ih =>
    obtain ⟨hnew, hd⟩ := List.nodup_cons.1 hd
    have hcons : mergeProperties merged (e :: more) = mergeProperties (mergeProperties merged [e]) more := rfl
    rw [Fields.get?_cons] at hsame ⊢
    have hfirst : (mergeProperties merged [e]).get? name = (merged.get? name).or (Fields.get? [e] name) :=
      get?_mergeProperties_singleton fun he x hx => hsame x e.2 hx (if_pos he)
    by_cases he : e.1 = name
    · subst he
      have hnone : Fields.get? more e.1 = none := by
        cases hm : Fields.get? more e.1 with
        | none => rfl
        | some z => exact absurd (List.mem_map_of_mem (Fields.mem_of_get? hm)) hnew
      have hrest := @ih (mergeProperties merged [e]) hd fun _ _ _ hz => by rw [hnone] at hz; cases hz
      rw [hcons, hrest, hfirst, hnone, Option.or_none, Fields.get?_cons, if_pos rfl, if_pos rfl]
    · rw [if_neg he] at hsame ⊢
      rw [Fields.get?_cons, if_neg he, Fields.get?_nil, Option.or_none] at hfirst
      rw [hcons, ih hd (by rwa [hfirst]), hfirst]

theorem get?_of_collapseAll {ns : List Node}
    (ih : ∀ n ∈ ns, ∀ parts, n.objects = some parts → ∃ properties : Fields Node, collapse n = .properties properties ∧
      properties.Distinct ∧ ∀ name, AgreeOn (fun x y => (x == y) = true) name parts →
        properties.get? name = firstOf parts name)
    {merged : Fields Node} (hmerged : merged.Distinct) {parts : List (Fields Node)} (h : Node.objectsAll ns = some parts) :
    ∃ properties : Fields Node, collapseAll merged ns = .properties properties ∧ properties.Distinct ∧
      ∀ name, AgreeOn (fun x y => (x == y) = true) name (merged :: parts) →
        properties.get? name = firstOf (merged :: parts) name := by
  induction ns generalizing merged parts with
  | nil =>
    cases h
    exact ⟨merged, rfl, hmerged, fun name _ => by simp [firstOf_cons]⟩
  | cons n ns ihs =>
    rw [List.forall_mem_cons] at ih
    obtain ⟨first, more, hfirst, hmore, rfl⟩ := Node.objectsAll_cons h
    obtain ⟨properties, hcollapse, hdistinct, hget⟩ := ih.1 first hfirst
    obtain ⟨result, hresult, hd, hgetResult⟩ := ihs ih.2 (distinct_mergeProperties hmerged properties) hmore
    refine ⟨result, by rw [collapseAll, hcollapse]; exact hresult, hd, fun name hagree => ?_⟩
    obtain ⟨hhead, hrest⟩ := List.pairwise_cons.1 hagree
    obtain ⟨hin, hout, hbetween⟩ := List.pairwise_append.1 hrest
    have hproperties := hget name hin
    -- What the new list holds comes from one of the first objects, which agrees with all others.
    have hfound {x : Node} (hx : firstOf first name = some x) : ∃ part ∈ first, part.get? name = some x :=
      List.exists_of_findSome?_eq_some hx
    have hstep : (mergeProperties merged properties).get? name = (merged.get? name).or (firstOf first name) := by
      rw [get?_mergeProperties hdistinct, hproperties]
      intro x y hx hy
      rw [hproperties] at hy
      obtain ⟨part, hpart, hy⟩ := hfound hy
      exact hhead part (List.mem_append_left _ hpart) x y hx hy
    rw [hgetResult name, firstOf_cons, firstOf_cons, firstOf_append, hstep, Option.or_assoc]
    refine List.pairwise_cons.2 ⟨fun part hpart x y hx hy => ?_, hout⟩
    rw [hstep] at hx
    cases hm : merged.get? name with
    | some z =>
      rw [hm] at hx
      cases hx
      exact hhead part (List.mem_append_right _ hpart) x y hm hy
    | none =>
      rw [hm] at hx
      obtain ⟨other, hother, hx⟩ := hfound hx
      exact hbetween other hother part hpart x y hx hy

/-- **Evaluation keeps what the objects agree on.** -/
theorem get?_of_collapse {n : Node} (hn : n.isProper = true) {parts : List (Fields Node)} (h : n.objects = some parts) :
    ∃ properties : Fields Node, collapse n = .properties properties ∧ properties.Distinct ∧
      ∀ name, AgreeOn (fun x y => (x == y) = true) name parts → properties.get? name = firstOf parts name := by
  induction n using Node.induction_on_parts generalizing parts with
  | node n ih =>
    obtain ⟨hk, -, hparts⟩ := Node.isProper_iff.1 hn
    obtain ⟨kind, modifiers, annotations⟩ := n
    rcases Node.objects_cases h with ⟨properties, rfl, rfl⟩ | ⟨rfl, rfl⟩ | ⟨ns, rfl, -, hall⟩
    · exact ⟨properties, by rw [collapse], Kind.distinct_of_object hk, fun name _ => by rw [firstOf_singleton]⟩
    · exact ⟨[], by rw [collapse, collapseAll], List.nodup_nil, fun _ _ => rfl⟩
    · have hnil : Fields.Distinct ([] : Fields Node) := List.nodup_nil
      obtain ⟨properties, hcollapse, hd, hget⟩ :=
        get?_of_collapseAll (fun n hn _ hobjects => ih n hn (hparts n hn) hobjects) hnil hall
      refine ⟨properties, by rw [collapse]; exact hcollapse, hd, fun name hagree => ?_⟩
      rw [hget name (List.pairwise_cons.2 ⟨fun _ _ x _ hx _ => (by cases hx), hagree⟩), firstOf_cons]
      rfl

end Schemata
