import Schemata.Proofs.Comparison.Covering
/-!
# Unions and intersections as bounds

What opens to a form on the left fits that form (`compareOver_of_opens_left`), so that a node is fit by another one that
opens to all forms that it opens to itself, through the members of intersections (`compareOver_of_covered`).

Main statement: `between_intersection_and_union`, on a list of nodes and a member of it.
-/
namespace Schemata

open Relation (ReflTransGen)

/-! ## Opening intersections -/

/-- **A node that comes to one form or several at once**, and never to a choice: to no dead end, no `never` and no union
but of one variant. -/
def Node.LeadsStraight (n : Node) : Prop :=
  ∀ c, n.Reaches Kind.members c →
    c.isDeadEnd = false ∧ c.node.isNever = false ∧ c.node.kind.isBranching = false

section
variable {s : Surroundings}

/-- **What opens to a form on the left fits that form.** -/
theorem compareOver_of_opens_left {n : Node} (hn : n.kind.isIndirect = false) (hnever : n.isNever = false)
    (hunion : ∀ ns, n.kind ≠ .union ns) (hintersect : ∀ ns, n.kind ≠ .intersect ns) {c d : Focus}
    (h : ReflTransGen (Focus.Opens Kind.members) c d) (hsame : Node.sameKind d.node.kind n.kind = true) (fuel : Nat)
    (hs : s.Sees c.scopes) (p q : Place) : compareOver fuel s ⟨c.node, p⟩ ⟨n, q⟩ = true := by
  have hbundle : ∀ ds r, n.kind ≠ .cyclic ds r := fun ds r h => by rw [h] at hn; cases hn
  induction h using ReflTransGen.head_induction_on generalizing fuel s p with
  | refl =>
    cases fuel with
    | zero => rfl
    | succ fuel => exact fitsStep_of_sameKind hsame
  | @head c e hstep _ ih =>
    cases fuel with
    | zero => rfl
    | succ fuel =>
      rw [compareOver]
      cases hstep with
      | bundle hk ht =>
        rw [fitsStep_of_bundle_left hk hbundle, ht]
        simp [ih fuel (hs.enter _ _), Placed.definition]
      | reference hk ht =>
        obtain ⟨place, hl⟩ := hs _ _ ht
        rw [fitsStep_of_reference_left hk hbundle, hl]
        simp [assuming_of_check fun assumed => ih (s := { s with assumed }) fuel hs place]
      | part hm =>
        rcases Kind.mem_members.1 hm with ⟨ns, hk, hm⟩ | hk
        · obtain ⟨v, hv, rfl⟩ := Placed.exists_mem_items ⟨c.node, p⟩ 0 hm
          have hany : ((Placed.items ⟨c.node, p⟩ 0 ns).any fun v => compareOver fuel s v ⟨n, q⟩) = true :=
            List.any_eq_true.2 ⟨v, hv, ih fuel hs v.place⟩
          rw [fitsStep_of_direct (by rw [hk]; rfl) hn, fitsSets_of_intersect_left hk hunion hintersect, hany, hnever]
          simp
        · rw [fitsStep_of_direct (by rw [hk]; rfl) hn, fitsSets_of_union_left hk, hnever]
          simp [Placed.items, Placed.item, ih fuel hs]

/-- **A node is fit by what opens to all forms that it opens to itself**, as long as it leads straight to them. -/
theorem compareOver_of_covered {left right : Node} (hleft : left.kind.isIndirect = false)
    (hunion : ∀ ns, left.kind ≠ .union ns) (hends : right.LeadsStraight)
    (hcovered : ∀ c, right.Reaches Kind.members c →
      ∃ d, left.Reaches Kind.members d ∧ Node.sameKind d.node.kind c.node.kind = true)
    (fuel : Nat) (s : Surroundings) (p q : Place) : compareOver fuel s ⟨left, p⟩ ⟨right, q⟩ = true := by
  suffices hall : ∀ c, right.Reaches Kind.members c → ∀ s q, s.Sees c.scopes →
      compareOver fuel s ⟨left, p⟩ ⟨c.node, q⟩ = true from hall _ .refl s q s.sees_nil
  induction fuel with
  | zero => exact fun _ _ _ _ _ => rfl
  | succ fuel ih =>
    intro c hc s q hs
    obtain ⟨hend, hnever, hbranching⟩ := hends c hc
    rw [compareOver]
    cases hk : c.node.kind with
    | cyclic definitions root =>
      obtain ⟨target, ht⟩ := Focus.exists_root hend hk
      rw [fitsStep_of_bundle_right hk, ht]
      simp [ih _ (hc.tail (.bundle hk ht)) _ _ (hs.enter _ _), Placed.definition]
    | ref name =>
      obtain ⟨target, ht⟩ := Focus.exists_definition hend hk
      obtain ⟨place, hl⟩ := hs _ _ ht
      rw [fitsStep_of_reference_right hk hleft, hl]
      simp [assuming_of_check fun assumed => ih _ (hc.tail (.reference hk ht)) { s with assumed } place hs]
    | union ns =>
      obtain ⟨v, rfl⟩ := Kind.exists_of_not_isBranching (hk ▸ hbranching)
      have hv := ih _ (hc.tail (.part (Kind.mem_members.2 (.inr hk)))) s (q.down (.item 0)) hs
      rw [fitsStep_of_direct hleft (by rw [hk]; rfl), fitsSets_of_union_right hk hunion, hnever]
      simp [Placed.items, Placed.item, hv]
    | intersect ns =>
      have hall : ((Placed.items ⟨c.node, q⟩ 0 ns).all fun m => compareOver fuel s ⟨left, p⟩ m) = true :=
        List.all_eq_true.2 fun m hm =>
          ih _ (hc.tail (.part (Kind.mem_members.2 (.inl ⟨ns, hk, Placed.mem_of_mem_items hm⟩)))) s m.place hs
      rw [fitsStep_of_direct hleft (by rw [hk]; rfl), fitsSets_of_intersect_right hk hunion, hall, hnever]
      simp
    | _ =>
      obtain ⟨d, hd, hsame⟩ := hcovered c hc
      exact compareOver_of_opens_left (by rw [hk]; rfl) hnever (by simp [hk]) (by simp [hk]) hd hsame (fuel + 1)
        s.sees_nil p q

end

/-! ## Members of a list -/

namespace Node

theorem mem_parts_of_mem_members (n m : Node) (hm : m ∈ n.kind.members) :
    m ∈ n.kind.parts ∧ n.kind.binds = [] ∧ ∀ name, n.kind ≠ .ref name := by
  rcases Kind.mem_members.1 hm with ⟨ns, hk, hm⟩ | hk
  · rw [hk]
    exact ⟨hm, rfl, by simp⟩
  · rw [hk]
    exact ⟨List.mem_cons_self, rfl, by simp⟩

theorem leadsStraight_of_closed {n : Node} (hloose : n.loose = []) (hroots : n.everywhere Kind.hasRoot = true)
    (hstraight : n.everywhere (fun kind => !kind.isBranching && !Node.isNever (.of kind)) = true) : n.LeadsStraight := by
  intro c hc
  have hall := Focus.Throughout.of_everywhere (fun n m hm => (mem_parts_of_mem_members n m hm).1) hstraight hc
  have hc' := (everywhere_iff.1 hall.1).1
  rw [Bool.and_eq_true, Bool.not_eq_true', Bool.not_eq_true'] at hc'
  exact ⟨Focus.isDeadEnd_of_closed mem_parts_of_mem_members hloose hroots hc, hc'.2, hc'.1⟩

/-- The definitions of a bundle that equals itself equal themselves. -/
theorem SameFields.get?_self {fields : Fields Node} (h : SameFields fields fields) {name : String} {n : Node}
    (hn : fields.get? name = some n) : sameAs n n = true := by
  obtain ⟨m, hm, hs⟩ := h.2 _ (Fields.mem_of_get? hn)
  rw [hn] at hm
  cases hm
  exact hs

/-- **All that a node opens to equals itself**, if the node does, for parts that come in lists. -/
theorem sameKind_self_of_opens {parts : Kind Node → List Node}
    (hparts : ∀ n : Node, ∀ m ∈ parts n.kind, ∃ ns, m ∈ ns ∧ (n.kind = .union ns ∨ n.kind = .intersect ns)) {n : Node}
    (hn : n.sameAs n = true) {c : Focus} (h : n.Reaches parts c) :
    sameKind c.node.kind c.node.kind = true := by
  refine (Focus.Throughout.of_opens (P := fun n => sameKind n.kind n.kind = true) ?_ ?_ ⟨sameKind_of_sameAs hn, by simp⟩ h).1
  · intro definitions root _ _ hs name m hm
    cases sameKind_iff.1 hs with
    | cyclic hs => exact sameKind_of_sameAs (hs.get?_self hm)
  · intro n hs m hm
    obtain ⟨ns, hm, hk | hk⟩ := hparts n m hm <;> rw [hk] at hs <;> cases sameKind_iff.1 hs
    all_goals exact sameKind_of_sameAs (List.forall₂_same.1 ‹_› m hm)

end Node

variable {members : List Node} {p : Node}

/-- **A member of a list fits the union of the list, and is fit by its intersection**, whatever the members are, if the
member equals itself, as every node without NaN does.  For the union it must not come to a dead end; for the intersection
neither to `never` nor to a choice between several variants. -/
theorem between_intersection_and_union (hp : p ∈ members) (hself : p.sameAs p = true) :
    (p.LeadsOn → Node.WithinDepth p (.union members) → p.fits (.union members) = true) ∧
      (p.LeadsStraight → Node.WithinDepth (.intersect members) p → (Node.intersect members).fits p = true) := by
  constructor
  · intro hends hdepth
    rw [← hdepth]
    refine compareOver_of_covers rfl rfl hends (fun c hc _ => ?_) _ _ _ _
    have hsame := Node.sameKind_self_of_opens (fun n m hm => ?_) hself hc
    · exact ⟨c, hc.head (.part hp), hsame⟩
    · obtain ⟨ns, hk, hm⟩ := Kind.mem_variants.1 hm
      exact ⟨ns, hm, .inl hk⟩
  · intro hends hdepth
    rw [← hdepth]
    refine compareOver_of_covered rfl (by simp [Node.intersect, Node.of]) hends (fun c hc => ?_) _ _ _ _
    have hsame := Node.sameKind_self_of_opens (fun n m hm => ?_) hself hc
    · exact ⟨c, hc.head (.part hp), hsame⟩
    · rcases Kind.mem_members.1 hm with ⟨ns, hk, hm⟩ | hk
      · exact ⟨ns, hm, .inr hk⟩
      · exact ⟨_, List.mem_singleton_self m, .inl hk⟩

/-- A member that is an intersection with a recursive bundle, among others. -/
theorem between_intersection_and_union_ring :
    let ring : Node := .cyclic [("A", .object [("next", .reference "A")]), ("B", .reference "A")] "B"
    let member : Node := .intersect [ring, .union [.object [("size", .natural 3)]]]
    let members : List Node := [.union [.string, .null], member, .never]
    (member ∈ members ∧ member.sameAs member = true ∧ member.LeadsOn ∧ member.LeadsStraight ∧
      Node.WithinDepth member (.union members) ∧ Node.WithinDepth (.intersect members) member) ∧
      member.fits (.union members) = true ∧ (Node.intersect members).fits member = true := by
  intro ring member members
  have hp : member ∈ members := List.mem_cons_of_mem _ List.mem_cons_self
  have hself : member.sameAs member = true := by decide +kernel
  have hloose : member.loose = [] := by decide +kernel
  have hroots : member.everywhere Kind.hasRoot = true := by decide +kernel
  have hstraight := Node.leadsStraight_of_closed hloose hroots (by decide +kernel)
  have hends := Node.leadsOn_of_closed hloose hroots
  have hupper : Node.WithinDepth member (.union members) := by decide +kernel
  have hlower : Node.WithinDepth (.intersect members) member := by decide +kernel
  exact ⟨⟨hp, hself, hends, hstraight, hupper, hlower⟩,
    (between_intersection_and_union hp hself).1 hends hupper, (between_intersection_and_union hp hself).2 hstraight hlower⟩

/-- **An intersection is not seen to fit a choice among its members**, nor `never`: a union on the right is taken apart
first, and each of its variants would have to be fit alone, and `never` on the right is refused before the members are
looked at. -/
theorem intersection_above_choice :
    let choice : Node := .union [.text "a", .text "b"]
    (choice.isConcrete = true ∧ Node.WithinDepth (.intersect [choice, .string]) choice) ∧
      (Node.intersect [choice, .string]).fits choice = false ∧ choice.fits choice = true ∧
      Node.WithinDepth (.intersect [.never, .string]) .never ∧ (Node.intersect [.never, .string]).fits .never = false := by
  decide +kernel

end Schemata
