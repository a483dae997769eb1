import Schemata.Proofs.Comparison.Opening
import Schemata.Proofs.Comparison.Soundness
import Schemata.Proofs.Node.Equivalence
import Schemata.Proofs.Node.Proper
/-!
# Opening one side of a comparison

- A comparison holds if it does once bundles, references and unions on the left are opened (`compareOver_of_forms`), or
  bundles and references on the right (`compareOver_of_roots`); what opens to a form on the right is fit by that form
  (`compareOver_of_opens_right`).
- So a node fits another one that covers it, that is, opens to all forms that it opens to itself (`Node.Covers`,
  `compareOver_of_covers`).
- Equal nodes open to equal forms (`Focus.Alike.reaches`).
-/
namespace Schemata

open Relation (ReflTransGen)

/-! ## Nodes that lead on -/

namespace Node

/-- **A node that comes to no dead end** before it is opened to forms other than unions. -/
def LeadsOn (n : Node) : Prop := ∀ c, n.Reaches Kind.variants c → c.isDeadEnd = false

theorem mem_parts_of_mem_variants (n m : Node) (hm : m ∈ n.kind.variants) :
    m ∈ n.kind.parts ∧ n.kind.binds = [] ∧ ∀ name, n.kind ≠ .ref name := by
  obtain ⟨ns, hk, hm⟩ := Kind.mem_variants.1 hm
  rw [hk]
  exact ⟨hm, rfl, by simp⟩

theorem leadsOn_of_closed {n : Node} (hloose : n.loose = []) (hroots : n.everywhere Kind.hasRoot = true) : n.LeadsOn :=
  fun _ hc => Focus.isDeadEnd_of_closed mem_parts_of_mem_variants hloose hroots hc

end Node

/-- The root of a bundle that is no dead end. -/
theorem Focus.exists_root {c : Focus} (h : c.isDeadEnd = false) {definitions : Fields Node} {root : String}
    (hk : c.node.kind = .cyclic definitions root) : ∃ target, definitions.get? root = some target := by
  rw [isDeadEnd, hk] at h
  exact Option.isSome_iff_exists.1 (Option.isNone_eq_false_iff.1 h)

/-- The definition of a reference that is no dead end. -/
theorem Focus.exists_definition {c : Focus} (h : c.isDeadEnd = false) {name : String} (hk : c.node.kind = .ref name) :
    ∃ target, c.lookup name = some target := by
  rw [isDeadEnd, hk] at h
  exact Option.isSome_iff_exists.1 (Option.isNone_eq_false_iff.1 h)

/-! ## Equal nodes -/

namespace Focus

variable {c c' d : Focus}

theorem Throughout.isProper_of_opens (hc : c.Throughout fun n => n.isProper = true)
    (h : ReflTransGen (Opens Kind.variants) c d) : d.Throughout fun n => n.isProper = true :=
  Throughout.of_opens
    (fun _ _ _ _ hb _ n hn => (Node.isProper_iff.1 hb).2.2 n (List.mem_map_of_mem (Fields.mem_of_get? hn)))
    (fun n hn m hm => (Node.isProper_iff.1 hn).2.2 m (Node.mem_parts_of_mem_variants n m hm).1) hc h

/-- **Nodes at hand of equal kinds**, among bundles that know equal nodes by the same names. -/
structure Alike (c c' : Focus) : Prop where
  left : c.Throughout fun n => n.isProper = true
  right : c'.Throughout fun n => n.isProper = true
  kinds : Node.sameKind c.node.kind c'.node.kind = true
  lookup : ∀ name, Option.Rel (fun n m => Node.sameKind n.kind m.kind = true) (c.lookup name) (c'.lookup name)

theorem Alike.of_sameKind {x y : Node} (hx : x.isProper = true) (hy : y.isProper = true)
    (h : Node.sameKind x.kind y.kind = true) : Alike ⟨[], x⟩ ⟨[], y⟩ :=
  ⟨⟨hx, by simp⟩, ⟨hy, by simp⟩, h, fun _ => .none⟩

/-- The definitions of equal bundles. -/
theorem Alike.definitions (h : c.Alike c') {definitions definitions' : Fields Node} {root root' : String}
    (hk : c.node.kind = .cyclic definitions root) (hk' : c'.node.kind = .cyclic definitions' root') (name : String) :
    Option.Rel (fun n m => Node.sameKind n.kind m.kind = true) (definitions.get? name) (definitions'.get? name) := by
  have hproper := (Node.isProper_iff.1 h.left.1).1
  have hproper' := (Node.isProper_iff.1 h.right.1).1
  have hsame := Node.sameKind_iff.1 h.kinds
  rw [hk] at hproper hsame
  rw [hk'] at hproper' hsame
  cases hsame with
  | cyclic hs =>
    have hname := hs.get?_rel (Kind.distinct_of_cyclic hproper) (Kind.distinct_of_cyclic hproper') name
    generalize Fields.get? definitions name = n, Fields.get? definitions' name = m at *
    cases hname with
    | none => exact .none
    | some hnm => exact .some (Node.sameKind_of_sameAs hnm)

/-- **One step into equal nodes.** -/
theorem Alike.opens (h : c.Alike c') (hd : Opens Kind.variants c d) : ∃ d', Opens Kind.variants c' d' ∧ d.Alike d' := by
  have hleft := h.left.isProper_of_opens (.single hd)
  have hright {d' : Focus} (hd' : Opens Kind.variants c' d') := h.right.isProper_of_opens (.single hd')
  have hsame := Node.sameKind_iff.1 h.kinds
  cases hd with
  | @bundle definitions root target hk ht =>
    rw [hk] at hsame
    generalize hk' : c'.node.kind = k' at hsame
    cases hsame with
    | @cyclic _ definitions' =>
      have hdefinitions := h.definitions hk hk'
      have hroot := hdefinitions root
      rw [ht] at hroot
      generalize ht' : Fields.get? definitions' root = found at hroot
      cases hroot with
      | some htarget =>
        have hstep : Opens Kind.variants c' _ := .bundle hk' ht'
        refine ⟨_, hstep, hleft, hright hstep, htarget, fun name => ?_⟩
        have hname := hdefinitions name
        have houter := h.lookup name
        simp only [Focus.lookup, List.findSome?_cons] at houter ⊢
        generalize definitions.get? name = n, definitions'.get? name = m at *
        cases hname with
        | none => exact houter
        | some hnm => exact .some hnm
  | @reference name target hk ht =>
    rw [hk] at hsame
    generalize hk' : c'.node.kind = k' at hsame
    cases hsame with
    | ref =>
      have hname := h.lookup name
      rw [ht] at hname
      generalize ht' : c'.lookup name = found at hname
      cases hname with
      | some htarget =>
        have hstep : Opens Kind.variants c' _ := .reference hk' ht'
        exact ⟨_, hstep, hleft, hright hstep, htarget, h.lookup⟩
  | @part n hn =>
    obtain ⟨ns, hk, hn⟩ := Kind.mem_variants.1 hn
    rw [hk] at hsame
    generalize hk' : c'.node.kind = k' at hsame
    cases hsame with
    | @union _ ns' hs =>
      obtain ⟨m, hm, hnm⟩ := exists_of_mem_left hs hn
      have hstep : Opens Kind.variants c' ⟨c'.scopes, m⟩ := .part (Kind.mem_variants.2 ⟨ns', hk', hm⟩)
      exact ⟨_, hstep, hleft, hright hstep, Node.sameKind_of_sameAs hnm, h.lookup⟩

/-- **Equal nodes open to equal nodes.** -/
theorem Alike.reaches (h : c.Alike c') (hd : ReflTransGen (Opens Kind.variants) c d) :
    ∃ d', ReflTransGen (Opens Kind.variants) c' d' ∧ d.Alike d' := by
  induction hd with
  | refl => exact ⟨c', .refl, h⟩
  | tail _ hstep ih =>
    obtain ⟨d', hd', hlike⟩ := ih
    obtain ⟨e', hstep', hlike'⟩ := hlike.opens hstep
    exact ⟨e', hd'.tail hstep', hlike'⟩

theorem Alike.isDeadEnd_eq (h : c.Alike c') : c.isDeadEnd = c'.isDeadEnd := by
  have hdefinitions := @h.definitions
  have hlookup := h.lookup
  have hsame := Node.sameKind_iff.1 h.kinds
  have hnone {n m : Option Node} (h : Option.Rel (fun n m => Node.sameKind n.kind m.kind = true) n m) :
      n.isNone = m.isNone := by cases h <;> rfl
  unfold isDeadEnd
  generalize c.node.kind = k, c'.node.kind = k' at *
  cases hsame with
  | cyclic _ root => exact hnone (hdefinitions rfl rfl root)
  | ref name => exact hnone (hlookup name)
  | _ => rfl

end Focus

theorem Kind.isForm_eq_of_sameKind {k k' : Kind Node} (h : Node.sameKind k k' = true) : k.isForm = k'.isForm := by
  cases Node.sameKind_iff.1 h <;> rfl

theorem Node.LeadsOn.of_sameKind {x y : Node} (h : y.LeadsOn) (hx : x.isProper = true) (hy : y.isProper = true)
    (hsame : Node.sameKind x.kind y.kind = true) : x.LeadsOn := by
  intro c hc
  obtain ⟨d, hd, hlike⟩ := (Focus.Alike.of_sameKind hx hy hsame).reaches hc
  rw [hlike.isDeadEnd_eq, h d hd]

/-! ## Comparisons of what is opened -/

section
variable {check : Comparison} {s : Surroundings} {left right : Placed}

/-- A target that fits makes the reference fit, whether or not the pair is taken to hold already. -/
theorem assuming_of_check {target target' : Placed} (h : ∀ assumed, check { s with assumed } target target' = true) :
    assuming check s left right target target' = true := by
  rw [assuming, h, Bool.or_true]

/-- Whether anything fits a node. -/
def Node.isTop (n : Node) : Bool := n.isPrimitive .any || n.isPrimitive .unknown

theorem fitsStep_of_isTop (h : right.node.isTop = true) : fitsStep check s left right = true := by
  rw [Node.isTop] at h
  rw [fitsStep, Bool.or_assoc (Node.sameKind _ _), h, Bool.or_true]
  rfl

theorem sameKind_eq_false_of_isIndirect {k k' : Kind Node} (h : k.isIndirect ≠ k'.isIndirect) :
    Node.sameKind k k' = false := by
  cases hs : Node.sameKind k k'
  · rfl
  · exact absurd (by cases Node.sameKind_iff.1 hs <;> rfl) h

section
variable {definitions : Fields Node} {root name : String} {target : Node} {found : Placed}

/-- A bundle on the right stands for its root. -/
theorem fitsStep_of_root_right (hk : right.node.kind = .cyclic definitions root) (ht : definitions.get? root = some target)
    (hleft : left.node.kind.isIndirect = false) (hnever : left.node.isNever = false) :
    fitsStep check s left right =
      check { s with scopes := right.definitions definitions :: s.scopes } left (right.definition root target) := by
  rw [fitsStep_of_bundle_right hk, ht, hnever, sameKind_eq_false_of_isIndirect (by rw [hleft, hk]; exact Bool.noConfusion)]
  rfl

/-- A reference on the right stands for its definition. -/
theorem fitsStep_of_definition_right (hk : right.node.kind = .ref name) (hl : s.lookup name = some found)
    (hleft : left.node.kind.isIndirect = false) (hnever : left.node.isNever = false) :
    fitsStep check s left right = assuming check s left right left found := by
  rw [fitsStep_of_reference_right hk hleft, hl, hnever]
  rfl

/-- A bundle on the left stands for its root. -/
theorem fitsStep_of_root_left (hk : left.node.kind = .cyclic definitions root) (ht : definitions.get? root = some target)
    (hright : right.node.kind.isIndirect = false) (htop : right.node.isTop = false) :
    fitsStep check s left right =
      check { s with scopes := left.definitions definitions :: s.scopes } (left.definition root target) right := by
  have hbundle : ∀ ds r, right.node.kind ≠ .cyclic ds r := fun ds r h => by rw [h] at hright; cases hright
  rw [fitsStep_of_bundle_left hk hbundle, ht, Bool.or_assoc (Node.sameKind _ _), ← Node.isTop, htop,
    sameKind_eq_false_of_isIndirect (by rw [hright, hk]; exact Bool.noConfusion)]
  rfl

/-- A reference on the left stands for its definition. -/
theorem fitsStep_of_definition_left (hk : left.node.kind = .ref name) (hl : s.lookup name = some found)
    (hright : right.node.kind.isIndirect = false) (htop : right.node.isTop = false) :
    fitsStep check s left right = assuming check s left right found right := by
  have hbundle : ∀ ds r, right.node.kind ≠ .cyclic ds r := fun ds r h => by rw [h] at hright; cases hright
  rw [fitsStep_of_reference_left hk hbundle, hl, Bool.or_assoc (Node.sameKind _ _), ← Node.isTop, htop,
    sameKind_eq_false_of_isIndirect (by rw [hright, hk]; exact Bool.noConfusion)]
  rfl

end

/-- **What fits all that the left side opens to fits the left side.** -/
theorem compareOver_of_forms {left right : Node} (hright : right.kind.isIndirect = false) (hnever : right.isNever = false)
    (hends : left.LeadsOn) {q : Place}
    (hforms : ∀ c, left.Reaches Kind.variants c → c.node.kind.isForm = true → ∀ fuel s p,
      compareOver fuel s ⟨c.node, p⟩ ⟨right, q⟩ = true)
    (fuel : Nat) (s : Surroundings) (p : Place) : compareOver fuel s ⟨left, p⟩ ⟨right, q⟩ = true := by
  suffices hall : ∀ c, left.Reaches Kind.variants c → ∀ s p, s.Sees c.scopes →
      compareOver fuel s ⟨c.node, p⟩ ⟨right, q⟩ = true from hall _ .refl s p s.sees_nil
  induction fuel with
  | zero => exact fun _ _ _ _ _ => rfl
  | succ fuel ih =>
    intro c hc s p hs
    have hbundle : ∀ ds r, right.kind ≠ .cyclic ds r := fun ds r h => by rw [h] at hright; cases hright
    by_cases hform : c.node.kind.isForm = true
    · exact hforms c hc hform (fuel + 1) s p
    · rw [compareOver]
      cases hk : c.node.kind with
      | cyclic definitions root =>
        obtain ⟨target, ht⟩ := Focus.exists_root (hends c hc) hk
        rw [fitsStep_of_bundle_left hk hbundle, ht]
        simp [ih _ (hc.tail (.bundle hk ht)) _ _ (hs.enter _ _), Placed.definition]
      | ref name =>
        obtain ⟨target, ht⟩ := Focus.exists_definition (hends c hc) hk
        obtain ⟨place, hl⟩ := hs _ _ ht
        rw [fitsStep_of_reference_left hk hbundle, hl]
        simp [assuming_of_check fun assumed => ih _ (hc.tail (.reference hk ht)) { s with assumed } place hs]
      | union ns =>
        have hall : ((Placed.items ⟨c.node, p⟩ 0 ns).all fun v => compareOver fuel s v ⟨right, q⟩) = true :=
          List.all_eq_true.2 fun v hv =>
            ih _ (hc.tail (.part (Kind.mem_variants.2 ⟨ns, hk, Placed.mem_of_mem_items hv⟩))) s v.place hs
        rw [fitsStep_of_direct (by rw [hk]; rfl) hright, fitsSets_of_union_left hk, hall, hnever]
        simp
      | primitive primitive =>
        cases primitive with
        | never => exact fitsStep_of_never hk
        | _ => exact absurd (by rw [hk]; rfl) hform
      | _ => exact absurd (by rw [hk]; rfl) hform

/-- **What is fit by the root of the right side fits it.** -/
theorem compareOver_of_roots {left right : Node} (hleft : left.kind.isIndirect = false) (hends : right.LeadsOn)
    {p : Place}
    (hroots : ∀ c, right.Reaches Kind.unopened c → c.node.kind.isIndirect = false → ∀ fuel s q,
      compareOver fuel s ⟨left, p⟩ ⟨c.node, q⟩ = true)
    (fuel : Nat) (s : Surroundings) (q : Place) : compareOver fuel s ⟨left, p⟩ ⟨right, q⟩ = true := by
  suffices hall : ∀ c, right.Reaches Kind.unopened c → ∀ s q, s.Sees c.scopes →
      compareOver fuel s ⟨left, p⟩ ⟨c.node, q⟩ = true from hall _ .refl s q s.sees_nil
  induction fuel with
  | zero => exact fun _ _ _ _ _ => rfl
  | succ fuel ih =>
    intro c hc s q hs
    have hend := hends c (hc.mono fun _ => List.nil_subset _)
    cases hk : c.node.kind with
    | cyclic definitions root =>
      obtain ⟨target, ht⟩ := Focus.exists_root hend hk
      rw [compareOver, fitsStep_of_bundle_right hk, ht]
      simp [ih _ (hc.tail (.bundle hk ht)) _ _ (hs.enter _ _), Placed.definition]
    | ref name =>
      obtain ⟨target, ht⟩ := Focus.exists_definition hend hk
      obtain ⟨place, hl⟩ := hs _ _ ht
      rw [compareOver, fitsStep_of_reference_right hk hleft, hl]
      simp [assuming_of_check fun assumed => ih _ (hc.tail (.reference hk ht)) { s with assumed } place hs]
    | _ => exact hroots c hc (by rw [hk]; rfl) (fuel + 1) s q

/-- **What opens to a form on the right is fit by that form.** -/
theorem compareOver_of_opens_right {n : Node} (hn : n.kind.isIndirect = false) (hunion : ∀ ns, n.kind ≠ .union ns)
    {c d : Focus} (h : ReflTransGen (Focus.Opens Kind.variants) c d)
    (hsame : Node.sameKind n.kind d.node.kind = true) (fuel : Nat) (hs : s.Sees c.scopes) (p q : Place) :
    compareOver fuel s ⟨n, p⟩ ⟨c.node, q⟩ = true := by
  induction h using ReflTransGen.head_induction_on generalizing fuel s q with
  | refl =>
    cases fuel with
    | zero => rfl
    | succ fuel => exact fitsStep_of_sameKind hsame
  | @head c e hstep _ ih =>
    cases fuel with
    | zero => rfl
    | succ fuel =>
      rw [compareOver]
      cases hstep with
      | bundle hk ht =>
        rw [fitsStep_of_bundle_right hk, ht]
        simp [ih fuel (hs.enter _ _), Placed.definition]
      | reference hk ht =>
        obtain ⟨place, hl⟩ := hs _ _ ht
        rw [fitsStep_of_reference_right hk hn, hl]
        simp [assuming_of_check fun assumed => ih (s := { s with assumed }) fuel hs place]
      | part hm =>
        obtain ⟨ns, hk, hm⟩ := Kind.mem_variants.1 hm
        obtain ⟨v, hv, rfl⟩ := Placed.exists_mem_items ⟨c.node, q⟩ 0 hm
        have hany : ((Placed.items ⟨c.node, q⟩ 0 ns).any fun v => compareOver fuel s ⟨n, p⟩ v) = true :=
          List.any_eq_true.2 ⟨v, hv, ih fuel hs v.place⟩
        rw [fitsStep_of_direct hn (by rw [hk]; rfl), fitsSets_of_union_right hk hunion, hany]
        simp [Node.isNever, Node.isPrimitive, Node.primitive?, hk]

/-- What leads on is fit by `any`, whatever it comes to. -/
theorem compareOver_of_any {left right : Node} (hany : left.isPrimitive .any = true) (hends : right.LeadsOn) (fuel : Nat)
    (s : Surroundings) (p q : Place) : compareOver fuel s ⟨left, p⟩ ⟨right, q⟩ = true := by
  have hleft : left.kind.isIndirect = false := by rw [Node.isPrimitive_iff.1 hany]; rfl
  refine compareOver_of_roots hleft hends (fun c _ hk fuel s q => ?_) fuel s q
  cases fuel with
  | zero => rfl
  | succ fuel =>
    rw [compareOver, fitsStep_of_direct hleft hk, hany]
    simp

end

/-! ## Nodes that cover others -/

/-- **A node that opens to all forms that another one opens to.** -/
def Node.Covers (m n : Node) : Prop :=
  ∀ c, n.Reaches Kind.variants c → c.node.kind.isForm = true → ∃ d, m.Reaches Kind.variants d ∧
    Node.sameKind c.node.kind d.node.kind = true

namespace Node

variable {x y : Node}

/-- What covers a node covers equal nodes. -/
theorem Covers.of_sameKind {m : Node} (h : m.Covers y) (hx : x.isProper = true) (hy : y.isProper = true)
    (hsame : sameKind x.kind y.kind = true) : m.Covers x := by
  intro c hc hform
  obtain ⟨d, hd, hlike⟩ := (Focus.Alike.of_sameKind hx hy hsame).reaches hc
  obtain ⟨e, he, hde⟩ := h d hd (by rw [← Kind.isForm_eq_of_sameKind hlike.kinds, hform])
  exact ⟨e, he, sameKind_trans hlike.kinds hde⟩

/-- A node covers those that it equals. -/
theorem covers_of_sameKind (hx : x.isProper = true) (hy : y.isProper = true) (hsame : sameKind x.kind y.kind = true) :
    y.Covers x := by
  intro c hc _
  obtain ⟨d, hd, hlike⟩ := (Focus.Alike.of_sameKind hx hy hsame).reaches hc
  exact ⟨d, hd, hlike.kinds⟩

end Node

/-- **A node fits what covers it**, as long as it does not come to a dead end. -/
theorem compareOver_of_covers {left right : Node} (hright : right.kind.isIndirect = false)
    (hnever : right.isNever = false) (hends : left.LeadsOn) (hcovers : right.Covers left) (fuel : Nat) (s : Surroundings)
    (p q : Place) : compareOver fuel s ⟨left, p⟩ ⟨right, q⟩ = true := by
  refine compareOver_of_forms hright hnever hends (fun c hc hform fuel s p => ?_) fuel s p
  obtain ⟨d, hd, hsame⟩ := hcovers c hc hform
  exact compareOver_of_opens_right (Kind.isIndirect_of_isForm hform) (Kind.ne_union_of_isForm hform) hd hsame fuel
    s.sees_nil p q

end Schemata
