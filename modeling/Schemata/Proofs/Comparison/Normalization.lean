import Schemata.Proofs.Comparison.Leaves
/-!
# Comparison of unions in normal form

A union may be taken for its normal form where a comparison comes to it directly.  What else it opens on its way tells the
two apart: the other side stands beside a bundle or a reference for a while, and is refused early if it is `never`.

- `compareOver_of_leavesAmong_left`, `compareOver_of_leavesAmong_right`: one union is exchanged for another with the same
  leaves, once the other side is opened.
- `compareOver_left`, `compareOver_right`: so it is before the other side is opened.

Main statement: `fits_unionOf`.
-/
namespace Schemata

open Relation (ReflTransGen)

variable {s : Surroundings} {l r m m' n : Node}

/-! ## The way into the other side -/

/-- **A comparison on its way into the side that faces `m`**, which stands whole on `side`: a single leaf is not compared
with any reference. -/
structure Facing (side : Side) (m : Node) (s : Surroundings) (c : Focus) (place : Place) : Prop where
  sees : s.Sees c.scopes
  beside : s.Beside side
  free : m.isLeaf = true → s.assumed = []
  proper : c.node.isProper = true
  place : place.side ≠ side

namespace Facing

variable {side : Side} {c : Focus} {place : Place}

theorem start (hn : n.isProper = true) (hplace : place.side ≠ side) : Facing side m {} ⟨[], n⟩ place :=
  ⟨Surroundings.sees_nil _, Surroundings.beside_empty _, fun _ => rfl, hn, hplace⟩

theorem bundle (h : Facing side m s c place) {definitions : Fields Node} {root : String} {target : Node}
    (hk : c.node.kind = .cyclic definitions root) (ht : definitions.get? root = some target) :
    Facing side m { s with scopes := (Placed.mk c.node place).definitions definitions :: s.scopes }
      ⟨definitions :: c.scopes, target⟩ (place.down (.definition root)) := by
  have hparts := (Node.isProper_iff.1 h.proper).2.2
  rw [hk] at hparts
  exact ⟨h.sees.enter _ _, h.beside.enter h.place hparts, h.free,
    hparts target (List.mem_map_of_mem (Fields.mem_of_get? ht)), h.place⟩

theorem reference (h : Facing side m s c place) (hleaf : m.isLeaf = false) {name : String} {found : Placed}
    (hl : s.lookup name = some found) {pair : Place × Place} (hpair : side.pick pair = ⟨side, []⟩) :
    Facing side m { s with assumed := pair :: s.assumed } ⟨c.scopes, found.node⟩ found.place :=
  ⟨h.sees, h.beside.assume hpair, fun hm => absurd hm (by simp [hleaf]), (h.beside.lookup name found hl).1,
    (h.beside.lookup name found hl).2⟩

theorem variant (h : Facing side m s c place) {v : Node} (hv : v ∈ c.node.kind.variants) (step : Step) :
    Facing side m s ⟨c.scopes, v⟩ (place.down step) :=
  ⟨h.sees, h.beside, h.free, (Node.isProper_iff.1 h.proper).2.2 v (Node.mem_parts_of_mem_variants _ v hv).1, h.place⟩

end Facing

/-! ## One union for another, on the left -/

/-- **A union on the left may be exchanged** for one whose leaves are among its own, where the right side is opened. -/
theorem compareOver_of_leavesAmong_left {c : Focus} {q : Place} (hk : c.node.kind.isIndirect = false)
    (hnever : c.node.isNever = false) (hfacing : Facing .left m s c q) (hm : m.isProper = true) (hamong : m'.LeavesAmong m)
    (hon : m'.LeadsOn) {fuel : Nat} (h : compareWithin fuel s ⟨m, .left, []⟩ ⟨c.node, q⟩ = true) (fuel' : Nat) :
    compareOver fuel' s ⟨m', .left, []⟩ ⟨c.node, q⟩ = true := by
  have hdirect : (Placed.mk c.node q).node.kind.isIndirect = false := hk
  refine compareOver_of_leaves hdirect hnever (fun y hy fuel' steps => ?_) fuel' []
  obtain ⟨x, hx, hmatches, hsame⟩ := hamong y hy
  obtain ⟨hnests, hleaf⟩ := Node.mem_leaves_iff.1 hx
  rcases shown_or_covers hdirect hfacing.proper hm hnests hleaf (fun h => .inl (hfacing.free h)) h with hshown | hcovers
  · exact hshown.held hmatches.symm hfacing.beside hfacing.proper hfacing.place fuel' steps
  · exact compareOver_of_covers hk hnever (hon.of_mem_leaves hy)
      (hcovers.of_sameKind hmatches.left hmatches.right hsame) fuel' s _ _

/-- **Bundles and references on the right are opened for one union as for the other.** -/
theorem compareOver_left (hk : m.kind.isIndirect = false) (hk' : m'.kind.isIndirect = false) (hm : m.isProper = true)
    (hnever : m.isNever = false) (hnever' : m'.isNever = false) (hamong : m'.LeavesAmong m) (hon : m'.LeadsOn)
    (hr : r.isProper = true) (hends : r.LeadsOn)
    (hreferences : m.isLeaf = true → ∀ c, r.Reaches Kind.unopened c → ∀ name, c.node.kind ≠ .ref name)
    (hnevers : m.isPrimitive .any = true → ∀ c, r.Reaches Kind.unopened c → c.node.isNever = false)
    {fuel : Nat} (h : compareWithin fuel {} ⟨m, .left, []⟩ ⟨r, .right, []⟩ = true) (fuel' : Nat) :
    compareOver fuel' {} ⟨m', .left, []⟩ ⟨r, .right, []⟩ = true := by
  suffices hall : ∀ c, r.Reaches Kind.unopened c → ∀ s q fuel', Facing .left m s c q →
      compareWithin fuel s ⟨m, .left, []⟩ ⟨c.node, q⟩ = true →
      compareOver fuel' s ⟨m', .left, []⟩ ⟨c.node, q⟩ = true from
    hall _ .refl {} _ fuel' (.start hr Side.noConfusion) h
  clear h
  induction fuel with
  | zero =>
    intro _ _ _ _ _ _ h
    cases h
  | succ fuel ih =>
    intro c hc s q fuel' hfacing h
    cases fuel' with
    | zero => rfl
    | succ fuel' =>
      have hend := hends c (hc.mono fun _ => List.nil_subset _)
      cases hck : c.node.kind with
      | cyclic definitions root =>
        obtain ⟨target, ht⟩ := Focus.exists_root hend hck
        rw [compareWithin, fitsStep_of_root_right hck ht hk hnever] at h
        rw [compareOver, fitsStep_of_root_right hck ht hk' hnever']
        exact ih _ (hc.tail (.bundle hck ht)) _ _ fuel' (hfacing.bundle hck ht) h
      | ref name =>
        obtain ⟨target, ht⟩ := Focus.exists_definition hend hck
        obtain ⟨place, hl⟩ := hfacing.sees _ _ ht
        have hleaf : m.isLeaf = false := Bool.eq_false_iff.2 fun hleaf => hreferences hleaf c hc name hck
        rw [compareWithin, fitsStep_of_definition_right hck hl hk hnever, assuming, Bool.or_eq_true] at h
        rw [compareOver, fitsStep_of_definition_right hck hl hk' hnever', assuming, Bool.or_eq_true]
        exact h.imp_right fun h =>
          ih _ (hc.tail (.reference hck ht)) _ _ fuel' (hfacing.reference hleaf hl rfl) h
      | _ =>
        have hdirect : c.node.kind.isIndirect = false := by rw [hck]; rfl
        have hcnever : c.node.isNever = false := by
          cases hn : c.node.isNever
          · rfl
          · rcases isNever_or_any_of_compareWithin hk hn h with hmnever | hany
            · exact absurd hmnever (by simp [hnever])
            · exact hn.symm.trans (hnevers hany c hc)
        exact compareOver_of_leavesAmong_left hdirect hcnever hfacing hm hamong hon h (fuel' + 1)

/-! ## One union for another, on the right -/

/-- **A union on the right may be exchanged** for one that has all its leaves, where the left side is opened. -/
theorem compareOver_of_leavesAmong_right {c : Focus} {p : Place} (hk : c.node.kind.isIndirect = false)
    (hunion : ∀ ns, c.node.kind ≠ .union ns) (hfacing : Facing .right m s c p) (hamong : m.LeavesAmong m')
    (hbooleans : m.ChoosesBoolean → m'.ChoosesBoolean) (hon : m'.LeadsOn) {fuel : Nat}
    (h : compareWithin fuel s ⟨c.node, p⟩ ⟨m, .right, []⟩ = true) (fuel' : Nat) :
    compareOver fuel' s ⟨c.node, p⟩ ⟨m', .right, []⟩ = true := by
  have hdirect : (Placed.mk c.node p).node.kind.isIndirect = false := hk
  cases fitsBy_of_compareWithin hdirect hunion (fun h => .inl (hfacing.free h)) h with
  | never hnever =>
    cases fuel' with
    | zero => rfl
    | succ fuel' => exact fitsStep_of_never (Node.isPrimitive_iff.1 hnever)
  | any hany => exact compareOver_of_any hany hon fuel' s p _
  | boolean hboolean hchooses =>
    obtain ⟨ns, hnests, hcovers⟩ := hbooleans hchooses
    refine compareOver_of_nests hdirect hunion hnests (fun fuel steps => ?_) fuel' []
    cases fuel with
    | zero => rfl
    | succ fuel =>
      rw [compareOver, fitsStep_of_direct hdirect rfl, fitsSets_of_union_right rfl hunion, hboolean, hcovers]
      simp [Node.union, Node.of, Node.isNever, Node.isPrimitive, Node.primitive?]
  | leaf hx hshown =>
    obtain ⟨y, hy, hmatches, -⟩ := hamong _ hx
    exact compareOver_of_nests hdirect hunion (Node.mem_leaves_iff.1 hy).1
      (fun fuel steps => hshown.held hmatches hfacing.beside hfacing.proper hfacing.place fuel steps) fuel' []

/-- **Bundles, references and unions on the left are opened for one union as for the other.** -/
theorem compareOver_right (hk : m.kind.isIndirect = false) (hk' : m'.kind.isIndirect = false) (hm : m.isProper = true)
    (htop : m.isTop = false) (htop' : m'.isTop = false) (hamong : m.LeavesAmong m')
    (hbooleans : m.ChoosesBoolean → m'.ChoosesBoolean) (hon : m.LeadsOn) (hon' : m'.LeadsOn) (hl : l.isProper = true)
    (hends : l.LeadsOn)
    (hreferences : m.isLeaf = true → ∀ c, l.Reaches Kind.variants c → ∀ name, c.node.kind ≠ .ref name)
    (hunions : m'.isNever = true → ∀ c, l.Reaches Kind.variants c → ∀ ns, c.node.kind ≠ .union ns)
    {fuel : Nat} (h : compareWithin fuel {} ⟨l, .left, []⟩ ⟨m, .right, []⟩ = true) (fuel' : Nat) :
    compareOver fuel' {} ⟨l, .left, []⟩ ⟨m', .right, []⟩ = true := by
  suffices hall : ∀ c, l.Reaches Kind.variants c → ∀ s p fuel', Facing .right m s c p →
      compareWithin fuel s ⟨c.node, p⟩ ⟨m, .right, []⟩ = true →
      compareOver fuel' s ⟨c.node, p⟩ ⟨m', .right, []⟩ = true from
    hall _ .refl {} _ fuel' (.start hl Side.noConfusion) h
  clear h
  induction fuel with
  | zero =>
    intro _ _ _ _ _ _ h
    cases h
  | succ fuel ih =>
    intro c hc s p fuel' hfacing h
    cases fuel' with
    | zero => rfl
    | succ fuel' =>
      cases hck : c.node.kind with
      | cyclic definitions root =>
        obtain ⟨target, ht⟩ := Focus.exists_root (hends c hc) hck
        rw [compareWithin, fitsStep_of_root_left hck ht hk htop] at h
        rw [compareOver, fitsStep_of_root_left hck ht hk' htop']
        exact ih _ (hc.tail (.bundle hck ht)) _ _ fuel' (hfacing.bundle hck ht) h
      | ref name =>
        obtain ⟨target, ht⟩ := Focus.exists_definition (hends c hc) hck
        obtain ⟨place, hl⟩ := hfacing.sees _ _ ht
        have hleaf : m.isLeaf = false := Bool.eq_false_iff.2 fun hleaf => hreferences hleaf c hc name hck
        rw [compareWithin, fitsStep_of_definition_left hck hl hk htop, assuming, Bool.or_eq_true] at h
        rw [compareOver, fitsStep_of_definition_left hck hl hk' htop', assuming, Bool.or_eq_true]
        exact h.imp_right fun h =>
          ih _ (hc.tail (.reference hck ht)) _ _ fuel' (hfacing.reference hleaf hl rfl) h
      | union ns =>
        have hnever' : m'.isNever = false := Bool.eq_false_iff.2 fun hn => hunions hn c hc ns hck
        rcases sameKind_or_all_of_union hck hk htop h with hsame | h
        · exact compareOver_of_covers hk' hnever' (hon.of_sameKind hfacing.proper hm hsame)
            (hamong.covers.of_sameKind hfacing.proper hm hsame) (fuel' + 1) s p _
        · have hall : ((Placed.items ⟨c.node, p⟩ 0 ns).all fun v => compareOver fuel' s v ⟨m', .right, []⟩) = true := by
            refine List.all_eq_true.2 fun v hv => ?_
            have hmem := Kind.mem_variants.2 ⟨ns, hck, Placed.mem_of_mem_items hv⟩
            have hfit := h v hv
            obtain ⟨i, v, -, rfl⟩ := (Placed.mem_items _).1 hv
            exact ih _ (hc.tail (.part hmem)) s _ fuel' (hfacing.variant hmem _) hfit
          rw [compareOver, fitsStep_of_direct (by rw [hck]; rfl) hk', fitsSets_of_union_left hck, hnever', hall]
          simp
      | _ =>
        exact compareOver_of_leavesAmong_right (by rw [hck]; rfl) (by simp [hck]) hfacing hamong hbooleans hon' h (fuel' + 1)

/-! ## Normal forms -/

namespace Node

/-- **Equal leaves are not told apart**: they are one kind, or free of minus zero. -/
def LeavesAgree (n : Node) : Prop := ∀ x ∈ n.leaves, ∀ y ∈ n.leaves, (x == y) = true → x.Matches y

theorem leavesAgree_of_isExact (hn : n.isProper = true) (he : n.isExact = true) : n.LeavesAgree := by
  have hexact {x : Node} (hx : x ∈ n.leaves) : x.isExact = true :=
    (mem_leaves_iff.1 hx).1.induct (fun _ h => (isExact_iff.1 h).2) he
  exact fun x hx y hy hxy => ⟨isProper_of_mem_leaves hn hx, isProper_of_mem_leaves hn hy,
    .inr ⟨hexact hx, hexact hy, sameKind_of_sameAs hxy⟩⟩

/-- The leaves of a node that equals itself equal themselves. -/
theorem sameAs_self_of_mem_leaves (hn : n.sameAs n = true) {x : Node} (hx : x ∈ n.leaves) : x.sameAs x = true := by
  obtain ⟨hnests, -⟩ := mem_leaves_iff.1 hx
  clear hx
  induction hnests with
  | refl => exact hn
  | inside hm _ ih =>
    cases (sameAs_iff.1 hn).1 with
    | union hs => exact ih (List.forall₂_same.1 hs _ hm)

theorem leavesAmong_of_unionOf (hn : n.isProper = true) (hself : n.sameAs n = true) : (unionOf [n]).LeavesAmong n := by
  intro x hx
  rw [leaves_unionOf] at hx
  have hx := mem_of_mem_distinct hx
  exact ⟨x, hx, .refl (isProper_of_mem_leaves hn hx), sameKind_of_sameAs (sameAs_self_of_mem_leaves hself hx)⟩

theorem leavesAmong_unionOf (hn : n.isProper = true) (hself : n.sameAs n = true) (hagree : n.LeavesAgree) :
    n.LeavesAmong (unionOf [n]) := by
  intro x hx
  obtain ⟨y, hy, hyx⟩ := exists_mem_distinct hx
  have hyn := mem_of_mem_distinct hy
  have hsame : sameAs y x = true := by
    rcases hyx with rfl | hyx
    · exact sameAs_self_of_mem_leaves hself hx
    · exact hyx
  have hproper {z : Node} (hz : z ∈ n.leaves) := isProper_of_mem_leaves hn hz
  exact ⟨y, by rwa [leaves_unionOf], (hagree y hyn x hx hsame).symm,
    sameKind_symm (hproper hyn) (hproper hx) (sameKind_of_sameAs hsame)⟩

theorem LeadsOn.unionOf (h : n.LeadsOn) : (unionOf [n]).LeadsOn := leadsOn_of_leaves fun x hx => by
  rw [leaves_unionOf] at hx
  exact h.of_mem_leaves (mem_of_mem_distinct hx)

/-- A normal form that has both truth values among its leaves has them among its variants. -/
theorem choosesBoolean_unionOf (h : coversBoolean (unionOf [n]).leaves = true) : (unionOf [n]).ChoosesBoolean := by
  rw [leaves_unionOf] at h
  rcases n.unionOf_cases with ⟨hd, -⟩ | ⟨x, -, hd, -⟩ | ⟨-, hu⟩
  · rw [hd] at h
    cases h
  · obtain ⟨y, hy, hyk⟩ := coversBoolean_iff.1 h true
    obtain ⟨z, hz, hzk⟩ := coversBoolean_iff.1 h false
    rw [hd, List.mem_singleton] at hy hz
    subst hy
    subst hz
    cases hyk.symm.trans hzk
  · exact ⟨_, by rw [hu]; exact .refl _, h⟩

/-- **What must not face a normal form on its right**, if it is to compare as the union does from which it comes. -/
structure StandsLeftOf (n r : Node) : Prop where
  /-- `never` is refused on the right before a union on the left is opened, while `never` and `any` fit it. -/
  nevers : n.isNever = true ∨ n.isPrimitive .any = true → ∀ c, r.Reaches Kind.unopened c → c.node.isNever = false
  /-- References on the right are compared with the union, or with its single leaf: pairs that are met again differ. -/
  references : n.isLeaf = true → ∀ c, r.Reaches Kind.unopened c → ∀ name, c.node.kind ≠ .ref name
  /-- A single bundle is opened before what the right side opens to, a union after it. -/
  bundles : n.kind.isIndirect = true → r.kind.isIndirect = false ∧ r.isNever = false

/-- **What must not face a normal form on its left**, if it is to be compared as the union is from which it comes. -/
structure StandsRightOf (n l : Node) : Prop where
  /-- `never` is refused on the right before a union on the left is opened, while a union without leaves is not. -/
  nevers : n.isNever = true → ∀ c, l.Reaches Kind.variants c → ∀ ns, c.node.kind ≠ .union ns
  /-- References on the left are compared with the union, or with its single leaf: pairs that are met again differ. -/
  references : n.isLeaf = true → ∀ c, l.Reaches Kind.variants c → ∀ name, c.node.kind ≠ .ref name
  /-- A single bundle is opened before the left side is, a union after it. -/
  bundles : n.kind.isIndirect = true → l.kind.isIndirect = false ∧ ∀ ns, l.kind ≠ .union ns

end Node

section
variable {left right : Node}

theorem fits_of_isNever (h : left.isNever = true) : left.fits right = true :=
  fitsStep_of_never (Node.isPrimitive_iff.1 h)

/-- **A union on the left compares as its normal form does.** -/
theorem fits_unionOf_left (hl : left.isProper = true) (hr : right.isProper = true) (hself : left.sameAs left = true)
    (hagree : left.LeavesAgree) (hends : left.LeadsOn) (hends' : right.LeadsOn)
    (hstands : left.isLeaf = false → (Node.unionOf [left]).StandsLeftOf right) (hdepth : left.WithinDepth right)
    (hdepth' : (Node.unionOf [left]).WithinDepth right) : (Node.unionOf [left]).fits right = left.fits right := by
  rcases left.isLeaf_or with hleaf | hnever | ⟨ns, rfl⟩
  · rw [Node.unionOf_of_isLeaf hleaf]
  · rw [Node.unionOf_of_isNever hnever, fits_of_isNever hnever, fits_of_isNever rfl]
  · have hstands := hstands rfl
    have hamong := Node.leavesAmong_of_unionOf hl hself
    have hamong' := Node.leavesAmong_unionOf hl hself hagree
    have hnormal := Node.isProper_unionOf hl
    have hon := hends.unionOf
    cases hnever : (Node.unionOf [.union ns]).isNever
    · rw [Bool.eq_iff_iff]
      have hfacing {m : Node} : Facing .left m {} ⟨[], right⟩ ⟨.right, []⟩ := .start hr Side.noConfusion
      cases hk : (Node.unionOf [.union ns]).kind.isIndirect
      · constructor
        · intro h
          rw [← hdepth]
          exact compareOver_left hk rfl hnormal hnever rfl hamong' hends hr hends' hstands.references
            (fun hany => hstands.nevers (.inr hany)) h _
        · intro h
          rw [← hdepth']
          exact compareOver_left rfl hk hl rfl hnever hamong hon hr hends' (fun h => by cases h) (fun h => by cases h) h _
      · obtain ⟨hrk, hrnever⟩ := hstands.bundles hk
        constructor
        · intro h
          rw [← hdepth]
          exact compareOver_of_leavesAmong_left hrk hrnever hfacing hnormal hamong' hends h _
        · intro h
          rw [← hdepth']
          exact compareOver_of_leavesAmong_left hrk hrnever hfacing hl hamong hon h _
    · rw [fits_of_isNever hnever, eq_comm, ← hdepth]
      refine compareOver_of_roots rfl hends' (fun c hc hk fuel s q => ?_) _ _ _
      refine compareOver_of_leaves hk (hstands.nevers (.inl hnever) c hc) (fun x hx => ?_) fuel []
      obtain ⟨y, hy, -⟩ := hamong' x hx
      rw [Node.leaves_of_isNever hnever] at hy
      cases hy

/-- A node with a leaf that anything fits is fit by all that comes to no dead end. -/
theorem compareOver_of_isTop {x : Node} (hnests : right.Nests x) (htop : x.isTop = true)
    (hk : right.kind.isIndirect = false) (hnever : right.isNever = false) (hends : left.LeadsOn) (fuel : Nat)
    (s : Surroundings) (p : Place) (steps : List Step) :
    compareOver fuel s ⟨left, p⟩ ⟨right, .right, steps⟩ = true := by
  refine compareOver_of_forms hk hnever hends (fun c _ hform fuel s p => ?_) fuel s p
  have hdirect : (Placed.mk c.node p).node.kind.isIndirect = false := Kind.isIndirect_of_isForm hform
  refine compareOver_of_nests hdirect (Kind.ne_union_of_isForm hform) hnests (fun fuel steps => ?_) fuel steps
  cases fuel with
  | zero => rfl
  | succ fuel => exact fitsStep_of_isTop htop

/-- **A union on the right is compared as its normal form is.** -/
theorem fits_unionOf_right (hl : left.isProper = true) (hr : right.isProper = true) (hself : right.sameAs right = true)
    (hagree : right.LeavesAgree) (hends : left.LeadsOn) (hends' : right.LeadsOn)
    (hstands : right.isLeaf = false → (Node.unionOf [right]).StandsRightOf left)
    (hbooleans : coversBoolean right.leaves = true → right.ChoosesBoolean) (hdepth : left.WithinDepth right)
    (hdepth' : left.WithinDepth (Node.unionOf [right])) : left.fits (Node.unionOf [right]) = left.fits right := by
  have hnormal := Node.isProper_unionOf hr
  rcases right.isLeaf_or with hleaf | hnever | ⟨ns, rfl⟩
  · rw [Node.unionOf_of_isLeaf hleaf]
  · rw [Node.unionOf_of_isNever hnever] at hnormal ⊢
    exact Node.Matches.fits_eq (.refl hl) (.of_kind_eq hnormal hr (Node.isPrimitive_iff.1 hnever).symm)
  · have hstands := hstands rfl
    have hamong := Node.leavesAmong_of_unionOf hr hself
    have hamong' := Node.leavesAmong_unionOf hr hself hagree
    have hchoose (h : (Node.unionOf [.union ns]).ChoosesBoolean) : (Node.union ns).ChoosesBoolean :=
      hbooleans (hamong.coversBoolean (Node.coversBoolean_leaves h))
    have hchoose' (h : (Node.union ns).ChoosesBoolean) : (Node.unionOf [.union ns]).ChoosesBoolean :=
      Node.choosesBoolean_unionOf (hamong'.coversBoolean (Node.coversBoolean_leaves h))
    have hon := hends'.unionOf
    rw [Bool.eq_iff_iff]
    have hfacing {m : Node} : Facing .right m {} ⟨[], left⟩ ⟨.left, []⟩ := .start hl Side.noConfusion
    cases hk : (Node.unionOf [.union ns]).kind.isIndirect
    · cases htop : (Node.unionOf [.union ns]).isTop
      · constructor
        · intro h
          rw [← hdepth]
          exact compareOver_right hk rfl hnormal htop rfl hamong hchoose hon hends' hl hends hstands.references
            (fun h => by cases h) h _
        · intro h
          rw [← hdepth']
          exact compareOver_right rfl hk hr rfl htop hamong' hchoose' hends' hon hl hends (fun h => by cases h)
            hstands.nevers h _
      · refine iff_of_true (fitsStep_of_isTop htop) ?_
        rw [← hdepth]
        have hleaf : Node.unionOf [.union ns] ∈ (Node.union ns).leaves := by
          refine mem_of_mem_distinct ?_
          rw [← Node.leaves_unionOf]
          exact Node.mem_leaves_self (Node.isLeaf_of_isTop htop)
        exact compareOver_of_isTop (Node.mem_leaves_iff.1 hleaf).1 htop rfl rfl hends _ _ _ _
    · obtain ⟨hlk, hlunion⟩ := hstands.bundles hk
      constructor
      · intro h
        rw [← hdepth]
        exact compareOver_of_leavesAmong_right hlk hlunion hfacing hamong hchoose hends' h _
      · intro h
        rw [← hdepth']
        exact compareOver_of_leavesAmong_right hlk hlunion hfacing hamong' hchoose' hon h _

/-- **A union is compared as its normal form is**, on either side: plain unions opened, `never` and repetitions left out,
and no or one variant collapsed.  Leaves that are equal must not be told apart, and a union on the right that has both
truth values must have them in one place.  Where no or one leaf is left, the other side must suit
(`Node.StandsLeftOf`, `Node.StandsRightOf`). -/
theorem fits_unionOf (hl : left.isProper = true) (hr : right.isProper = true) (hself : left.sameAs left = true)
    (hself' : right.sameAs right = true) (hends : left.LeadsOn) (hends' : right.LeadsOn) (hdepth : left.WithinDepth right) :
    (left.LeavesAgree → (left.isLeaf = false → (Node.unionOf [left]).StandsLeftOf right) →
        (Node.unionOf [left]).WithinDepth right → (Node.unionOf [left]).fits right = left.fits right) ∧
      (right.LeavesAgree → (right.isLeaf = false → (Node.unionOf [right]).StandsRightOf left) →
        (coversBoolean right.leaves = true → right.ChoosesBoolean) → left.WithinDepth (Node.unionOf [right]) →
          left.fits (Node.unionOf [right]) = left.fits right) :=
  ⟨fun hagree hstands => fits_unionOf_left hl hr hself hagree hends hends' hstands hdepth,
    fun hagree hstands hbooleans => fits_unionOf_right hl hr hself' hagree hends hends' hstands hbooleans hdepth⟩

/-- Nested unions with repetitions, bundles and both truth values. -/
theorem fits_unionOf_ring :
    let ring : Node := .cyclic [("A", .object [("next", .union [.reference "A", .null])])] "A"
    let left : Node := .union [.union [ring, .never], .boolean, .union [.union [.text "a"], .text "a"]]
    let right : Node := .union [.union [.truth true, .union [.string, .never], .truth false], .union [ring, .null]]
    (left.isProper = true ∧ right.isProper = true ∧ left.sameAs left = true ∧ right.sameAs right = true ∧ left.LeadsOn ∧
        right.LeadsOn ∧ left.WithinDepth right) ∧
      (left.LeavesAgree ∧ (Node.unionOf [left]).StandsLeftOf right ∧ (Node.unionOf [left]).WithinDepth right ∧
        (Node.unionOf [left]).fits right = left.fits right) ∧
      right.LeavesAgree ∧ (Node.unionOf [right]).StandsRightOf left ∧ right.ChoosesBoolean ∧
        left.WithinDepth (Node.unionOf [right]) ∧ left.fits (Node.unionOf [right]) = left.fits right := by
  intro ring left right
  have hl : left.isProper = true := by decide +kernel
  have hr : right.isProper = true := by decide +kernel
  have hself : left.sameAs left = true := by decide +kernel
  have hself' : right.sameAs right = true := by decide +kernel
  have hends : left.LeadsOn := Node.leadsOn_of_closed (by decide +kernel) (by decide +kernel)
  have hends' : right.LeadsOn := Node.leadsOn_of_closed (by decide +kernel) (by decide +kernel)
  have hdepth : left.WithinDepth right := by decide +kernel
  have hagree : left.LeavesAgree := Node.leavesAgree_of_isExact hl (by decide +kernel)
  have hagree' : right.LeavesAgree := Node.leavesAgree_of_isExact hr (by decide +kernel)
  -- Several leaves are left on both sides, so that nothing is asked of the other one.
  have hstands : (Node.unionOf [left]).StandsLeftOf right :=
    ⟨fun h => absurd h (by decide +kernel), fun h => absurd h (by decide +kernel), fun h => absurd h (by decide +kernel)⟩
  have hstands' : (Node.unionOf [right]).StandsRightOf left :=
    ⟨fun h => absurd h (by decide +kernel), fun h => absurd h (by decide +kernel), fun h => absurd h (by decide +kernel)⟩
  have hbooleans : right.ChoosesBoolean := ⟨_, .inside List.mem_cons_self (.refl _), by decide +kernel⟩
  have hdepth' : (Node.unionOf [left]).WithinDepth right := by decide +kernel
  have hdepth'' : left.WithinDepth (Node.unionOf [right]) := by decide +kernel
  have hfits := fits_unionOf hl hr hself hself' hends hends' hdepth
  exact ⟨⟨hl, hr, hself, hself', hends, hends', hdepth⟩,
    ⟨hagree, hstands, hdepth', hfits.1 hagree (fun _ => hstands) hdepth'⟩,
    hagree', hstands', hbooleans, hdepth'', hfits.2 hagree' (fun _ => hstands') (fun _ => hbooleans) hdepth''⟩

/-- **Both truth values are not seen in two different unions** that are nested in one, nor is it seen that a union without
variants has no values: the normal forms are `true | false` and `never`. -/
theorem nested_choice_apart :
    let scattered : Node := .union [.union [.truth true], .union [.truth false]]
    (scattered.isConcrete = true ∧ Node.boolean.WithinDepth scattered ∧
        Node.boolean.WithinDepth (.unionOf [scattered])) ∧
      Node.boolean.fits scattered = false ∧ Node.boolean.fits (.unionOf [scattered]) = true ∧
      Node.fits (.union []) .never = false ∧ Node.fits (.unionOf [.union []]) .never = true := by
  decide +kernel

end
end Schemata
