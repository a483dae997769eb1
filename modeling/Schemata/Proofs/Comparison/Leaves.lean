import Schemata.Proofs.Comparison.Covering
import Schemata.Proofs.Comparison.Relocation
import Schemata.Proofs.Node.Leaves
/-!
# Unions compared by their leaves

A comparison with a union comes down to comparisons with its leaves, wherever they stand in it.

- `Node.LeavesAmong`: all leaves of a node are leaves of another one, up to what comparisons do not tell apart.
- `Shown`: a node is seen to fit at some place below the root of its side.  It is then taken to fit at any place of that
  side (`Shown.held`), as long as only the other side has been opened (`Surroundings.Beside`).
- A union on the left fits when its leaves do (`shown_or_covers`, `compareOver_of_leaves`); a union on the right is fit
  when a leaf is (`fitsBy_of_compareWithin`, `compareOver_of_nests`), or when it chooses between both truth values.
-/
namespace Schemata

open Relation (ReflTransGen)

/-! ## What leaves open to -/

namespace Node

variable {n m x : Node}

theorem Nests.reaches (h : n.Nests x) : n.Reaches Kind.variants ⟨[], x⟩ := by
  induction h with
  | refl => exact .refl
  | inside hm _ ih => exact ReflTransGen.head (.part hm) ih

/-- **All that a node opens to, its leaves open to**, apart from unions and `never`. -/
theorem Reaches.exists_leaf {c : Focus} (h : n.Reaches Kind.variants c) (hunion : ∀ ns, c.node ≠ union ns)
    (hnever : c.node.isNever = false) : ∃ x ∈ n.leaves, x.Reaches Kind.variants c := by
  induction n using induction_on_parts with
  | node n ih =>
    rcases n.isLeaf_or with hleaf | hn | ⟨ns, rfl⟩
    · exact ⟨n, mem_leaves_self hleaf, h⟩
    · rcases ReflTransGen.cases_head h with rfl | ⟨d, hstep, -⟩
      · exact absurd hn (by simp [hnever])
      · have hk := isPrimitive_iff.1 hn
        cases hstep with
        | bundle hk' | reference hk' => cases hk.symm.trans hk'
        | part hm => simp [hk, Kind.variants] at hm
    · rcases ReflTransGen.cases_head h with rfl | ⟨d, hstep, hrest⟩
      · exact absurd rfl (hunion ns)
      · cases hstep with
        | bundle hk | reference hk => cases hk
        | part hm =>
          obtain ⟨x, hx, hreaches⟩ := ih _ hm hrest
          exact ⟨x, mem_leaves_union hm hx, hreaches⟩

theorem LeadsOn.of_mem_leaves (h : n.LeadsOn) (hx : x ∈ n.leaves) : x.LeadsOn := fun c hc =>
  h c (ReflTransGen.trans (mem_leaves_iff.1 hx).1.reaches hc)

theorem leadsOn_of_leaves (h : ∀ x ∈ n.leaves, x.LeadsOn) : n.LeadsOn := by
  intro c hc
  by_cases hunion : ∃ ns, c.node = union ns
  · obtain ⟨ns, hns⟩ := hunion
    rw [Focus.isDeadEnd, hns]
    rfl
  · cases hnever : c.node.isNever
    · obtain ⟨x, hx, hreaches⟩ := hc.exists_leaf (fun ns hns => hunion ⟨ns, hns⟩) hnever
      exact h x hx c hreaches
    · rw [Focus.isDeadEnd, isPrimitive_iff.1 hnever]

/-- **Whether all leaves of a node are leaves of another one**, up to what comparisons do not tell apart. -/
def LeavesAmong (n m : Node) : Prop :=
  ∀ x ∈ n.leaves, ∃ y ∈ m.leaves, x.Matches y ∧ sameKind x.kind y.kind = true

theorem LeavesAmong.covers (h : n.LeavesAmong m) : m.Covers n := by
  intro c hc hform
  have hunion : ∀ ns, c.node ≠ union ns := fun ns hns => Kind.ne_union_of_isForm hform ns (congrArg Node.kind hns)
  have hnever : c.node.isNever = false := by
    cases hn : c.node.isNever
    · rfl
    · rw [isPrimitive_iff.1 hn] at hform
      cases hform
  obtain ⟨x, hx, hreaches⟩ := hc.exists_leaf hunion hnever
  obtain ⟨y, hy, hmatches, hsame⟩ := h x hx
  obtain ⟨d, hd, hdsame⟩ := covers_of_sameKind hmatches.left hmatches.right hsame c hreaches hform
  exact ⟨d, ReflTransGen.trans (mem_leaves_iff.1 hy).1.reaches hd, hdsame⟩

theorem isLeaf_of_isTop (h : n.isTop = true) : n.isLeaf = true := by
  rw [isTop, Bool.or_eq_true, isPrimitive_iff, isPrimitive_iff] at h
  refine isLeaf_of_ne_union ?_ fun ns hns => ?_
  · rcases h with hk | hk <;> simp [isNever, isPrimitive, primitive?, hk]
  · rcases h with hk | hk <;> cases hk.symm.trans hns

/-! ### Choices between both truth values -/

theorem coversBoolean_iff {ns : List Node} :
    coversBoolean ns = true ↔ ∀ b, ∃ n ∈ ns, n.kind = .literal (.boolean b) := by
  have hliteral (n : Node) (b : Bool) : (n.literal? == some (.boolean b)) = true ↔ n.kind = .literal (.boolean b) := by
    rw [← literal?_eq_some_iff]
    cases n.literal? with
    | none => simp
    | some l =>
      rw [Option.some_beq_some]
      change l.sameAs (.boolean b) = true ↔ _
      cases l <;> simp [Literal.sameAs]
  simp only [coversBoolean, Bool.and_eq_true, List.any_eq_true, hliteral, Bool.forall_bool]
  exact and_comm

/-- **Whether one plain union that is nested in a node has both truth values** among its own variants. -/
def ChoosesBoolean (n : Node) : Prop := ∃ ns, n.Nests (.union ns) ∧ coversBoolean ns = true

theorem coversBoolean_leaves (h : n.ChoosesBoolean) : coversBoolean n.leaves = true := by
  obtain ⟨ns, hnests, hcovers⟩ := h
  refine coversBoolean_iff.2 fun b => ?_
  obtain ⟨v, hv, hk⟩ := coversBoolean_iff.1 hcovers b
  have hleaf : v.isLeaf = true :=
    isLeaf_of_ne_union (by simp [isNever, isPrimitive, primitive?, hk]) (by simp [hk])
  exact ⟨v, mem_leaves_iff.2 ⟨hnests.trans (.inside hv (.refl v)), hleaf⟩, hk⟩

theorem LeavesAmong.coversBoolean (h : n.LeavesAmong m) (hn : coversBoolean n.leaves = true) :
    Schemata.coversBoolean m.leaves = true := by
  refine coversBoolean_iff.2 fun b => ?_
  obtain ⟨x, hx, hk⟩ := coversBoolean_iff.1 hn b
  obtain ⟨y, hy, hmatches, -⟩ := h x hx
  exact ⟨y, hy, literal?_eq_some_iff.1 (hmatches.literal?_eq ▸ literal?_eq_some_iff.2 hk)⟩

end Node

/-! ## One side as it is, the other one opened -/

/-- **Surroundings of a comparison that has opened one side only**, the one that faces `side`: all definitions that are
known stand there, and the pairs taken to hold are of the whole node on `side`. -/
structure Surroundings.Beside (s : Surroundings) (side : Side) : Prop where
  lookup : ∀ name p, s.lookup name = some p → p.node.isProper = true ∧ p.place.side ≠ side
  assumed : ∀ pair ∈ s.assumed, side.pick pair = ⟨side, []⟩

/-- A comparison of what stands on a side with what faces it. -/
def Comparison.facing (check : Comparison) (side : Side) (s : Surroundings) (p q : Placed) : Bool :=
  match side with
  | .left => check s p q
  | .right => check s q p

variable {s : Surroundings} {side : Side} {f : Placed} {n x y : Node}

theorem Surroundings.beside_empty (side : Side) : Surroundings.Beside {} side :=
  ⟨fun _ _ h => (by cases h), fun _ h => (by cases h)⟩

/-- The side that faces is opened further. -/
theorem Surroundings.Beside.enter (h : s.Beside side) (hside : f.place.side ≠ side) {definitions : Fields Node}
    (hproper : ∀ n ∈ definitions.map Prod.snd, n.isProper = true) :
    ({ s with scopes := f.definitions definitions :: s.scopes } : Surroundings).Beside side := by
  refine ⟨fun name p hp => ?_, h.assumed⟩
  rw [Surroundings.lookup, List.findSome?_cons, f.get?_definitions] at hp
  cases hd : definitions.get? name with
  | some n =>
    rw [hd] at hp
    cases hp
    exact ⟨hproper n (List.mem_map_of_mem (Fields.mem_of_get? hd)), hside⟩
  | none =>
    rw [hd] at hp
    exact h.lookup name p hp

theorem Surroundings.Beside.assume (h : s.Beside side) {pair : Place × Place} (hpair : side.pick pair = ⟨side, []⟩) :
    ({ s with assumed := pair :: s.assumed } : Surroundings).Beside side :=
  ⟨h.lookup, List.forall_mem_cons.2 ⟨hpair, h.assumed⟩⟩

/-- **A node that is seen to fit**, or to be fit, where no pair is taken to hold of it. -/
def Shown (side : Side) (s : Surroundings) (f : Placed) (x : Node) : Prop :=
  ∃ fuel steps, (s.assumed = [] ∨ steps ≠ []) ∧ (compareWithin fuel).facing side s ⟨x, side, steps⟩ f = true

/-- **What is shown at one place is taken to hold at any other**, and of matching nodes. -/
theorem Shown.held (h : Shown side s f x) (hxy : x.Matches y) (hs : s.Beside side) (hf : f.node.isProper = true)
    (hside : f.place.side ≠ side) (fuel : Nat) (steps : List Step) :
    (compareOver fuel).facing side s ⟨y, side, steps⟩ f = true := by
  obtain ⟨fuel', steps', hfree, h⟩ := h
  let ρ : Relocation := ⟨fun t => if t = side then steps' else [], fun t => if t = side then steps else []⟩
  have hfixed {p : Placed} (hp : p.node.isProper = true) (hside : p.place.side ≠ side) : Placed.Like ρ p p :=
    ⟨.refl hp, rfl, p.place.steps, by simp [ρ, hside], by simp [ρ, hside]⟩
  have hmoved : Placed.Like ρ ⟨x, side, steps'⟩ ⟨y, side, steps⟩ := ⟨hxy, rfl, [], by simp [ρ], by simp [ρ]⟩
  have hlike : Surroundings.Like ρ s s := by
    refine ⟨fun name p hp => ⟨p, hp, hfixed (hs.lookup name p hp).1 (hs.lookup name p hp).2⟩, ?_⟩
    -- Pairs are of the root, which no step leads to.
    intro a a' b b' ha hb hab
    exfalso
    have hroot := hs.assumed _ hab
    have hsteps : steps' ≠ [] := hfree.resolve_left (List.ne_nil_of_mem hab)
    have hmoves : ∃ a', ρ.Moves ⟨side, []⟩ a' := by
      cases side with
      | left => exact ⟨a', hroot ▸ ha⟩
      | right => exact ⟨b', hroot ▸ hb⟩
    obtain ⟨_, -, more, hmore, -⟩ := hmoves
    simp only [ρ, if_true] at hmore
    exact hsteps (List.append_eq_nil_iff.1 hmore.symm).2
  cases side with
  | left => exact follows_compareWithin ρ fuel' fuel _ _ _ _ _ _ hlike hmoved (hfixed hf hside) h
  | right => exact follows_compareWithin ρ fuel' fuel _ _ _ _ _ _ hlike (hfixed hf hside) hmoved h

/-- Only `never` and `any` fit `never` without being opened. -/
theorem isNever_or_any_of_compareWithin {left right : Placed} (hk : left.node.kind.isIndirect = false)
    (hright : right.node.isNever = true) {fuel : Nat} (h : compareWithin fuel s left right = true) :
    left.node.isNever = true ∨ left.node.isPrimitive .any = true := by
  have hrk := Node.isPrimitive_iff.1 hright
  cases fuel with
  | zero => cases h
  | succ fuel =>
    rw [compareWithin, fitsStep_of_direct hk (by rw [hrk]; rfl), hright] at h
    simp only [Bool.or_eq_true, Bool.not_true, Bool.false_and, Bool.false_eq_true, or_false] at h
    rcases h with (((hsame | hany) | hunknown) | hnever) | hany
    · refine .inl (Node.isPrimitive_iff.2 ?_)
      rw [hrk] at hsame
      generalize left.node.kind = k at hsame
      cases Node.sameKind_iff.1 hsame
      rfl
    · cases hrk.symm.trans (Node.isPrimitive_iff.1 hany)
    · cases hrk.symm.trans (Node.isPrimitive_iff.1 hunknown)
    · exact .inl hnever
    · exact .inr hany

/-! ## Unions on the left -/

/-- A union that fits is the same, or all its variants fit. -/
theorem sameKind_or_all_of_union {left right : Placed} {ns : List Node} (hk : left.node.kind = .union ns)
    (hright : right.node.kind.isIndirect = false) (htop : right.node.isTop = false) {fuel : Nat}
    (h : compareWithin (fuel + 1) s left right = true) :
    Node.sameKind left.node.kind right.node.kind = true ∨ ∀ v ∈ left.items 0 ns, compareWithin fuel s v right = true := by
  rw [compareWithin, fitsStep_of_direct (by rw [hk]; rfl) hright, Bool.or_assoc (Node.sameKind _ _), ← Node.isTop, htop,
    fitsSets_of_union_left hk] at h
  simp only [Bool.or_eq_true, Bool.and_eq_true, Bool.false_eq_true, or_false] at h
  rcases h with ((hsame | hnever) | hany) | ⟨-, hall⟩
  · exact .inl hsame
  · cases hk.symm.trans (Node.isPrimitive_iff.1 hnever)
  · cases hk.symm.trans (Node.isPrimitive_iff.1 hany)
  · exact .inr (List.all_eq_true.1 hall)

/-- **A union that is seen to fit has leaves that do**, or leaves that are covered. -/
theorem shown_or_covers (hk : f.node.kind.isIndirect = false) (hf : f.node.isProper = true) (hn : n.isProper = true)
    (hnests : n.Nests x) (hx : x.isLeaf = true) {fuel : Nat} {steps : List Step}
    (hsteps : n.isLeaf = true → s.assumed = [] ∨ steps ≠ []) (h : compareWithin fuel s ⟨n, .left, steps⟩ f = true) :
    Shown .left s f x ∨ f.node.Covers x := by
  induction hnests generalizing fuel steps with
  | refl => exact .inl ⟨fuel, steps, hsteps hx, h⟩
  | @inside ns m x hm hnests ih =>
    cases fuel with
    | zero => cases h
    | succ fuel =>
      cases htop : f.node.isTop
      · rcases sameKind_or_all_of_union rfl hk htop h with hsame | hall
        · refine .inr fun c hc => ?_
          exact Node.covers_of_sameKind hn hf hsame c (ReflTransGen.head (.part hm) (hnests.reaches.trans hc))
        · obtain ⟨v, hv, rfl⟩ := Placed.exists_mem_items ⟨.union ns, .left, steps⟩ 0 hm
          obtain ⟨i, v, -, rfl⟩ := (Placed.mem_items _).1 hv
          exact ih ((Node.isProper_iff.1 hn).2.2 _ hm) hx (fun _ => .inr (List.cons_ne_nil _ _)) (hall _ hv)
      · exact .inl ⟨1, [.item 0], .inr (List.cons_ne_nil _ _), fitsStep_of_isTop htop⟩

/-- **Leaves that fit make the union fit.** -/
theorem compareOver_of_leaves (hk : f.node.kind.isIndirect = false) (hnever : f.node.isNever = false)
    (h : ∀ x ∈ n.leaves, ∀ fuel steps, compareOver fuel s ⟨x, .left, steps⟩ f = true) (fuel : Nat) (steps : List Step) :
    compareOver fuel s ⟨n, .left, steps⟩ f = true := by
  induction n using Node.induction_on_parts generalizing fuel steps with
  | node n ih =>
    rcases n.isLeaf_or with hleaf | hn | ⟨ns, rfl⟩
    · exact h n (Node.mem_leaves_self hleaf) fuel steps
    · cases fuel with
      | zero => rfl
      | succ fuel => exact fitsStep_of_never (Node.isPrimitive_iff.1 hn)
    · cases fuel with
      | zero => rfl
      | succ fuel =>
        have hall : ((Placed.items ⟨.union ns, .left, steps⟩ 0 ns).all fun v => compareOver fuel s v f) = true := by
          refine List.all_eq_true.2 fun v hv => ?_
          have hm := Placed.mem_of_mem_items hv
          obtain ⟨i, v, -, rfl⟩ := (Placed.mem_items _).1 hv
          exact ih v hm (fun x hx => h x (Node.mem_leaves_union hm hx)) fuel _
        rw [compareOver, fitsStep_of_direct rfl hk, fitsSets_of_union_left rfl, hall, hnever]
        simp

/-! ## Unions on the right -/

/-- **Why something is seen to fit a node**, directly or in the unions that are nested in it. -/
inductive FitsBy (s : Surroundings) (f : Placed) (n : Node) : Prop
  | never (h : f.node.isNever = true)
  | any (h : f.node.isPrimitive .any = true)
  | boolean (h : f.node.isPrimitive .boolean = true) (hchooses : n.ChoosesBoolean)
  | leaf {x : Node} (hx : x ∈ n.leaves) (h : Shown .right s f x)

theorem FitsBy.inside {ns : List Node} (hm : n ∈ ns) (h : FitsBy s f n) : FitsBy s f (.union ns) := by
  cases h with
  | never h => exact .never h
  | any h => exact .any h
  | boolean h hchooses =>
    obtain ⟨ms, hms, hcovers⟩ := hchooses
    exact .boolean h ⟨ms, .inside hm hms, hcovers⟩
  | leaf hx h => exact .leaf (Node.mem_leaves_union hm hx) h

/-- **What is seen to fit a union is seen to fit a leaf**, unless it fits anything, or it is `boolean` and the union
chooses between both truth values. -/
theorem fitsBy_of_compareWithin (hk : f.node.kind.isIndirect = false) (hunion : ∀ ns, f.node.kind ≠ .union ns)
    {fuel : Nat} {steps : List Step} (hsteps : n.isLeaf = true → s.assumed = [] ∨ steps ≠ [])
    (h : compareWithin fuel s f ⟨n, .right, steps⟩ = true) : FitsBy s f n := by
  induction n using Node.induction_on_parts generalizing fuel steps with
  | node n ih =>
    cases fuel with
    | zero => cases h
    | succ fuel =>
      rcases n.isLeaf_or with hleaf | hn | ⟨ns, rfl⟩
      · exact .leaf (Node.mem_leaves_self hleaf) ⟨fuel + 1, steps, hsteps hleaf, h⟩
      · exact (isNever_or_any_of_compareWithin hk hn h).elim .never .any
      · rw [compareWithin, fitsStep_of_direct hk rfl] at h
        simp only [Bool.or_eq_true, Bool.and_eq_true] at h
        rcases h with ((((hsame | hany) | hunknown) | hnever) | hany) | ⟨-, hsets⟩
        · generalize f.node.kind = k at hsame hunion
          cases Node.sameKind_iff.1 hsame
          exact absurd rfl (hunion _)
        · cases hany
        · cases hunknown
        · exact .never hnever
        · exact .any hany
        · rw [fitsSets_of_union_right rfl hunion, Bool.or_eq_true, Bool.and_eq_true] at hsets
          rcases hsets with ⟨hboolean, hcovers⟩ | hsets
          · exact .boolean hboolean ⟨ns, .refl _, hcovers⟩
          · obtain ⟨v, hv, hfit⟩ := List.any_eq_true.1 hsets
            have hm := Placed.mem_of_mem_items hv
            obtain ⟨i, v, -, rfl⟩ := (Placed.mem_items _).1 hv
            exact (ih v hm (fun _ => .inr (List.cons_ne_nil _ _)) hfit).inside hm

/-- **What is nested in a union and fit makes the union fit.** -/
theorem compareOver_of_nests (hk : f.node.kind.isIndirect = false) (hunion : ∀ ns, f.node.kind ≠ .union ns)
    (hnests : n.Nests x) (h : ∀ fuel steps, compareOver fuel s f ⟨x, .right, steps⟩ = true) (fuel : Nat)
    (steps : List Step) : compareOver fuel s f ⟨n, .right, steps⟩ = true := by
  induction hnests generalizing fuel steps with
  | refl => exact h fuel steps
  | @inside ns m x hm _ ih =>
    cases fuel with
    | zero => rfl
    | succ fuel =>
      obtain ⟨v, hv, rfl⟩ := Placed.exists_mem_items ⟨.union ns, .right, steps⟩ 0 hm
      have hany : ((Placed.items ⟨.union ns, .right, steps⟩ 0 ns).any fun v => compareOver fuel s f v) = true := by
        refine List.any_eq_true.2 ⟨v, hv, ?_⟩
        obtain ⟨i, v, -, rfl⟩ := (Placed.mem_items _).1 hv
        exact ih h fuel _
      rw [compareOver, fitsStep_of_direct hk rfl, fitsSets_of_union_right rfl hunion, hany]
      simp [Node.union, Node.of, Node.isNever, Node.isPrimitive, Node.primitive?]

end Schemata
