import Schemata.Comparison
import Schemata.Proofs.Comparison.Values
import Schemata.Proofs.Node.Equivalence
/-!
# Nodes that comparisons do not tell apart

`Node.Matches`: two nodes have one kind, or equal kinds in which no NaN and no minus zero occurs.  Such nodes have one
form, and parts that match in turn (`Node.Matches.matched`); they admit the same names, stand for the same patterns and
cover the same literals.
-/
namespace Schemata

open List (Forall₂)

/-! ## Matching nodes -/

/-- Whether a literal is no NaN and no minus zero. -/
def Kind.isExact : Kind Node → Bool
  | .literal l => l.isPlain
  | _ => true

namespace Node

/-- **Whether neither NaN nor minus zero** is a literal of the tree. -/
def isExact (n : Node) : Bool := n.everywhere Kind.isExact

/-- **Nodes of one kind**, or of kinds that are equal and free of NaN and minus zero. -/
structure Matches (x y : Node) : Prop where
  left : x.isProper = true
  right : y.isProper = true
  kinds : x.kind = y.kind ∨ (x.isExact = true ∧ y.isExact = true ∧ sameKind x.kind y.kind = true)

/-- Parts that match, flags included. -/
def MatchesPart (x y : Node) : Prop := x.Matches y ∧ x.modifiers = y.modifiers

end Node

/-- **Fields that match**, name by name. -/
structure Fields.Matched (fs gs : Fields Node) : Prop where
  left : fs.Distinct
  right : gs.Distinct
  get? : ∀ name, Option.Rel Node.MatchesPart (fs.get? name) (gs.get? name)

/-- **Kinds of one form with matching parts.**  Of what is applied or bound only the form counts. -/
inductive Kind.Matched : Kind Node → Kind Node → Prop
  | primitive (p : Primitive) : Matched (.primitive p) (.primitive p)
  | literal (l : Literal) : Matched (.literal l) (.literal l)
  | array {x y : Node} (h : x.MatchesPart y) : Matched (.array x) (.array y)
  | tuple {xs ys : List Node} (h : Forall₂ Node.MatchesPart xs ys) (rest : Bool) : Matched (.tuple xs rest) (.tuple ys rest)
  | object {fs gs : Fields Node} (h : fs.Matched gs) : Matched (.object fs) (.object gs)
  | union {xs ys : List Node} (h : Forall₂ Node.MatchesPart xs ys) : Matched (.union xs) (.union ys)
  | intersect {xs ys : List Node} (h : Forall₂ Node.MatchesPart xs ys) : Matched (.intersect xs) (.intersect ys)
  | function {xs ys : List Node} {x y : Node} (h : Forall₂ Node.MatchesPart xs ys) (hr : x.MatchesPart y) :
    Matched (.function xs x) (.function ys y)
  | constructor {xs ys : List Node} {x y : Node} (h : Forall₂ Node.MatchesPart xs ys) (hr : x.MatchesPart y) :
    Matched (.constructor xs x) (.constructor ys y)
  | wrapper (w : Wrapper) {x y : Node} (h : x.MatchesPart y) : Matched (.wrapper w x) (.wrapper w y)
  | dictionary {x y v w : Node} (hk : x.MatchesPart y) (hv : v.MatchesPart w) : Matched (.dictionary x v) (.dictionary y w)
  | ref (name : String) : Matched (.ref name) (.ref name)
  | parameter (p q : Parameter Node) : Matched (.parameter p) (.parameter q)
  | generic (ps qs : List (Parameter Node)) (x y : Node) : Matched (.generic ps x) (.generic qs y)
  | call (x y : Node) (xs ys : List Node) : Matched (.call x xs) (.call y ys)
  | deferred (o o' : Operator) (xs ys : List Node) (a b : Annotations) : Matched (.deferred o xs a) (.deferred o' ys b)
  | cyclic {ds es : Fields Node} (h : ds.Matched es) (root : String) : Matched (.cyclic ds root) (.cyclic es root)
  | templatePattern {xs ys : List Node} (h : Forall₂ Node.MatchesPart xs ys) :
    Matched (.templatePattern xs) (.templatePattern ys)

namespace Node

variable {x x' y y' : Node}

theorem isExact_iff {n : Node} : n.isExact = true ↔ n.kind.isExact = true ∧ ∀ c ∈ n.kind.parts, c.isExact = true :=
  everywhere_iff

theorem Matches.refl (hx : x.isProper = true) : x.Matches x := ⟨hx, hx, .inl rfl⟩

theorem MatchesPart.refl (hx : x.isProper = true) : x.MatchesPart x := ⟨.refl hx, rfl⟩

theorem Matches.symm (h : x.Matches y) : y.Matches x :=
  ⟨h.right, h.left, h.kinds.imp Eq.symm fun ⟨hx, hy, hs⟩ => ⟨hy, hx, sameKind_symm h.left h.right hs⟩⟩

theorem Matches.of_kind_eq (hx : x.isProper = true) (hy : y.isProper = true) (h : x.kind = y.kind) : x.Matches y :=
  ⟨hx, hy, .inl h⟩

/-- Equal nodes without NaN and minus zero match. -/
theorem MatchesPart.of_sameAs (hx : x.isProper = true) (hy : y.isProper = true) (hxe : x.isExact = true)
    (hye : y.isExact = true) (h : sameAs x y = true) : x.MatchesPart y :=
  ⟨⟨hx, hy, .inr ⟨hxe, hye, sameKind_of_sameAs h⟩⟩, (sameAs_iff.1 h).2.1⟩

/-- **Matching nodes equal the same nodes**, up to matching. -/
theorem Matches.sameKind (hx : x.Matches x') (hy : y.Matches y') (h : sameKind x.kind y.kind = true) :
    Node.sameKind x'.kind y'.kind = true := by
  have hleft : Node.sameKind x'.kind y.kind = true := by
    rcases hx.kinds with hk | ⟨-, -, hs⟩
    · rwa [← hk]
    · exact sameKind_trans (sameKind_symm hx.left hx.right hs) h
  rcases hy.kinds with hk | ⟨-, -, hs⟩
  · rwa [← hk]
  · exact sameKind_trans hleft hs

/-! ### Parts -/

theorem SameFields.matched {fs gs : Fields Node} (h : SameFields fs gs) (hf : fs.Distinct) (hg : gs.Distinct)
    (hparts : ∀ c ∈ fs.map Prod.snd, ∀ d ∈ gs.map Prod.snd, sameAs c d = true → c.MatchesPart d) : fs.Matched gs := by
  refine ⟨hf, hg, fun name => ?_⟩
  have hname := h.get?_rel hf hg name
  cases hx : fs.get? name <;> cases hy : gs.get? name <;> rw [hx, hy] at hname <;> cases hname
  case none.none => exact .none
  case some.some hs =>
    exact .some (hparts _ (List.mem_map_of_mem (Fields.mem_of_get? hx)) _ (List.mem_map_of_mem (Fields.mem_of_get? hy)) hs)

theorem matched_self {fields : Fields Node} (h : fields.Distinct)
    (hparts : ∀ c ∈ fields.map Prod.snd, c.MatchesPart c) : fields.Matched fields := by
  refine ⟨h, h, fun name => ?_⟩
  cases hx : fields.get? name with
  | some x => exact .some (hparts _ (List.mem_map_of_mem (Fields.mem_of_get? hx)))
  | none => exact .none

end Node

theorem Kind.Matched.refl {kind : Kind Node} (h : kind.isProper = true) (hparts : ∀ c ∈ kind.parts, c.MatchesPart c) :
    Matched kind kind := by
  cases kind with
  | primitive p => exact .primitive p
  | literal l => exact .literal l
  | array item => exact .array (hparts _ List.mem_cons_self)
  | tuple items rest => exact .tuple (List.forall₂_same.2 hparts) rest
  | object fields => exact .object (Node.matched_self (distinct_of_object h) hparts)
  | union ns => exact .union (List.forall₂_same.2 hparts)
  | intersect ns => exact .intersect (List.forall₂_same.2 hparts)
  | function ns n | constructor ns n =>
    have hall := List.forall₂_same.2 fun c hc => hparts c (List.mem_append_left _ hc)
    have hresult := hparts n (List.mem_append_right _ List.mem_cons_self)
    first | exact .function hall hresult | exact .constructor hall hresult
  | wrapper w item => exact .wrapper w (hparts _ List.mem_cons_self)
  | dictionary key value =>
    exact .dictionary (hparts _ List.mem_cons_self) (hparts _ (List.mem_cons_of_mem _ List.mem_cons_self))
  | ref name => exact .ref name
  | parameter p => exact .parameter p p
  | generic ps n => exact .generic ps ps n n
  | call n ns => exact .call n n ns ns
  | deferred o ns a => exact .deferred o o ns ns a a
  | cyclic fields root => exact .cyclic (Node.matched_self (distinct_of_cyclic h) hparts) root
  | templatePattern ns => exact .templatePattern (List.forall₂_same.2 hparts)

theorem forall₂_of_mem {α β : Type} {R S : α → β → Prop} {xs : List α} {ys : List β} (h : Forall₂ R xs ys)
    (hrel : ∀ x ∈ xs, ∀ y ∈ ys, R x y → S x y) : Forall₂ S xs ys := by
  induction h with
  | nil => exact .nil
  | cons hxy _ ih =>
    exact .cons (hrel _ List.mem_cons_self _ List.mem_cons_self hxy)
      (ih fun x hx y hy => hrel x (List.mem_cons_of_mem _ hx) y (List.mem_cons_of_mem _ hy))

theorem Node.SameKind.matched {k k' : Kind Node} (h : SameKind k k') (hk : k.isProper = true) (hk' : k'.isProper = true)
    (he : k.isExact = true) (he' : k'.isExact = true)
    (hparts : ∀ c ∈ k.parts, ∀ d ∈ k'.parts, sameAs c d = true → c.MatchesPart d) : Kind.Matched k k' := by
  cases h with
  | primitive p => exact .primitive p
  | literal hl =>
    cases Literal.eq_of_same he he' hl
    exact .literal _
  | array hs => exact .array (hparts _ List.mem_cons_self _ List.mem_cons_self hs)
  | tuple hs rest => exact .tuple (forall₂_of_mem hs hparts) rest
  | object hs => exact .object (hs.matched (Kind.distinct_of_object hk) (Kind.distinct_of_object hk') hparts)
  | union hs => exact .union (forall₂_of_mem hs hparts)
  | intersect hs => exact .intersect (forall₂_of_mem hs hparts)
  | function hs hr | constructor hs hr =>
    have hall := forall₂_of_mem hs fun c hc d hd => hparts c (List.mem_append_left _ hc) d (List.mem_append_left _ hd)
    have hresult := hparts _ (List.mem_append_right _ List.mem_cons_self) _ (List.mem_append_right _ List.mem_cons_self) hr
    first | exact .function hall hresult | exact .constructor hall hresult
  | wrapper w hs => exact .wrapper w (hparts _ List.mem_cons_self _ List.mem_cons_self hs)
  | dictionary hkey hvalue =>
    exact .dictionary (hparts _ List.mem_cons_self _ List.mem_cons_self hkey)
      (hparts _ (List.mem_cons_of_mem _ List.mem_cons_self) _ (List.mem_cons_of_mem _ List.mem_cons_self) hvalue)
  | ref name => exact .ref name
  | parameter => exact .parameter _ _
  | generic => exact .generic _ _ _ _
  | call => exact .call _ _ _ _
  | deferred => exact .deferred _ _ _ _ _ _
  | cyclic hs root =>
    exact .cyclic (hs.matched (Kind.distinct_of_cyclic hk) (Kind.distinct_of_cyclic hk') hparts) root
  | templatePattern hs => exact .templatePattern (forall₂_of_mem hs hparts)

/-- **Matching nodes have one form and matching parts.** -/
theorem Node.Matches.matched {x y : Node} (h : x.Matches y) : Kind.Matched x.kind y.kind := by
  obtain ⟨hxk, -, hxp⟩ := isProper_iff.1 h.left
  obtain ⟨hyk, -, hyp⟩ := isProper_iff.1 h.right
  rcases h.kinds with hk | ⟨hxe, hye, hs⟩
  · rw [← hk]
    exact .refl hxk fun c hc => .refl (hxp c hc)
  · obtain ⟨hxe, hxpe⟩ := isExact_iff.1 hxe
    obtain ⟨hye, hype⟩ := isExact_iff.1 hye
    exact (sameKind_iff.1 hs).matched hxk hyk hxe hye fun c hc d hd hcd =>
      .of_sameAs (hxp c hc) (hyp d hd) (hxpe c hc) (hype d hd) hcd

/-! ## What matching nodes have in common -/

namespace Node

variable {x y : Node}

theorem Matches.primitive?_eq (h : x.Matches y) : x.primitive? = y.primitive? := by
  have hk := h.matched
  unfold primitive?
  generalize x.kind = k, y.kind = k' at hk
  cases hk <;> rfl

theorem Matches.isPrimitive_eq (h : x.Matches y) (p : Primitive) : x.isPrimitive p = y.isPrimitive p := by
  rw [isPrimitive, isPrimitive, h.primitive?_eq]

theorem Matches.isNever_eq (h : x.Matches y) : x.isNever = y.isNever := h.isPrimitive_eq .never

theorem Matches.literal?_eq (h : x.Matches y) : x.literal? = y.literal? := by
  have hk := h.matched
  unfold literal?
  generalize x.kind = k, y.kind = k' at hk
  cases hk <;> rfl

theorem any_eq_of_forall₂ {α β : Type} {f : α → Bool} {g : β → Bool} {xs : List α} {ys : List β}
    (h : Forall₂ (fun x y => f x = g y) xs ys) : xs.any f = ys.any g := by
  induction h with
  | nil => rfl
  | cons hxy _ ih => rw [List.any_cons, List.any_cons, hxy, ih]

theorem coversBoolean_eq {xs ys : List Node} (h : Forall₂ MatchesPart xs ys) : coversBoolean xs = coversBoolean ys := by
  have hany (l : Literal) : (xs.any fun x => x.literal? == some l) = ys.any fun y => y.literal? == some l :=
    any_eq_of_forall₂ (h.imp fun x y hxy => by rw [hxy.1.literal?_eq])
  simp only [coversBoolean, hany]

/-- **Matching nodes stand for one pattern.** -/
theorem Matches.ofNode_eq (h : x.Matches y) : Pattern.ofNode x = Pattern.ofNode y := by
  induction x using induction_on_parts generalizing y with
  | node x ih =>
    have hk := h.matched
    obtain ⟨kind, modifiers, annotations⟩ := x
    obtain ⟨kind', modifiers', annotations'⟩ := y
    have hall {xs ys : List Node} (hxs : ∀ c ∈ xs, c ∈ kind.parts) (h : Forall₂ MatchesPart xs ys) :
        xs.map Pattern.ofNode = ys.map Pattern.ofNode :=
      map_eq_of_forall₂ (forall₂_of_mem h fun c hc d _ hcd => ih c (hxs c hc) hcd.1)
    dsimp only at hk
    cases hk with
    | primitive p => cases p <;> simp only [Pattern.ofNode]
    | union hs =>
      simp only [Pattern.ofNode, Pattern.ofNodes_eq_map]
      exact congrArg Pattern.choice (hall (fun _ hc => hc) hs)
    | templatePattern hs =>
      simp only [Pattern.ofNode, Pattern.ofNodes_eq_map]
      exact congrArg Pattern.sequence (hall (fun _ hc => hc) hs)
    | _ => simp only [Pattern.ofNode]

theorem ofFragments_eq {xs ys : List Node} (h : Forall₂ MatchesPart xs ys) :
    Pattern.ofFragments xs = Pattern.ofFragments ys := by
  rw [Pattern.ofFragments, Pattern.ofFragments, Pattern.ofNodes_eq_map, Pattern.ofNodes_eq_map,
    map_eq_of_forall₂ (h.imp fun _ _ hxy => hxy.1.ofNode_eq)]

theorem anyAdmitsName_eq_any (name : String) (ns : List Node) : anyAdmitsName name ns = ns.any (admitsName name) := by
  induction ns with
  | nil => rfl
  | cons n ns ih => rw [anyAdmitsName, ih, List.any_cons]

/-- **Matching keys admit the same names.** -/
theorem Matches.admitsName_eq (h : x.Matches y) (name : String) : admitsName name x = admitsName name y := by
  induction x using induction_on_parts generalizing y with
  | node x ih =>
    have hk := h.matched
    obtain ⟨kind, modifiers, annotations⟩ := x
    obtain ⟨kind', modifiers', annotations'⟩ := y
    dsimp only at hk
    cases hk with
    | primitive p => cases p <;> simp only [admitsName]
    | union hs =>
      simp only [admitsName, anyAdmitsName_eq_any]
      exact any_eq_of_forall₂ (forall₂_of_mem hs fun c hc d _ hcd => ih c hc hcd.1)
    | templatePattern hs => simp only [admitsName, ofFragments_eq hs]
    | _ => simp only [admitsName]

end Node
end Schemata
