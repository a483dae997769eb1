import Schemata.Proofs.Node.Equality
import Schemata.Proofs.Node.Proper
/-!
# Equality of nodes is an equivalence

`Node.sameAs` is symmetric where names are held once (`Node.sameAs_symm`), and transitive (`Node.sameAs_trans`): so are the
equality of numbers, of literals and of annotations, and kinds follow part by part.
-/
namespace Schemata

open List (Forall₂)

/-! ## Lists -/

theorem forall₂_symm_of_mem {α : Type} {R : α → α → Prop} {xs ys : List α} (h : Forall₂ R xs ys)
    (hsymm : ∀ x ∈ xs, ∀ y ∈ ys, R x y → R y x) : Forall₂ R ys xs := by
  induction h with
  | nil => exact .nil
  | cons hxy _ ih =>
    exact .cons (hsymm _ List.mem_cons_self _ List.mem_cons_self hxy)
      (ih fun x hx y hy => hsymm x (List.mem_cons_of_mem _ hx) y (List.mem_cons_of_mem _ hy))

theorem forall₂_trans_of_mem {α : Type} {R : α → α → Prop} {xs ys zs : List α} (h : Forall₂ R xs ys)
    (h' : Forall₂ R ys zs) (htrans : ∀ x ∈ xs, ∀ y z, R x y → R y z → R x z) : Forall₂ R xs zs := by
  induction h generalizing zs with
  | nil =>
    cases h'
    exact .nil
  | cons hxy _ ih =>
    cases h' with
    | cons hyz h' =>
      exact .cons (htrans _ List.mem_cons_self _ _ hxy hyz) (ih h' fun x hx => htrans x (List.mem_cons_of_mem _ hx))

/-! ## Values -/

namespace Number

variable {x y z : Number}

theorem sameAs_symm (h : x.sameAs y = true) : y.sameAs x = true := by
  cases x <;> cases y <;> simp only [sameAs, Bool.and_eq_true, Bool.or_eq_true, beq_iff_eq, Bool.false_eq_true] at h ⊢
  case infinite.infinite => exact h.symm
  case finite.finite =>
    obtain ⟨⟨hm, he⟩, hs⟩ := h
    exact ⟨⟨hm.symm, he.symm⟩, hs.imp Eq.symm fun h => hm ▸ h⟩

theorem sameAs_trans (h : x.sameAs y = true) (h' : y.sameAs z = true) : x.sameAs z = true := by
  cases x <;> cases y <;> simp only [sameAs, Bool.and_eq_true, Bool.or_eq_true, beq_iff_eq, Bool.false_eq_true] at h <;>
    cases z <;> simp only [sameAs, Bool.and_eq_true, Bool.or_eq_true, beq_iff_eq, Bool.false_eq_true] at h' ⊢
  case infinite.infinite.infinite => exact h.trans h'
  case finite.finite.finite =>
    obtain ⟨⟨hm, he⟩, hs⟩ := h
    obtain ⟨⟨hm', he'⟩, hs'⟩ := h'
    refine ⟨⟨hm.trans hm', he.trans he'⟩, ?_⟩
    rcases hs with hs | hs
    · rcases hs' with hs' | hs'
      · exact .inl (hs.trans hs')
      · exact .inr (hm ▸ hs')
    · exact .inr hs

end Number

namespace Literal

variable {l l' l'' : Literal}

theorem sameAs_symm (h : l.sameAs l' = true) : l'.sameAs l = true := by
  cases l <;> cases l' <;> first | cases h | skip
  case string => exact beq_iff_eq.2 (beq_iff_eq.1 h).symm
  case number => exact Number.sameAs_symm h
  case boolean => exact beq_iff_eq.2 (beq_iff_eq.1 h).symm

theorem sameAs_trans (h : l.sameAs l' = true) (h' : l'.sameAs l'' = true) : l.sameAs l'' = true := by
  cases l <;> cases l' <;> first | cases h | skip
  all_goals cases l'' <;> first | cases h' | skip
  case string => exact beq_iff_eq.2 ((beq_iff_eq.1 h).trans (beq_iff_eq.1 h'))
  case number => exact Number.sameAs_trans h h'
  case boolean => exact beq_iff_eq.2 ((beq_iff_eq.1 h).trans (beq_iff_eq.1 h'))

end Literal

namespace Json

variable {x y z : Json}

theorem sameItems_iff {xs ys : List Json} : sameItems xs ys = true ↔ Forall₂ (fun x y => sameAs x y = true) xs ys := by
  induction xs generalizing ys with
  | nil => cases ys <;> simp [sameItems]
  | cons x xs ih => cases ys <;> simp [sameItems, ih]

theorem sameFields_iff {fs gs : List (String × Json)} :
    sameFields fs gs = true ↔ Forall₂ (fun e f => e.1 = f.1 ∧ sameAs e.2 f.2 = true) fs gs := by
  induction fs generalizing gs with
  | nil => cases gs <;> simp [sameFields]
  | cons e fs ih =>
    obtain ⟨name, x⟩ := e
    cases gs <;> simp [sameFields, ih, and_assoc]

theorem sameAs_symm (h : x.sameAs y = true) : y.sameAs x = true := by
  induction x using induction_on_parts generalizing y with
  | array xs ih =>
    cases y <;> first | cases h | skip
    rw [sameAs, sameItems_iff] at h ⊢
    exact forall₂_symm_of_mem h fun x hx _ _ hs => ih x hx hs
  | object fs ih =>
    cases y <;> first | cases h | skip
    rw [sameAs, sameFields_iff] at h ⊢
    exact forall₂_symm_of_mem h fun e he _ _ hs => ⟨hs.1.symm, ih e he hs.2⟩
  | number x =>
    cases y <;> first | cases h | skip
    exact Number.sameAs_symm h
  | _ =>
    cases y <;> first | cases h | skip
    all_goals first | rfl | exact beq_iff_eq.2 (beq_iff_eq.1 h).symm

theorem sameAs_trans (h : x.sameAs y = true) (h' : y.sameAs z = true) : x.sameAs z = true := by
  induction x using induction_on_parts generalizing y z with
  | array xs ih =>
    cases y <;> first | cases h | skip
    cases z <;> first | cases h' | skip
    rw [sameAs, sameItems_iff] at h h' ⊢
    exact forall₂_trans_of_mem h h' fun x hx _ _ hs hs' => ih x hx hs hs'
  | object fs ih =>
    cases y <;> first | cases h | skip
    cases z <;> first | cases h' | skip
    rw [sameAs, sameFields_iff] at h h' ⊢
    exact forall₂_trans_of_mem h h' fun e he _ _ hs hs' => ⟨hs.1.trans hs'.1, ih e he hs.2 hs'.2⟩
  | number x =>
    cases y <;> first | cases h | skip
    cases z <;> first | cases h' | skip
    exact Number.sameAs_trans h h'
  | _ =>
    cases y <;> first | cases h | skip
    cases z <;> first | cases h' | skip
    all_goals first | rfl | exact beq_iff_eq.2 ((beq_iff_eq.1 h).trans (beq_iff_eq.1 h'))

end Json

/-! ## Nodes -/

namespace Node

theorem SameParameter.symm_of {p q : Parameter Node} (h : SameParameter p q)
    (ih : ∀ c ∈ p.parts, ∀ d ∈ q.parts, sameAs c d = true → sameAs d c = true) : SameParameter q p :=
  ⟨h.1.symm, ih _ List.mem_cons_self _ List.mem_cons_self h.2.1,
    ih _ (List.mem_cons_of_mem _ List.mem_cons_self) _ (List.mem_cons_of_mem _ List.mem_cons_self) h.2.2⟩

theorem SameParameter.trans_of {p q r : Parameter Node} (h : SameParameter p q) (h' : SameParameter q r)
    (ih : ∀ c ∈ p.parts, ∀ d e, sameAs c d = true → sameAs d e = true → sameAs c e = true) : SameParameter p r :=
  ⟨h.1.trans h'.1, ih _ List.mem_cons_self _ _ h.2.1 h'.2.1,
    ih _ (List.mem_cons_of_mem _ List.mem_cons_self) _ _ h.2.2 h'.2.2⟩

theorem SameFields.symm_of {fs gs : Fields Node} (h : SameFields fs gs) (hf : fs.Distinct) (hg : gs.Distinct)
    (ih : ∀ c ∈ fs.map Prod.snd, ∀ d ∈ gs.map Prod.snd, sameAs c d = true → sameAs d c = true) : SameFields gs fs := by
  refine ⟨h.1.symm, fun e he => ?_⟩
  obtain ⟨x, hx, hs⟩ := h.exists_left hf hg he
  exact ⟨x, Fields.get?_of_mem hf hx, ih _ (List.mem_map_of_mem hx) _ (List.mem_map_of_mem he) hs⟩

theorem SameFields.trans_of {fs gs hs : Fields Node} (h : SameFields fs gs) (h' : SameFields gs hs)
    (ih : ∀ c ∈ fs.map Prod.snd, ∀ d e, sameAs c d = true → sameAs d e = true → sameAs c e = true) :
    SameFields fs hs := by
  refine ⟨h.1.trans h'.1, fun e he => ?_⟩
  obtain ⟨y, hy, hxy⟩ := h.2 e he
  obtain ⟨z, hz, hyz⟩ := h'.2 _ (Fields.mem_of_get? hy)
  exact ⟨z, hz, ih _ (List.mem_map_of_mem he) _ _ hxy hyz⟩

theorem mem_flatMap_parts {ps : List (Parameter Node)} {p : Parameter Node} (hp : p ∈ ps) {c : Node} (hc : c ∈ p.parts) :
    c ∈ ps.flatMap Parameter.parts := List.mem_flatMap.2 ⟨p, hp, hc⟩

theorem SameKind.symm_of {k k' : Kind Node} (h : SameKind k k') (hk : k.isProper = true) (hk' : k'.isProper = true)
    (ih : ∀ c ∈ k.parts, ∀ d ∈ k'.parts, sameAs c d = true → sameAs d c = true) : SameKind k' k := by
  cases h with
  | primitive p => exact .primitive p
  | literal hl => exact .literal (Literal.sameAs_symm hl)
  | array hs => exact .array (ih _ List.mem_cons_self _ List.mem_cons_self hs)
  | tuple hs rest => exact .tuple (forall₂_symm_of_mem hs ih) rest
  | object hs =>
    exact .object (hs.symm_of (Kind.distinct_of_object hk) (Kind.distinct_of_object hk') ih)
  | union hs => exact .union (forall₂_symm_of_mem hs ih)
  | intersect hs => exact .intersect (forall₂_symm_of_mem hs ih)
  | function hs hr | constructor hs hr =>
    have hall := forall₂_symm_of_mem hs fun c hc d hd =>
      ih c (List.mem_append_left _ hc) d (List.mem_append_left _ hd)
    have hresult := ih _ (List.mem_append_right _ List.mem_cons_self) _ (List.mem_append_right _ List.mem_cons_self) hr
    first | exact .function hall hresult | exact .constructor hall hresult
  | wrapper w hs => exact .wrapper w (ih _ List.mem_cons_self _ List.mem_cons_self hs)
  | dictionary hkey hvalue =>
    exact .dictionary (ih _ List.mem_cons_self _ List.mem_cons_self hkey)
      (ih _ (List.mem_cons_of_mem _ List.mem_cons_self) _ (List.mem_cons_of_mem _ List.mem_cons_self) hvalue)
  | ref name => exact .ref name
  | parameter hs => exact .parameter (hs.symm_of ih)
  | generic hs hb =>
    exact .generic
      (forall₂_symm_of_mem hs fun p hp q hq hs => hs.symm_of fun c hc d hd =>
        ih c (List.mem_append_left _ (mem_flatMap_parts hp hc)) d (List.mem_append_left _ (mem_flatMap_parts hq hd)))
      (ih _ (List.mem_append_right _ List.mem_cons_self) _ (List.mem_append_right _ List.mem_cons_self) hb)
  | call ht hs =>
    exact .call (ih _ List.mem_cons_self _ List.mem_cons_self ht)
      (forall₂_symm_of_mem hs fun c hc d hd => ih c (List.mem_cons_of_mem _ hc) d (List.mem_cons_of_mem _ hd))
  | deferred o hs ha =>
    exact .deferred o (forall₂_symm_of_mem hs ih) (Json.sameAs_symm (x := .object _) (y := .object _) ha)
  | cyclic hs root =>
    exact .cyclic (hs.symm_of (Kind.distinct_of_cyclic hk) (Kind.distinct_of_cyclic hk') ih) root
  | templatePattern hs => exact .templatePattern (forall₂_symm_of_mem hs ih)

theorem SameKind.trans_of {k k' k'' : Kind Node} (h : SameKind k k') (h' : SameKind k' k'')
    (ih : ∀ c ∈ k.parts, ∀ d e, sameAs c d = true → sameAs d e = true → sameAs c e = true) : SameKind k k'' := by
  cases h with
  | primitive p => exact h'
  | literal hl => cases h' with | literal hl' => exact .literal (Literal.sameAs_trans hl hl')
  | array hs => cases h' with | array hs' => exact .array (ih _ List.mem_cons_self _ _ hs hs')
  | tuple hs rest => cases h' with | tuple hs' => exact .tuple (forall₂_trans_of_mem hs hs' ih) rest
  | object hs => cases h' with | object hs' => exact .object (hs.trans_of hs' ih)
  | union hs => cases h' with | union hs' => exact .union (forall₂_trans_of_mem hs hs' ih)
  | intersect hs => cases h' with | intersect hs' => exact .intersect (forall₂_trans_of_mem hs hs' ih)
  | function hs hr =>
    cases h' with
    | function hs' hr' =>
      exact .function (forall₂_trans_of_mem hs hs' fun c hc => ih c (List.mem_append_left _ hc))
        (ih _ (List.mem_append_right _ List.mem_cons_self) _ _ hr hr')
  | constructor hs hr =>
    cases h' with
    | constructor hs' hr' =>
      exact .constructor (forall₂_trans_of_mem hs hs' fun c hc => ih c (List.mem_append_left _ hc))
        (ih _ (List.mem_append_right _ List.mem_cons_self) _ _ hr hr')
  | wrapper w hs => cases h' with | wrapper _ hs' => exact .wrapper w (ih _ List.mem_cons_self _ _ hs hs')
  | dictionary hkey hvalue =>
    cases h' with
    | dictionary hkey' hvalue' =>
      exact .dictionary (ih _ List.mem_cons_self _ _ hkey hkey')
        (ih _ (List.mem_cons_of_mem _ List.mem_cons_self) _ _ hvalue hvalue')
  | ref name => exact h'
  | parameter hs => cases h' with | parameter hs' => exact .parameter (hs.trans_of hs' ih)
  | generic hs hb =>
    cases h' with
    | generic hs' hb' =>
      exact .generic
        (forall₂_trans_of_mem hs hs' fun p hp _ _ hs hs' => hs.trans_of hs' fun c hc =>
          ih c (List.mem_append_left _ (mem_flatMap_parts hp hc)))
        (ih _ (List.mem_append_right _ List.mem_cons_self) _ _ hb hb')
  | call ht hs =>
    cases h' with
    | call ht' hs' =>
      exact .call (ih _ List.mem_cons_self _ _ ht ht')
        (forall₂_trans_of_mem hs hs' fun c hc => ih c (List.mem_cons_of_mem _ hc))
  | deferred o hs ha =>
    cases h' with
    | deferred _ hs' ha' =>
      exact .deferred o (forall₂_trans_of_mem hs hs' ih)
        (Json.sameAs_trans (x := .object _) (y := .object _) (z := .object _) ha ha')
  | cyclic hs root => cases h' with | cyclic hs' => exact .cyclic (hs.trans_of hs' ih) root
  | templatePattern hs => cases h' with | templatePattern hs' => exact .templatePattern (forall₂_trans_of_mem hs hs' ih)

/-- **Equality of nodes is symmetric** where names are held once. -/
theorem sameAs_symm {x y : Node} (hx : x.isProper = true) (hy : y.isProper = true) (h : sameAs x y = true) :
    sameAs y x = true := by
  induction x using induction_on_parts generalizing y with
  | node x ih =>
    obtain ⟨hxk, -, hxp⟩ := isProper_iff.1 hx
    obtain ⟨hyk, -, hyp⟩ := isProper_iff.1 hy
    obtain ⟨hk, hm, ha⟩ := sameAs_iff.1 h
    exact sameAs_iff.2 ⟨hk.symm_of hxk hyk fun c hc d hd => ih c hc (hxp c hc) (hyp d hd), hm.symm,
      Json.sameAs_symm (x := .object _) (y := .object _) ha⟩

/-- **Equality of nodes is transitive.** -/
theorem sameAs_trans {x y z : Node} (h : sameAs x y = true) (h' : sameAs y z = true) : sameAs x z = true := by
  induction x using induction_on_parts generalizing y z with
  | node x ih =>
    obtain ⟨hk, hm, ha⟩ := sameAs_iff.1 h
    obtain ⟨hk', hm', ha'⟩ := sameAs_iff.1 h'
    exact sameAs_iff.2 ⟨hk.trans_of hk' fun c hc _ _ => ih c hc, hm.trans hm',
      Json.sameAs_trans (x := .object _) (y := .object _) (z := .object _) ha ha'⟩

theorem sameKind_symm {x y : Node} (hx : x.isProper = true) (hy : y.isProper = true)
    (h : sameKind x.kind y.kind = true) : sameKind y.kind x.kind = true := by
  obtain ⟨hxk, -, hxp⟩ := isProper_iff.1 hx
  obtain ⟨hyk, -, hyp⟩ := isProper_iff.1 hy
  exact sameKind_iff.2 ((sameKind_iff.1 h).symm_of hxk hyk fun c hc d hd => sameAs_symm (hxp c hc) (hyp d hd))

theorem sameKind_trans {k k' k'' : Kind Node} (h : sameKind k k' = true) (h' : sameKind k' k'' = true) :
    sameKind k k'' = true :=
  sameKind_iff.2 ((sameKind_iff.1 h).trans_of (sameKind_iff.1 h') fun _ _ _ _ => sameAs_trans)

end Node
end Schemata
