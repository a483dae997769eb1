import Schemata.Proofs.Comparison.Relocation
import Schemata.Proofs.Node.Names
/-!
# Comparisons and equality

Equality of nodes goes by names: it does not see in which order the properties of objects and the definitions of bundles
stand, at any depth (`Node.Reorders.sameAs_trans`).  A comparison does not see it either, anywhere in what it compares:
equal nodes without NaN and minus zero match, and matching nodes are compared alike (`Node.Matches.fits_eq`).

Main statement: `Node.fits_eq_of_sameAs`.
-/
namespace Schemata

open List (Forall₂)

/-! ## Reordering -/

/-- **A form with its fields in another order**; forms without fields stay. -/
inductive Kind.Permutes {α : Type} : Kind α → Kind α → Prop
  | refl (k : Kind α) : Permutes k k
  | object {fs gs : Fields α} (h : fs.Perm gs) : Permutes (.object fs) (.object gs)
  | cyclic {ds es : Fields α} (h : ds.Perm es) (root : String) : Permutes (.cyclic ds root) (.cyclic es root)

/-- **A node with properties and definitions in another order**, its own and those of its parts: `k` has each part
beside what that is reordered to. -/
inductive Node.Reorders : Node → Node → Prop
  | node (k : Kind (Node × Node)) (hparts : ∀ p ∈ k.parts, Reorders p.1 p.2) {k' : Kind Node}
    (h : (k.map Prod.snd).Permutes k') (modifiers : Modifiers) (annotations : Annotations) :
    Reorders ⟨k.map Prod.fst, modifiers, annotations⟩ ⟨k', modifiers, annotations⟩

namespace Kind

variable {α β : Type} {k k' : Kind α}

theorem isProper_map (f : α → β) (k : Kind α) : (k.map f).isProper = k.isProper := by
  cases k <;> simp [isProper, map, Function.comp_def]

theorem Permutes.isProper (h : k.Permutes k') (hk : k.isProper = true) : k'.isProper = true := by
  cases h with
  | refl => exact hk
  | object h | cyclic h =>
    rw [Kind.isProper, decide_eq_true_eq] at hk ⊢
    exact (h.map Prod.fst).nodup hk

theorem Permutes.mem_parts_iff (h : k.Permutes k') {c : α} : c ∈ k'.parts ↔ c ∈ k.parts := by
  cases h with
  | refl => exact Iff.rfl
  | object h | cyclic h => exact (h.map Prod.snd).mem_iff.symm

/-- Every part of a reordered form is what some part was reordered to. -/
theorem Permutes.exists_pair {k : Kind (β × α)} (h : (k.map Prod.snd).Permutes k') {c : α} (hc : c ∈ k'.parts) :
    ∃ p ∈ k.parts, p.2 = c := by
  rw [h.mem_parts_iff, parts_map] at hc
  exact List.mem_map.1 hc

theorem map_map_diagonal (f : α × α → α) (hf : ∀ c, f (c, c) = c) (k : Kind α) :
    (k.map fun c => (c, c)).map f = k := by
  cases k <;> simp [map, Function.comp_def, hf]

theorem Permutes.isExact {k k' : Kind Node} (h : k.Permutes k') (hk : k.isExact = true) : k'.isExact = true := by
  cases h with
  | refl => exact hk
  | object | cyclic => rfl

end Kind

namespace Node

variable {x y : Node}

/-- A node with its own fields in another order, and all its parts as they are. -/
theorem Reorders.of_permutes {k k' : Kind Node} (hparts : ∀ c ∈ k.parts, c.Reorders c) (h : k.Permutes k')
    (modifiers : Modifiers) (annotations : Annotations) :
    Reorders ⟨k, modifiers, annotations⟩ ⟨k', modifiers, annotations⟩ := by
  have hfst : (k.map fun c => (c, c)).map Prod.fst = k := Kind.map_map_diagonal _ (fun _ => rfl) k
  have hsnd : (k.map fun c => (c, c)).map Prod.snd = k := Kind.map_map_diagonal _ (fun _ => rfl) k
  have hk := node (k.map fun c => (c, c)) (fun p hp => ?_) (hsnd.symm ▸ h) modifiers annotations
  · rwa [hfst] at hk
  · rw [Kind.parts_map] at hp
    obtain ⟨c, hc, rfl⟩ := List.mem_map.1 hp
    exact hparts c hc

theorem Reorders.refl (n : Node) : n.Reorders n := by
  induction n using induction_on_parts with
  | node n ih =>
    obtain ⟨kind, modifiers, annotations⟩ := n
    exact of_permutes ih (.refl kind) modifiers annotations

/-- **What holds of a tree holds of it in another order**, if it says something of each node alone that does not see the
order of its fields. -/
theorem Reorders.throughout {P Q : Node → Prop} (hP : ∀ n, P n ↔ Q n ∧ ∀ c ∈ n.kind.parts, P c)
    (hQ : ∀ (k : Kind (Node × Node)) (k' : Kind Node) (m : Modifiers) (a : Annotations),
      (k.map Prod.snd).Permutes k' → Q ⟨k.map Prod.fst, m, a⟩ → Q ⟨k', m, a⟩)
    (h : x.Reorders y) (hx : P x) : P y := by
  induction h with
  | node k _ hperm modifiers annotations ih =>
    obtain ⟨hown, hparts⟩ := (hP _).1 hx
    refine (hP _).2 ⟨hQ _ _ _ _ hperm hown, fun c hc => ?_⟩
    obtain ⟨p, hp, rfl⟩ := hperm.exists_pair hc
    rw [Kind.parts_map, List.forall_mem_map] at hparts
    exact ih p hp (hparts p hp)

theorem Reorders.isProper (h : x.Reorders y) (hx : x.isProper = true) : y.isProper = true := by
  refine h.throughout (P := fun n => n.isProper = true) (fun n => isProper_iff.trans and_assoc.symm) ?_ hx
  rintro k k' m a hperm ⟨hk, ha⟩
  rw [Kind.isProper_map] at hk
  exact ⟨hperm.isProper (by rwa [Kind.isProper_map]), ha⟩

theorem Reorders.isExact (h : x.Reorders y) (hx : x.isExact = true) : y.isExact = true := by
  refine h.throughout (P := fun n => n.isExact = true) (fun n => isExact_iff) ?_ hx
  rintro k k' m a hperm hk
  exact hperm.isExact (by cases k <;> first | rfl | exact hk)

/-! ## Reordered nodes are equal -/

/-- Fields that are equal to others are equal to these in another order. -/
theorem SameFields.perm {fs gs gs' : Fields Node} (h : SameFields fs gs) (hg : gs.Distinct) (hperm : gs.Perm gs') :
    SameFields fs gs' := by
  have hg' : Fields.Distinct gs' := (hperm.map Prod.fst).nodup hg
  refine ⟨h.1.trans hperm.length_eq, fun e he => ?_⟩
  obtain ⟨y, hy, hs⟩ := h.2 e he
  exact ⟨y, Fields.get?_of_mem hg' (hperm.mem_iff.1 (Fields.mem_of_get? hy)), hs⟩

theorem SameKind.permutes {k k' k'' : Kind Node} (h : SameKind k k') (hk : k'.isProper = true)
    (hperm : k'.Permutes k'') : SameKind k k'' := by
  cases hperm with
  | refl => exact h
  | object hp => cases h with | object hs => exact .object (hs.perm (Kind.distinct_of_object hk) hp)
  | cyclic hp => cases h with | cyclic hs => exact .cyclic (hs.perm (Kind.distinct_of_cyclic hk) hp) _

section
variable {k : Kind Node} {k' : Kind (Node × Node)}

theorem forall₂_of_pairs {α β : Type} {R : α → β → Prop} {xs : List α} {ps : List (β × β)}
    (h : Forall₂ R xs (ps.map Prod.fst)) (hparts : ∀ p ∈ ps, ∀ x, R x p.1 → R x p.2) :
    Forall₂ R xs (ps.map Prod.snd) := by
  rw [List.forall₂_map_right_iff] at h ⊢
  exact forall₂_of_mem h fun x _ p hp => hparts p hp x

theorem SameFields.of_pairs {fs : Fields Node} {ps : Fields (Node × Node)}
    (h : SameFields fs (ps.mapValues Prod.fst))
    (hparts : ∀ p ∈ ps.map Prod.snd, ∀ x, sameAs x p.1 = true → sameAs x p.2 = true) :
    SameFields fs (ps.mapValues Prod.snd) := by
  obtain ⟨hlength, h⟩ := h
  refine ⟨by simpa only [Fields.mapValues, List.length_map] using hlength, fun e he => ?_⟩
  obtain ⟨y, hy, hs⟩ := h e he
  rw [Fields.get?_mapValues, Option.map_eq_some_iff] at hy
  obtain ⟨p, hp, rfl⟩ := hy
  rw [Fields.get?_mapValues, hp]
  exact ⟨p.2, rfl, hparts p (List.mem_map_of_mem (Fields.mem_of_get? hp)) _ hs⟩

/-- **What equals a form equals it with other parts**, where what equals a part equals that by which it is replaced. -/
theorem SameKind.of_pairs (h : SameKind k (k'.map Prod.fst))
    (hparts : ∀ p ∈ k'.parts, ∀ x, sameAs x p.1 = true → sameAs x p.2 = true) : SameKind k (k'.map Prod.snd) := by
  -- A parameter has two parts; its name is no part, and stays.
  have hparameter {p : Parameter Node} {q : Parameter (Node × Node)}
      (hq : ∀ r ∈ q.parts, ∀ x, sameAs x r.1 = true → sameAs x r.2 = true)
      (h : SameParameter p ⟨q.name, q.constraint.1, q.default.1⟩) :
      SameParameter p ⟨q.name, q.constraint.2, q.default.2⟩ :=
    ⟨h.1, hq _ List.mem_cons_self _ h.2.1, hq _ (List.mem_cons_of_mem _ List.mem_cons_self) _ h.2.2⟩
  cases k' with
  | primitive | literal | ref => exact h
  | array => cases h with | array hs => exact .array (hparts _ List.mem_cons_self _ hs)
  | tuple _ rest => cases h with | tuple hs => exact .tuple (forall₂_of_pairs hs hparts) rest
  | object => cases h with | object hs => exact .object (hs.of_pairs hparts)
  | union => cases h with | union hs => exact .union (forall₂_of_pairs hs hparts)
  | intersect => cases h with | intersect hs => exact .intersect (forall₂_of_pairs hs hparts)
  | function =>
    cases h with
    | function hs hr =>
      exact .function (forall₂_of_pairs hs fun p hp => hparts p (List.mem_append_left _ hp))
        (hparts _ (List.mem_append_right _ List.mem_cons_self) _ hr)
  | constructor =>
    cases h with
    | constructor hs hr =>
      exact .constructor (forall₂_of_pairs hs fun p hp => hparts p (List.mem_append_left _ hp))
        (hparts _ (List.mem_append_right _ List.mem_cons_self) _ hr)
  | wrapper w => cases h with | wrapper _ hs => exact .wrapper w (hparts _ List.mem_cons_self _ hs)
  | dictionary =>
    cases h with
    | dictionary hkey hvalue =>
      exact .dictionary (hparts _ List.mem_cons_self _ hkey)
        (hparts _ (List.mem_cons_of_mem _ List.mem_cons_self) _ hvalue)
  | parameter => cases h with | parameter hs => exact .parameter (hparameter hparts hs)
  | generic ps body =>
    cases h with
    | generic hs hb =>
      rw [List.forall₂_map_right_iff] at hs
      refine .generic (List.forall₂_map_right_iff.2 (forall₂_of_mem hs fun p _ q hq => hparameter fun r hr => ?_))
        (hparts _ (List.mem_append_right _ List.mem_cons_self) _ hb)
      exact hparts r (List.mem_append_left _ (List.mem_flatMap.2 ⟨q, hq, hr⟩))
  | call =>
    cases h with
    | call ht hs =>
      exact .call (hparts _ List.mem_cons_self _ ht)
        (forall₂_of_pairs hs fun p hp => hparts p (List.mem_cons_of_mem _ hp))
  | deferred o => cases h with | deferred _ hs ha => exact .deferred o (forall₂_of_pairs hs hparts) ha
  | cyclic _ root => cases h with | cyclic hs => exact .cyclic (hs.of_pairs hparts) root
  | templatePattern => cases h with | templatePattern hs => exact .templatePattern (forall₂_of_pairs hs hparts)

end

/-- **What equals a node equals it in any other order.** -/
theorem Reorders.sameAs_trans (h : x.Reorders y) (hx : x.isProper = true) {n : Node} (hn : sameAs n x = true) :
    sameAs n y = true := by
  induction h generalizing n with
  -- First the parts are replaced under their names, then the fields change places.
  | node k _ hperm modifiers annotations ih =>
    obtain ⟨hkp, -, hparts⟩ := isProper_iff.1 hx
    obtain ⟨hk, hm, ha⟩ := sameAs_iff.1 hn
    rw [Kind.parts_map, List.forall_mem_map] at hparts
    have hpairs := hk.of_pairs fun p hp n hn => ih p hp (hparts p hp) hn
    rw [Kind.isProper_map] at hkp
    exact sameAs_iff.2 ⟨hpairs.permutes (by rwa [Kind.isProper_map]) hperm, hm, ha⟩

/-! ## Comparisons -/

/-- Equal kinds are seen to fit, wherever they stand. -/
theorem compareWithin_of_sameKind (fuel : Nat) {s : Surroundings} {p q : Place} (h : sameKind x.kind y.kind = true) :
    compareWithin (fuel + 1) s ⟨x, p⟩ ⟨y, q⟩ = true := by
  simp only [compareWithin, fitsStep, Placed.kind, h, Bool.true_or]

/-- A node fits itself, as it fits its equals. -/
theorem fitsItself_eq_fits (hx : x.isProper = true) (hy : y.isProper = true) (h : sameAs x y = true) :
    x.fitsItself = x.fits y := by
  have hk := sameKind_of_sameAs h
  have hself : sameKind x.kind x.kind = true := sameKind_trans hk (sameKind_symm hx hy hk)
  exact (compareWithin_of_sameKind 255 hself).trans (compareWithin_of_sameKind 255 hk).symm

/-- A node matches what an equal node is reordered to. -/
theorem Reorders.matches (h : x.Reorders y) {n : Node} (hproper : n.isProper = true ∧ x.isProper = true)
    (hexact : n.isExact = true ∧ x.isExact = true) (hn : sameAs n x = true) : n.Matches y :=
  (MatchesPart.of_sameAs hproper.1 (h.isProper hproper.2) hexact.1 (h.isExact hexact.2) (h.sameAs_trans hproper.2 hn)).1

end Node

/-- **Equal nodes are compared alike**, also where both sides are one and the same input, and so are nodes with
properties and definitions in another order, anywhere. -/
theorem Node.fits_eq_of_sameAs {l l' r r' : Node} (h : ∀ n ∈ [l, l', r, r'], n.isProper = true ∧ n.isExact = true)
    (hl : l.sameAs l' = true) (hr : r.sameAs r' = true) :
    l.fits r = l'.fits r' ∧ l.fitsItself = l.fits l' ∧
      ∀ l₂ r₂, l.Reorders l₂ → r.Reorders r₂ → l₂.fits r₂ = l.fits r := by
  simp only [List.forall_mem_cons] at h
  obtain ⟨⟨hlp, hle⟩, ⟨hlp', hle'⟩, ⟨hrp, hre⟩, ⟨hrp', hre'⟩, -⟩ := h
  have heq : l.fits r = l'.fits r' :=
    (MatchesPart.of_sameAs hlp hlp' hle hle' hl).1.fits_eq (MatchesPart.of_sameAs hrp hrp' hre hre' hr).1
  refine ⟨heq, fitsItself_eq_fits hlp hlp' hl, fun l₂ r₂ hl₂ hr₂ => ?_⟩
  have hleft : l'.Matches l₂ := hl₂.matches ⟨hlp', hlp⟩ ⟨hle', hle⟩ (sameAs_symm hlp hlp' hl)
  have hright : r'.Matches r₂ := hr₂.matches ⟨hrp', hrp⟩ ⟨hre', hre⟩ (sameAs_symm hrp hrp' hr)
  exact (hleft.fits_eq hright).symm.trans heq.symm

/-- Definitions of a bundle, their properties and those of a parameter in other orders, all inside of intersections. -/
theorem Node.fits_eq_of_sameAs_intersected :
    let record (fields : List (String × Node)) : Node := .of (.object fields)
    let l : Node := .intersect
      [.cyclic [("A", record [("x", .string), ("y", .reference "B")]), ("B", record [("z", .null)])] "A",
        .function [record [("p", .number), ("q", .integer)]] .null]
    let l' : Node := .intersect
      [.cyclic [("B", record [("z", .null)]), ("A", record [("y", .reference "B"), ("x", .string)])] "A",
        .function [record [("q", .integer), ("p", .number)]] .null]
    let r : Node := .intersect [record [("x", .string), ("y", record [("z", .null)])],
      .function [record [("p", .integer), ("q", .integer), ("s", .null)]] .null]
    let r' : Node := .intersect [record [("y", record [("z", .null)]), ("x", .string)],
      .function [record [("s", .null), ("q", .integer), ("p", .integer)]] .null]
    (∀ n ∈ [l, l', r, r'], n.isProper = true ∧ n.isExact = true) ∧ l.sameAs l' = true ∧ r.sameAs r' = true ∧
      l.Reorders l' ∧ l.fits r = true ∧ l'.fits r' = true ∧ l'.fits r = true ∧ r.fits l = false ∧
      r'.fits l' = false := by
  intro record l l' r r'
  have h : ∀ n ∈ [l, l', r, r'], n.isProper = true ∧ n.isExact = true := by decide +kernel
  have hswap : ∀ n ∈ [r, r', l, l'], n.isProper = true ∧ n.isExact = true := by decide +kernel
  have hl : l.sameAs l' = true := by decide +kernel
  have hr : r.sameAs r' = true := by decide +kernel
  have hfits : l.fits r = true := by decide +kernel
  have hnot : r.fits l = false := by decide +kernel
  have hrecord (e f : String × Node) : (record [e, f]).Reorders (record [f, e]) :=
    .of_permutes (fun c _ => .refl c) (.object (.swap f e [])) .plain []
  have hpair {R : Node → Node → Prop} {m m' n n' : Node} (hm : R m m') (hn : R n n') :
      ∀ p ∈ [(m, m'), (n, n')], R p.1 p.2 := List.forall_mem_cons.2 ⟨hm, List.forall_mem_singleton.2 hn⟩
  have hbundle := Reorders.node (.cyclic [("A", _, _), ("B", _, _)] "A")
    (hpair (hrecord ("x", .string) ("y", .reference "B")) (.refl (record [("z", .null)])))
    (.cyclic (.swap _ _ []) "A") .plain []
  have hfunction := Reorders.node (.function [(_, _)] (_, _))
    (hpair (hrecord ("p", .number) ("q", .integer)) (.refl .null)) (.refl _) .plain []
  have hreorders : l.Reorders l' := .node (.intersect [(_, _), (_, _)]) (hpair hbundle hfunction) (.refl _) .plain []
  refine ⟨h, hl, hr, hreorders, hfits, ?_, ?_, hnot, ?_⟩
  · exact (fits_eq_of_sameAs h hl hr).1.symm.trans hfits
  · exact ((fits_eq_of_sameAs h hl hr).2.2 l' r hreorders (.refl r)).trans hfits
  · exact (fits_eq_of_sameAs hswap hr hl).1.symm.trans hnot

end Schemata
