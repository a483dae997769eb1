import Schemata.Proofs.Notation.Forms
/-!
# Type notation is read back

A legible node is read from its type notation, so that legible nodes which look the same are the same.

- `Node.Legible`: a node that can be read where the bundles that it shows are known by their roots.
- `Notation.IsRead`: a node is read at every level that it suits.

Main statements: `Notation.isRead_of_legible`, `Notation.gets_arguments` and `Node.eq_of_display_eq`.
-/
namespace Schemata

/-! ## Sizes -/

namespace Node

theorem length_le_sizeAll (ns : List Node) : ns.length ≤ sizeAll ns := by
  induction ns with
  | nil => exact Nat.le_refl 0
  | cons n ns ih =>
    have := n.size_pos
    rw [List.length_cons, sizeAll]
    omega

theorem length_le_sizeFields (fields : List (String × Node)) : fields.length ≤ sizeFields fields := by
  induction fields with
  | nil => exact Nat.le_refl 0
  | cons e fields ih =>
    have := e.2.size_pos
    rw [List.length_cons, sizeFields]
    omega

theorem length_flatMap_parts (ps : List (Parameter Node)) : (ps.flatMap Parameter.parts).length = 2 * ps.length := by
  induction ps with
  | nil => rfl
  | cons p ps ih =>
    rw [List.flatMap_cons, List.length_append, ih, List.length_cons]
    exact (Nat.add_comm _ _).trans (Nat.mul_succ 2 ps.length).symm

theorem two_mul_length_le_sizeParameters (ps : List (Parameter Node)) : 2 * ps.length ≤ sizeParameters ps := by
  induction ps with
  | nil => exact Nat.le_refl 0
  | cons p ps ih =>
    have := p.constraint.size_pos
    have := p.default.size_pos
    rw [List.length_cons, sizeParameters, sizeParameter]
    omega

/-- **A node has fewer children than it has nodes below it.** -/
theorem length_children_lt_size (n : Node) : n.children.length < n.size := by
  obtain ⟨kind, modifiers, annotations⟩ := n
  refine Nat.lt_succ_of_le ?_
  cases kind with
  | primitive | literal | ref | cyclic => exact Nat.zero_le _
  | array item => exact item.size_pos
  | wrapper w item => exact item.size_pos
  | tuple ns rest => exact length_le_sizeAll ns
  | union ns => exact length_le_sizeAll ns
  | intersect ns => exact length_le_sizeAll ns
  | deferred operator ns options => exact length_le_sizeAll ns
  | templatePattern ns => exact length_le_sizeAll ns
  | object properties =>
    exact (List.length_map Prod.snd).trans_le (length_le_sizeFields properties)
  | function ns result | constructor ns result =>
    exact List.length_append.trans_le (Nat.add_le_add (length_le_sizeAll ns) result.size_pos)
  | dictionary key value => exact Nat.add_le_add key.size_pos value.size_pos
  | parameter p =>
    obtain ⟨name, constraint, default⟩ := p
    exact Nat.add_le_add constraint.size_pos default.size_pos
  | generic ps body =>
    refine List.length_append.trans_le (Nat.add_le_add ?_ body.size_pos)
    exact (length_flatMap_parts ps).trans_le (two_mul_length_le_sizeParameters ps)
  | call target ns =>
    exact (Nat.add_comm ns.length 1).trans_le (Nat.add_le_add target.size_pos (length_le_sizeAll ns))

/-! ## Forms at their places -/

/-- **A node that can be read** where the bundles that it shows are known by their roots. -/
structure Legible (called : String → Bool) (bundled : String → Fields Node) (n : Node) : Prop where
  isLegible : n.isLegible called = true
  bundles : ∀ e ∈ n.bundlesShown, bundled e.1 = e.2

variable {called : String → Bool} {bundled : String → Fields Node} {n c : Node}

theorem mem_bundlesShown_of_child (hc : c ∈ n.children) {e : String × Fields Node} (he : e ∈ c.bundlesShown) :
    e ∈ n.bundlesShown := by
  rw [bundlesShown]
  split
  · rename_i hk
    rw [children, hk] at hc
    cases hc
  · exact List.mem_flatMap.2 ⟨⟨c, hc⟩, List.mem_attach _ _, he⟩

theorem Legible.child (h : n.Legible called bundled) (hc : c ∈ n.children) : c.Legible called bundled :=
  ⟨(isLegible_iff.1 h.isLegible).2.2 c hc, fun e he => h.bundles e (mem_bundlesShown_of_child hc he)⟩

end Node

namespace Notation

open Node (chars)

variable {called : String → Bool} {bundled : String → Fields Node} {item : Reader Node} {count : Nat} {n : Node}

/-- **A form without an operator is read** where its parts are. -/
theorem gets_atom (h : n.Legible called bundled) (hlevel : n.kind.level = 0 ∨ n.kind.level = 4) (hbarren : Barren item)
    (hcount : n.size ≤ count + 1) (hitem : ∀ c : Node, c.size < n.size → c.Legible called bundled → c.kind.level ≤ 4 →
      item.Gets c.chars c.bare (Stops 4)) :
    (atom item count called bundled).Gets n.chars n.bare (Stops n.kind.level) := by
  have hpart : ∀ c ∈ n.children, c.kind.level ≤ 4 → item.Gets c.chars c.bare (Stops 4) := fun c hc hlevel =>
    hitem c (Node.size_lt_of_mem_children hc) (h.child hc) hlevel
  have hsuits : ∀ c ∈ n.children, c.suits 4 = true → item.Gets c.chars c (Stops 4) := fun c hc hs => by
    obtain ⟨hbare, hlevel⟩ := Node.eq_of_suits hs
    exact hbare ▸ hpart c hc hlevel
  have hparameter : ∀ p : Parameter Node, (∀ c ∈ p.parts, c.size < n.size ∧ c.Legible called bundled) →
      Node.suitsParameter p = true → (parameter item).Gets (Node.displayParameter p).toList p EndsParameter := by
    intro p hp hs
    have hshown := hs
    simp only [Node.suitsParameter, Bool.and_eq_true] at hshown
    have hplain : ∀ c ∈ p.parts, c.suits 4 = true → item.Gets c.chars c (Stops 4) := fun c hc hs => by
      obtain ⟨hbare, hlevel⟩ := Node.eq_of_suits hs
      exact hbare ▸ hitem c (hp c hc).1 (hp c hc).2 hlevel
    have hconstraint : p.constraint ∈ p.parts := List.mem_cons_self
    have hdefault : p.default ∈ p.parts := List.mem_cons_of_mem _ (List.mem_singleton_self _)
    exact gets_parameter hs (Node.isLegible_iff.1 (hp _ hconstraint).2.isLegible).1 (hplain _ hconstraint hshown.1.1.2)
      (hplain _ hdefault hshown.1.2)
  obtain ⟨hannotations, hkind, hchildren⟩ := Node.isLegible_iff.1 h.isLegible
  have hlength : n.children.length ≤ count := Nat.le_of_lt_succ (Nat.lt_of_lt_of_le n.length_children_lt_size hcount)
  have hbundles := h.bundles
  have hopen : ∀ {c}, c ∈ n.children → c.size < n.size ∧ c.Legible called bundled := fun hc =>
    ⟨Node.size_lt_of_mem_children hc, h.child hc⟩
  have hparts : ∀ {c p}, c ∈ n.children → p ∈ c.children → p.size < n.size ∧ p.Legible called bundled := fun hc hp =>
    ⟨(Node.size_lt_of_mem_children hp).trans (hopen hc).1, (h.child hc).child hp⟩
  clear h hitem hcount
  obtain ⟨kind, modifiers, annotations⟩ := n
  obtain rfl : annotations = [] := hannotations
  rw [Node.chars_eq]
  change (atom item count called bundled).Gets (Node.displayKind kind).toList (.of kind) (Stops kind.level)
  change kind.children.length ≤ count at hlength
  change kind.isLegible called = true at hkind
  cases kind with
  | array | union | intersect | parameter => simp [Kind.level] at hlevel
  | primitive p => exact gets_primitive p
  | literal l => exact gets_literal l
  | tuple ns rest =>
    simp only [Kind.isLegible, Bool.and_eq_true, List.all_eq_true, Bool.not_eq_true'] at hkind
    exact gets_tuple hbarren hkind.2 (fun c hc => hsuits c hc (hkind.1 c hc)) hlength
  | object properties =>
    simp only [Kind.isLegible, Bool.and_eq_true, List.all_eq_true, decide_eq_true_eq] at hkind
    exact gets_object (fun e he => (hkind e he).1) (fun e he => hpart e.2 (List.mem_map_of_mem he) (hkind e he).2)
      ((List.length_map Prod.snd).symm.trans_le hlength)
  | function ns result =>
    simp only [Kind.isLegible, Bool.and_eq_true, List.all_eq_true] at hkind
    change (ns ++ [result]).length ≤ count at hlength
    rw [List.length_append] at hlength
    exact gets_function hbarren (fun c hc => hsuits c (List.mem_append_left _ hc) (hkind.1 c hc))
      (hsuits result (List.mem_append_right _ (List.mem_singleton_self _)) hkind.2) (Nat.le_of_succ_le hlength)
  | constructor ns result =>
    simp only [Kind.isLegible, Bool.and_eq_true, List.all_eq_true] at hkind
    change (ns ++ [result]).length ≤ count at hlength
    rw [List.length_append] at hlength
    exact gets_constructor hbarren (fun c hc => hsuits c (List.mem_append_left _ hc) (hkind.1 c hc))
      (hsuits result (List.mem_append_right _ (List.mem_singleton_self _)) hkind.2) (Nat.le_of_succ_le hlength)
  | wrapper w c => exact gets_wrapper (hsuits c (List.mem_singleton_self _) hkind)
  | dictionary key value =>
    simp only [Kind.isLegible, Bool.and_eq_true] at hkind
    exact gets_dictionary (hsuits key List.mem_cons_self hkind.1)
      (hsuits value (List.mem_cons_of_mem _ (List.mem_singleton_self _)) hkind.2)
  | ref text => exact gets_reference hkind
  | generic ps body =>
    simp only [Kind.isLegible, Bool.and_eq_true, List.all_eq_true] at hkind
    change (ps.flatMap Parameter.parts ++ [body]).length ≤ count at hlength
    rw [List.length_append, Node.length_flatMap_parts] at hlength
    refine gets_generic (fun p hp => hparameter p (fun c hc => hopen ?_) (hkind.1 p hp))
      (hsuits body (List.mem_append_right _ (List.mem_singleton_self _)) hkind.2) (by omega)
    exact List.mem_append_left _ (List.mem_flatMap.2 ⟨p, hp, hc⟩)
  | call target ns =>
    exact gets_call hbarren hkind (Node.isLegible_iff.1 (hchildren target List.mem_cons_self)).1
      (fun c hc => hsuits c (List.mem_cons_of_mem _ hc)) (Nat.le_of_succ_le hlength)
  | deferred operator ns options =>
    exact gets_deferred hbarren hkind (fun c hc => (Node.isLegible_iff.1 (hchildren c hc)).1)
      (fun p hp => hparameter p (fun c hc => hparts hp hc) (Node.isLegible_iff.1 (hchildren _ hp)).2.1) hsuits hlength
  | cyclic definitions root =>
    have hroot : bundled root = definitions := hbundles (root, definitions) (by simp [Node.bundlesShown])
    have hread : (atom item count called bundled).Gets ("cyclic ".toList ++ root.toList) (.cyclic (bundled root) root)
        (Stops 0) := gets_cyclic hkind
    rw [hroot] at hread
    rw [Node.displayKind, String.toList_append]
    exact hread
  | templatePattern ns =>
    exact gets_templatePattern hkind (fun c hc => (Node.isLegible_iff.1 (hchildren c hc)).1) hsuits hlength

variable {level : Nat} {text : List Char} {ns : List Node} {atom : Reader Node}

/-! ## Levels -/

theorem suffixed_of_stops {s : List Char} (h : Stops 1 s) : suffixed n s = (n, s) := by
  unfold suffixed
  split
  · exact absurd h.2 (by simp [looseness])
  · rfl

theorem gets_arrays (h : atom.Gets text n (Stops level)) (hlevel : 1 ≤ level) : (arrays atom).Gets text n (Stops level) := by
  intro s hs
  rw [arrays, h s hs, Option.map_some]
  dsimp only
  rw [suffixed_of_stops (hs.mono hlevel)]

theorem gets_joined {separator : List Char} {make : List Node → Node} (h : item.Gets text n (Stops level))
    (hend : ∀ s, Stops level s → s.dropPrefix? separator = none) :
    (joined separator make item (count + 1)).Gets text n (Stops level) := by
  intro s hs
  simp [joined, Reader.separated, h s hs, hend s hs]

theorem dropPrefix?_of_stops {separator : List Char} {s : List Char} (h : Stops level s)
    (hseparator : ∀ rest, looseness (separator ++ rest) ≤ level) : s.dropPrefix? separator = none := by
  cases hdrop : s.dropPrefix? separator with
  | none => rfl
  | some rest =>
    rw [eq_append_of_dropPrefix? hdrop] at h
    exact absurd h.2 (Nat.not_lt.2 (hseparator rest))

/-- **What is read at a level is read at every looser one**, where nothing goes on. -/
theorem gets_atLevel {l l' : Nat} (h : (atLevel atom (count + 1) l).Gets text n (Stops level)) (hl : l ≤ l')
    (hlevel : level ≤ l') : (atLevel atom (count + 1) l').Gets text n (Stops l') := by
  have hstep : ∀ {l k : Nat}, l < k → (atLevel atom (count + 1) l).Gets text n (Stops k) →
      (atLevel atom (count + 1) (l + 1)).Gets text n (Stops k) := by
    intro l k hk h
    match l with
    | 0 => exact gets_arrays h hk
    | 1 => exact gets_joined h fun s hs => dropPrefix?_of_stops hs fun rest => hk
    | 2 => exact gets_joined h fun s hs => dropPrefix?_of_stops hs fun rest => hk
    | l + 3 => exact h
  have hlast : (atLevel atom (count + 1) l).Gets text n (Stops l') := h.mono fun _ hs => Stops.mono hs hlevel
  clear h hlevel
  induction hl using Nat.decreasingInduction with
  | self => exact hlast
  | of_succ l hl ih => exact ih (hstep hl hlast)

/-- **What an operator joins is read** where its parts are. -/
theorem gets_joined_parts {separator : List Char} {make : List Node → Node} {outer : Nat}
    (h : ∀ n ∈ ns, item.Gets n.chars n (Stops level)) (hmany : 2 ≤ ns.length) (hcount : ns.length ≤ count)
    (hafter : ∀ s, Stops level (separator ++ s)) (hlevel : level ≤ outer)
    (hseparator : ∀ s, looseness (separator ++ s) ≤ outer) :
    (joined separator make item count).Gets (separator.intercalate (ns.map chars)) (make ns) (Stops outer) := by
  intro s hs
  have hsome : ns ≠ [] := fun hnil => by simp [hnil] at hmany
  have hread := Reader.gets_separated (forall₂_gets h) hsome hcount hafter s
    ⟨hs.mono hlevel, dropPrefix?_of_stops hs hseparator⟩
  rw [joined, hread, Option.map_some]
  match ns, hmany with
  | n :: m :: ns, _ => rfl

/-- At some marks no form begins. -/
theorem barren_atLevel (fuel level : Nat) : Barren (atLevel (read called bundled fuel) fuel level) := by
  intro c hc s
  have hread : read called bundled fuel (c :: s) = none := by
    cases fuel with
    | zero => rfl
    | succ fuel =>
      simp only [List.mem_cons, List.not_mem_nil, or_false] at hc
      rcases hc with rfl | rfl | rfl | rfl <;> rfl
  have harrays : arrays (read called bundled fuel) (c :: s) = none := by rw [arrays, hread]; rfl
  have hjoined : ∀ {separator make} {item : Reader Node}, item (c :: s) = none →
      joined separator make item fuel (c :: s) = none := fun hnone => by
    rw [joined, Reader.separated_eq_none hnone]
    rfl
  match level with
  | 0 => exact hread
  | 1 => exact harrays
  | 2 => exact hjoined harrays
  | level + 3 => exact hjoined (hjoined harrays)

/-- **What is read of a node**: the node itself at every level that it suits, and for an item all the brackets after it, one
pair after the other. -/
structure IsRead (called : String → Bool) (bundled : String → Fields Node) (n : Node) : Prop where
  atLevel : ∀ {fuel l : Nat}, n.size ≤ fuel → n.kind.level ≤ l → l ≤ 4 →
    (atLevel (read called bundled fuel) fuel l).Gets n.chars n.bare (Stops l)
  arrays : n.kind.level ≤ 1 → ∀ {fuel : Nat}, n.size ≤ fuel → ∀ {s : List Char}, Stops 0 s →
    arrays (read called bundled fuel) (n.chars ++ s) = some (suffixed n.bare s)

/-- A part is read where it suits its place. -/
theorem IsRead.gets {fuel l : Nat} (h : IsRead called bundled n) (hfuel : n.size ≤ fuel) (hs : n.suits l = true)
    (hl : l ≤ 4) :
    (Notation.atLevel (read called bundled fuel) fuel l).Gets n.chars n (Stops l) := by
  obtain ⟨hbare, hlevel⟩ := Node.eq_of_suits hs
  exact hbare ▸ h.atLevel hfuel hlevel hl

theorem isRead_of_atom (h : n.Legible called bundled) (hlevel : n.kind.level = 0 ∨ n.kind.level = 4)
    (ih : ∀ c : Node, c.size < n.size → c.Legible called bundled → IsRead called bundled c) : IsRead called bundled n := by
  have hatom : ∀ {fuel}, n.size ≤ fuel + 1 →
      (read called bundled (fuel + 1)).Gets n.chars n.bare (Stops n.kind.level) := fun hfuel =>
    gets_atom h hlevel (barren_atLevel _ 4) hfuel fun c hlt hc hle =>
      (ih c hlt hc).atLevel (Nat.le_of_lt_succ (Nat.lt_of_lt_of_le hlt hfuel)) hle (Nat.le_refl 4)
  have hpos := n.size_pos
  constructor
  · intro fuel l hfuel hl _
    obtain ⟨fuel, rfl⟩ := Nat.exists_eq_succ_of_ne_zero (Nat.ne_zero_of_lt (Nat.lt_of_lt_of_le hpos hfuel))
    exact gets_atLevel (l := 0) (hatom hfuel) (Nat.zero_le l) hl
  · intro hle fuel hfuel s hs
    obtain ⟨fuel, rfl⟩ := Nat.exists_eq_succ_of_ne_zero (Nat.ne_zero_of_lt (Nat.lt_of_lt_of_le hpos hfuel))
    have hzero : n.kind.level = 0 := hlevel.resolve_right (by omega)
    rw [Notation.arrays, hatom hfuel s (hzero ▸ hs)]
    rfl

theorem isRead_of_array {item : Node} {modifiers : Modifiers} (hitem : IsRead called bundled item)
    (hs : item.suits 1 = true) : IsRead called bundled ⟨.array item, modifiers, []⟩ := by
  obtain ⟨hbare, hle⟩ := Node.eq_of_suits hs
  have hlt : item.size < Node.size ⟨.array item, modifiers, []⟩ :=
    Node.size_lt_of_mem_parts (n := ⟨.array item, modifiers, []⟩) (List.mem_singleton_self item)
  have hbrackets : ∀ {fuel s}, Node.size ⟨.array item, modifiers, []⟩ ≤ fuel → Notation.arrays (read called bundled fuel)
      (chars ⟨.array item, modifiers, []⟩ ++ s) = some (suffixed (.array item) s) := by
    intro fuel s hfuel
    have hnext : Stops 0 ("[]".toList ++ s) := stops_zero (by rintro _ ⟨⟩; decide)
    have hread := hitem.arrays hle (Nat.le_of_lt (Nat.lt_of_lt_of_le hlt hfuel)) hnext
    rw [hbare] at hread
    rw [Node.chars_eq, Node.displayKind, String.toList_append, List.append_assoc]
    exact hread
  constructor
  · intro fuel l hfuel hl _
    obtain ⟨fuel, rfl⟩ := Nat.exists_eq_succ_of_ne_zero (Nat.ne_zero_of_lt (Nat.lt_of_lt_of_le (Node.size_pos _) hfuel))
    have hone : (Notation.atLevel (read called bundled (fuel + 1)) (fuel + 1) 1).Gets (chars ⟨.array item, modifiers, []⟩)
        (.array item) (Stops 1) := fun s hs => (hbrackets hfuel).trans (congrArg some (suffixed_of_stops hs))
    exact gets_atLevel hone hl hl
  · exact fun _ _ hfuel _ _ => hbrackets hfuel

/-- What is read where an operator joins parts of the level below. -/
theorem isRead_of_joined {l : Nat} {separator : List Char} {make : List Node → Node} (hlevel : n.kind.level = l + 1)
    (hl : 1 ≤ l) (hreader : ∀ {atom count}, Notation.atLevel atom count (l + 1) =
      joined separator make (Notation.atLevel atom count l) count)
    (hchars : n.chars = separator.intercalate (ns.map chars)) (hmake : make ns = n.bare)
    (hns : ∀ c ∈ ns, c.size < n.size ∧ IsRead called bundled c ∧ c.suits l = true) (hmany : 2 ≤ ns.length)
    (hcount : ns.length < n.size) (hseparator : ∀ s, Stops l (separator ++ s) ∧ looseness (separator ++ s) = l + 1) :
    IsRead called bundled n := by
  constructor
  · intro fuel outer hfuel houter hle
    rw [hlevel] at houter
    obtain ⟨fuel, rfl⟩ := Nat.exists_eq_succ_of_ne_zero (Nat.ne_zero_of_lt (Nat.lt_of_lt_of_le n.size_pos hfuel))
    have hparts : ∀ c ∈ ns, (Notation.atLevel (read called bundled (fuel + 1)) (fuel + 1) l).Gets c.chars c (Stops l) :=
      fun c hc => (hns c hc).2.1.gets (Nat.le_of_lt (Nat.lt_of_lt_of_le (hns c hc).1 hfuel)) (hns c hc).2.2 (by omega)
    have hjoined : (Notation.atLevel (read called bundled (fuel + 1)) (fuel + 1) (l + 1)).Gets n.chars n.bare
        (Stops (l + 1)) := by
      rw [hreader, hchars, ← hmake]
      exact gets_joined_parts hparts hmany (by omega) (fun s => (hseparator s).1) (Nat.le_succ l)
        fun s => Nat.le_of_eq (hseparator s).2
    exact gets_atLevel hjoined houter houter
  · intro hle
    omega

/-- **Legible nodes are read.** -/
theorem isRead_of_legible (n : Node) (h : n.Legible called bundled) : IsRead called bundled n := by
  induction hsize : n.size using Nat.strongRecOn generalizing n with
  | ind size ih =>
    subst hsize
    have ih : ∀ c : Node, c.size < n.size → c.Legible called bundled → IsRead called bundled c := fun c hlt hc =>
      ih c.size hlt c hc rfl
    have hchild : ∀ c ∈ n.children, c.size < n.size ∧ IsRead called bundled c := fun c hc =>
      ⟨Node.size_lt_of_mem_children hc, ih c (Node.size_lt_of_mem_children hc) (h.child hc)⟩
    by_cases hlevel : n.kind.level = 0 ∨ n.kind.level = 4
    · exact isRead_of_atom h hlevel ih
    obtain ⟨hannotations, hkind, -⟩ := Node.isLegible_iff.1 h.isLegible
    obtain ⟨kind, modifiers, annotations⟩ := n
    obtain rfl : annotations = [] := hannotations
    change kind.isLegible called = true at hkind
    cases kind with
    | array item => exact isRead_of_array (hchild item (List.mem_singleton_self item)).2 hkind
    | intersect members =>
      simp only [Kind.isLegible, Bool.and_eq_true, decide_eq_true_eq, List.all_eq_true] at hkind
      refine isRead_of_joined (l := 1) rfl (Nat.le_refl 1) rfl ?_ rfl
        (fun c hc => ⟨(hchild c hc).1, (hchild c hc).2, hkind.2 c hc⟩) hkind.1
        (Nat.lt_succ_of_le (Node.length_le_sizeAll members)) fun s => ⟨⟨by rintro _ ⟨⟩; decide, Nat.lt_succ_self 1⟩, rfl⟩
      rw [Node.chars_eq, Node.displayKind, Node.toList_intercalate_displayAll]
    | union variants =>
      simp only [Kind.isLegible, Bool.and_eq_true, decide_eq_true_eq, List.all_eq_true] at hkind
      refine isRead_of_joined (l := 2) rfl (Nat.le_succ 1) rfl ?_ rfl
        (fun c hc => ⟨(hchild c hc).1, (hchild c hc).2, hkind.2 c hc⟩) hkind.1
        (Nat.lt_succ_of_le (Node.length_le_sizeAll variants)) fun s => ⟨⟨by rintro _ ⟨⟩; decide, Nat.lt_succ_self 2⟩, rfl⟩
      rw [Node.chars_eq, Node.displayKind, Node.toList_intercalate_displayAll]
    | parameter p =>
      have hfive : (Kind.parameter p).level = 5 := rfl
      exact ⟨fun _ hl hle => absurd (Nat.le_trans hl hle) (hfive ▸ by decide), fun hle => absurd hle (hfive ▸ by decide)⟩
    | _ => exact absurd (by simp [Kind.level]) hlevel

/-- **Nodes are read from what stands between the angle brackets of a call.** -/
theorem gets_arguments (h : ∀ n ∈ ns, n.Legible called bundled ∧ n.suits 4 = true) {fuel : Nat}
    (hfuel : Node.sizeAll ns ≤ fuel) :
    (items (atLevel (read called bundled fuel) fuel 4) fuel '>').Gets (comma.intercalate (ns.map chars) ++ ['>']) ns
      fun _ => True :=
  gets_items (barren_atLevel fuel 4) (by decide)
    (fun n hn => (isRead_of_legible n (h n hn).1).gets (Nat.le_trans (Node.size_le_sizeAll hn) hfuel) (h n hn).2
      (Nat.le_refl 4))
    (Nat.le_trans (Node.length_le_sizeAll ns) hfuel)

end Notation

/-- **Legible nodes that look the same are the same.** -/
theorem Node.eq_of_display_eq {called : String → Bool} {bundled : String → Fields Node} {x y : Node}
    (hx : x.Legible called bundled ∧ x.suits 4 = true) (hy : y.Legible called bundled ∧ y.suits 4 = true)
    (h : x.display = y.display) : x = y := by
  have hread := (Notation.isRead_of_legible x hx.1).gets (Nat.le_add_right x.size y.size) hx.2 (Nat.le_refl 4) []
    Notation.stops_nil
  have hread' := (Notation.isRead_of_legible y hy.1).gets (Nat.le_add_left y.size x.size) hy.2 (Nat.le_refl 4) []
    Notation.stops_nil
  rw [chars, h] at hread
  exact (Prod.mk.inj (Option.some.inj (hread.symm.trans hread'))).1

end Schemata
