import Schemata.Comparison
import Schemata.Node.Build
import Schemata.Proofs.Comparison.Values
/-!
# Comparison is sound

A comparison is sound when all values of the left side are values of the right side whenever it says yes.  Each layer of
rules keeps soundness of the comparison of parts (`Sound.fitsStructure`, `Sound.fitsSets`, `Sound.fitsStep`), so
comparisons of any depth are sound.  References and bundles have no values here and never come up.

Main statement: `within_of_fits`.
-/
namespace Schemata

open List (Forall₂)
open Node (Within Describes KindDescribes DescribeItems DescribeProperties describes_iff)

variable {builtin : Value → String → Option Value} {check : Comparison} {s : Surroundings}

/-- **A comparison that says yes only when the right side has all values of the left.** -/
def Comparison.Sound (builtin : Value → String → Option Value) (check : Comparison) : Prop :=
  ∀ s left right, left.node.hasValues = true → right.node.hasValues = true → check s left right = true →
    Within builtin left.node right.node

/-! ## Parts at their places -/

theorem Placed.map_node_items (p : Placed) (first : Nat) (ns : List Node) :
    (p.items first ns).map Placed.node = ns := by
  induction ns generalizing first with
  | nil => rfl
  | cons n ns ih => rw [items, List.map_cons, ih, item]

theorem Placed.mem_of_mem_items {p q : Placed} {first : Nat} {ns : List Node} (h : q ∈ p.items first ns) :
    q.node ∈ ns := by
  rw [← p.map_node_items first ns]
  exact List.mem_map_of_mem h

theorem Placed.exists_mem_items (p : Placed) (first : Nat) {ns : List Node} {n : Node} (h : n ∈ ns) :
    ∃ q ∈ p.items first ns, q.node = n := by
  rw [← p.map_node_items first ns] at h
  exact List.mem_map.1 h

/-! ## Objects -/

/-- **A value has the properties of a list of fields**, each described by its type. -/
def HasProperties (builtin : Value → String → Option Value) (v : Value) (fields : Fields Placed) : Prop :=
  ∀ e ∈ fields, e.2.node.hasValues = true ∧ ∃ x, v.property? builtin e.1 = some x ∧ Describes builtin e.2.node x

theorem hasProperties_of_describes {p : Placed} {properties : Fields Node} {v : Value}
    (hp : ∀ c ∈ properties.map Prod.snd, c.hasValues = true) (hv : DescribeProperties builtin properties v) :
    HasProperties builtin v (p.properties properties) := by
  rw [Node.describeProperties_iff] at hv
  intro e he
  obtain ⟨⟨name, n⟩, hn, rfl⟩ := List.mem_map.1 he
  exact ⟨hp n (List.mem_map_of_mem (f := Prod.snd) hn), hv _ hn⟩

/-- A value with the properties on the left has those that are required on the right. -/
theorem Comparison.Sound.fitsProperties (hc : check.Sound builtin) {left : Fields Placed} {right : Placed}
    {properties : Fields Node} {v : Value} (hl : HasProperties builtin v left)
    (hp : ∀ e ∈ properties, e.2.hasValues = true ∧ e.2.modifiers.optional = false)
    (h : fitsProperties check s left (right.properties properties) = true) :
    DescribeProperties builtin properties v := by
  rw [Schemata.fitsProperties, List.all_eq_true] at h
  rw [Node.describeProperties_iff]
  intro (name, n) hn
  obtain ⟨hvalues, hrequired⟩ := hp _ hn
  have hfit := h (name, right.property name n) (List.mem_map.2 ⟨_, hn, rfl⟩)
  dsimp only at hfit
  split at hfit
  · rename_i actual hactual
    obtain ⟨hactualValues, x, hx, hd⟩ := hl _ (Fields.mem_of_get? hactual)
    exact ⟨x, hx, hc s actual _ hactualValues hvalues (Bool.and_eq_true_iff.1 hfit).2 x hd⟩
  · rw [show (right.property name n).node = n from rfl, hrequired] at hfit
    cases hfit

theorem gathers_of_gatherAll {ns : List Node} {place : Place} {index : Nat} {gathered : Fields Placed}
    (h : gatherAll place index ns = some gathered) :
    (∀ n ∈ ns, ∃ place fields, gatherProperties place n = some fields) ∧
      ∀ e ∈ gathered, ∃ n ∈ ns, ∃ place fields, gatherProperties place n = some fields ∧ e ∈ fields := by
  induction ns generalizing index gathered with
  | nil =>
    cases h
    exact ⟨by simp, by simp⟩
  | cons n ns ih =>
    simp only [gatherAll, Option.bind_eq_bind, Option.bind_eq_some_iff, Option.pure_def, Option.some.injEq] at h
    obtain ⟨fields, hfields, others, hothers, rfl⟩ := h
    obtain ⟨hall, hmem⟩ := ih hothers
    refine ⟨List.forall_mem_cons.2 ⟨⟨_, fields, hfields⟩, hall⟩, fun e he => ?_⟩
    rcases List.mem_append.1 he with he | he
    · exact ⟨n, List.mem_cons_self, _, fields, hfields, he⟩
    · obtain ⟨m, hm, hgather⟩ := hmem e he
      exact ⟨m, List.mem_cons_of_mem _ hm, hgather⟩

/-- **Gathered properties**: a value of an object, or of an intersection of objects, is no `null` and no `undefined`, and
it has all properties that are gathered. -/
theorem hasProperties_of_gather {n : Node} (hn : n.hasValues = true) {place : Place} {gathered : Fields Placed}
    (h : gatherProperties place n = some gathered) {v : Value} (hv : Describes builtin n v) :
    v ≠ .null ∧ v ≠ .undefined ∧ HasProperties builtin v gathered := by
  induction n using Node.induction_on_parts generalizing place gathered with
  | node n ih =>
    rw [Node.hasValues_iff] at hn
    obtain ⟨kind, modifiers, annotations⟩ := n
    cases kind
    case object properties =>
      simp only [gatherProperties, Option.some.injEq] at h
      simp only [Describes, KindDescribes] at hv
      exact ⟨hv.1, hv.2.1, h ▸ hasProperties_of_describes hn.2 hv.2.2⟩
    case intersect members =>
      simp only [gatherProperties] at h
      simp only [Describes, KindDescribes, Node.allDescribe_iff] at hv
      obtain ⟨hall, hmem⟩ := gathers_of_gatherAll h
      obtain ⟨first, hfirst⟩ : ∃ m, m ∈ members := by
        cases members with
        | nil => cases hn.1
        | cons m members => exact ⟨m, List.mem_cons_self⟩
      obtain ⟨_, fields, hfields⟩ := hall first hfirst
      obtain ⟨hnull, hundefined, -⟩ := ih first hfirst (hn.2 first hfirst) hfields (hv first hfirst)
      refine ⟨hnull, hundefined, fun e he => ?_⟩
      obtain ⟨m, hm, _, fields, hfields, he⟩ := hmem e he
      exact (ih m hm (hn.2 m hm) hfields (hv m hm)).2.2 e he
    all_goals simp [gatherProperties] at h

theorem required_of_hasValues {properties : Fields Node}
    (h : (Kind.object properties).hasValues = true ∧ ∀ c ∈ (Kind.object properties).parts, c.hasValues = true) :
    ∀ e ∈ properties, e.2.hasValues = true ∧ e.2.modifiers.optional = false := by
  intro e he
  simp only [Kind.hasValues, Bool.and_eq_true, List.all_eq_true, Bool.not_eq_true'] at h
  exact ⟨h.2 _ (List.mem_map_of_mem (f := Prod.snd) he), h.1.2 e he⟩

/-! ## Tuples -/

/-- Items that fit one by one have their values one by one. -/
theorem Comparison.Sound.within_of_zip (hc : check.Sound builtin) {left right : Placed} {ls rs : List Node}
    (hlen : ls.length = rs.length) (hl : ∀ n ∈ ls, n.hasValues = true) (hr : ∀ n ∈ rs, n.hasValues = true)
    (h : (((left.items 0 ls).zip (right.items 0 rs)).all fun e => check s e.1 e.2) = true) :
    Forall₂ (Within builtin) ls rs := by
  rw [← left.map_node_items 0 ls, ← right.map_node_items 0 rs, List.length_map, List.length_map] at hlen
  rw [← left.map_node_items 0 ls, ← right.map_node_items 0 rs, List.forall₂_map_left_iff, List.forall₂_map_right_iff,
    List.forall₂_iff_zip]
  refine ⟨hlen, fun {l r} hz => ?_⟩
  obtain ⟨hml, hmr⟩ := List.of_mem_zip hz
  exact hc s l r (hl _ (Placed.mem_of_mem_items hml)) (hr _ (Placed.mem_of_mem_items hmr)) (List.all_eq_true.1 h _ hz)

theorem fitsItem_of_not_rest {item bound : Placed} : fitsItem check s false item bound = check s item bound := by
  unfold fitsItem
  split
  · rename_i h
    cases h
  · rfl

/-- A rest item that fits a bound describes lists of values of the bound only. -/
theorem Comparison.Sound.fitsItem_rest (hc : check.Sound builtin) {item bound : Placed}
    (hitem : item.node.hasValues = true) (hbound : bound.node.hasValues = true) (harray : item.node.isArray = true)
    (h : fitsItem check s true item bound = true) {vs : List Value} (hvs : Describes builtin item.node (.list vs)) :
    ∀ x ∈ vs, Describes builtin bound.node x := by
  obtain ⟨inner, hk⟩ := Node.isArray_iff.1 harray
  rw [Node.hasValues_iff, hk] at hitem
  rw [describes_iff, hk, KindDescribes] at hvs
  obtain ⟨ws, hws, hvs⟩ := hvs
  cases hws
  unfold fitsItem at h
  rw [show item.kind = .array inner from hk] at h
  exact fun x hx => hc s _ bound (hitem.2 inner List.mem_cons_self) hbound h x (hvs x hx)

/-- A tuple whose items fit the item of an array consists of values of that item. -/
theorem Comparison.Sound.fitsItems (hc : check.Sound builtin) {rest : Bool} {bound : Placed} {items : List Placed}
    (hitems : ∀ p ∈ items, p.node.hasValues = true) (hbound : bound.node.hasValues = true)
    (hrest : rest = true → ∀ p ∈ items.getLast?, p.node.isArray = true)
    (h : fitsItems check s rest bound items = true) {vs : List Value}
    (hvs : DescribeItems builtin rest (items.map Placed.node) vs) : ∀ x ∈ vs, Describes builtin bound.node x := by
  induction items generalizing vs with
  | nil =>
    rw [List.map_nil, DescribeItems] at hvs
    simp [hvs]
  | cons item items ih =>
    rw [List.forall_mem_cons] at hitems
    -- An item that is not the last rest item describes one value, and the others describe what follows.
    have single (hfit : check s item bound = true)
        (hmore : ∀ others, DescribeItems builtin rest (items.map Placed.node) others →
          ∀ x ∈ others, Describes builtin bound.node x)
        (hvs : ∃ x others, vs = x :: others ∧ Describes builtin item.node x ∧
          DescribeItems builtin rest (items.map Placed.node) others) : ∀ x ∈ vs, Describes builtin bound.node x := by
      obtain ⟨x, others, rfl, hx, hothers⟩ := hvs
      exact List.forall_mem_cons.2 ⟨hc s item bound hitems.1 hbound hfit x hx, hmore others hothers⟩
    rw [List.map_cons, DescribeItems] at hvs
    cases items with
    | nil =>
      rw [Schemata.fitsItems] at h
      cases rest with
      | true =>
        rw [if_pos ⟨rfl, rfl⟩] at hvs
        exact hc.fitsItem_rest hitems.1 hbound (hrest rfl item rfl) h hvs
      | false =>
        rw [if_neg (by simp)] at hvs
        rw [fitsItem_of_not_rest] at h
        refine single h (fun others ho => ?_) hvs
        rw [List.map_nil, DescribeItems] at ho
        simp [ho]
    | cons next more =>
      rw [Schemata.fitsItems, Bool.and_eq_true, fitsItem_of_not_rest] at h
      · rw [if_neg (by simp)] at hvs
        exact single h.1 (fun others ho => ih hitems.2 (fun hr => by simpa using hrest hr) h.2 ho) hvs
      · simp

/-! ## Rules -/

/-- Values of the forms below are neither `null` nor `undefined`. -/
theorem ne_null_of_kindDescribes {kind : Kind Node} {v : Value} (hprimitive : ∀ p, kind ≠ .primitive p)
    (hunion : ∀ variants, kind ≠ .union variants) (hintersect : ∀ members, kind ≠ .intersect members)
    (hv : KindDescribes builtin kind v) : v ≠ .null ∧ v ≠ .undefined := by
  cases kind <;> simp only [KindDescribes] at hv
  case primitive p => exact absurd rfl (hprimitive p)
  case union variants => exact absurd rfl (hunion variants)
  case intersect members => exact absurd rfl (hintersect members)
  case object => exact ⟨hv.1, hv.2.1⟩
  case literal l =>
    cases l with
    | number =>
      obtain ⟨y, rfl, -⟩ := hv
      simp
    | _ => cases hv; simp
  all_goals
    obtain ⟨_, rfl, -⟩ := hv
    simp

theorem Primitive.describes_of_fits {left right : Primitive} (hl : left ≠ .any) (h : left.fits right = true) {v : Value}
    (hv : left.Describes v) : right.Describes v := by
  simp only [Primitive.fits, Bool.or_eq_true, Bool.and_eq_true, beq_iff_eq] at h
  rcases h with (rfl | ⟨rfl, rfl⟩) | ⟨rfl, rfl⟩
  · exact hv
  · obtain ⟨x, rfl, -⟩ := hv
    exact ⟨x, rfl⟩
  · exact hv

theorem Number.isWhole_of_same {x y : Number} (h : (x == y) = true) (hy : y.isWhole = true) : x.isWhole = true := by
  change x.sameAs y = true at h
  cases x <;> cases y <;> first | cases h | skip
  case infinite.infinite => cases hy
  case finite.finite =>
    simp only [sameAs, Bool.and_eq_true, beq_iff_eq] at h
    rwa [isWhole, h.1.1, h.1.2]

theorem Literal.describes_of_fits {l : Literal} {p : Primitive} (h : l.fits p = true) {v : Value}
    (hv : l.Describes v) : p.Describes v := by
  unfold fits at h
  split at h
  · exact ⟨_, hv⟩
  · obtain ⟨y, rfl, -⟩ := hv
    exact ⟨y, rfl⟩
  · obtain ⟨y, rfl, hs⟩ := hv
    exact ⟨y, rfl, Number.isWhole_of_same hs h⟩
  · exact ⟨_, hv⟩
  · cases h

theorem Primitive.ne_null_of_describes {p : Primitive} {v : Value}
    (h : (p != .null && p != .undefined && p != .void && p != .unknown) = true) (hv : p.Describes v) :
    v ≠ .null ∧ v ≠ .undefined := by
  cases p <;> cases h
  case any | never => exact hv.elim
  case integer =>
    obtain ⟨_, rfl, -⟩ := hv
    simp
  all_goals
    obtain ⟨_, rfl⟩ := hv
    simp

/-- **Rules by structure are sound** for sides that are neither unions nor intersections on the left. -/
theorem Comparison.Sound.fitsStructure (hc : check.Sound builtin) {left right : Placed}
    (hl : left.node.hasValues = true) (hr : right.node.hasValues = true)
    (hunion : ∀ variants, left.kind ≠ .union variants) (hintersect : ∀ members, left.kind ≠ .intersect members)
    (h : fitsStructure check s left right = true) : Within builtin left.node right.node := by
  intro v hv
  rw [Node.hasValues_iff] at hl hr
  rw [describes_iff] at hv ⊢
  change left.kind.hasValues = true ∧ ∀ c ∈ left.kind.parts, c.hasValues = true at hl
  change right.kind.hasValues = true ∧ ∀ c ∈ right.kind.parts, c.hasValues = true at hr
  change KindDescribes builtin left.kind v at hv
  change KindDescribes builtin right.kind v
  unfold Schemata.fitsStructure at h
  generalize left.kind = lkind, right.kind = rkind at *
  split at h
  case h_1 l r =>
    simp only [KindDescribes] at hv ⊢
    exact Primitive.describes_of_fits (by simpa [Kind.hasValues] using hl.1) h hv
  case h_2 l r =>
    simp only [KindDescribes] at hv ⊢
    exact Literal.describes_of_fits h hv
  case h_3 l r =>
    cases Literal.eq_of_same hl.1 hr.1 h
    exact hv
  case h_4 text fragments =>
    simp only [KindDescribes] at hv ⊢
    exact ⟨text, hv, h⟩
  case h_5 fragments =>
    simp only [KindDescribes] at hv ⊢
    obtain ⟨text, rfl, -⟩ := hv
    exact ⟨text, rfl⟩
  case h_6 l r =>
    simp only [KindDescribes] at hv ⊢
    obtain ⟨vs, rfl, hvs⟩ := hv
    exact ⟨vs, rfl, fun x hx => hc s _ _ (hl.2 l List.mem_cons_self) (hr.2 r List.mem_cons_self) h x (hvs x hx)⟩
  case h_7 items rest r =>
    simp only [KindDescribes] at hv ⊢
    obtain ⟨vs, rfl, hvs⟩ := hv
    refine ⟨vs, rfl, hc.fitsItems (fun p hp => hl.2 _ (Placed.mem_of_mem_items hp)) (hr.2 r List.mem_cons_self)
      (fun hrest p hp => ?_) h (by rwa [Placed.map_node_items])⟩
    have hlast : items.getLast?.all Node.isArray = true := by simpa [Kind.hasValues, hrest] using hl.1
    change (left.items 0 items).getLast? = some p at hp
    rw [← left.map_node_items 0 items, List.getLast?_map, hp] at hlast
    exact hlast
  case h_8 ls lrest rs rrest =>
    simp only [KindDescribes] at hv ⊢
    obtain ⟨vs, rfl, hvs⟩ := hv
    simp only [Bool.and_eq_true, beq_iff_eq] at h
    obtain ⟨⟨rfl, hlen⟩, hall⟩ := h
    exact ⟨vs, rfl, Node.describeItems_of_within (hc.within_of_zip hlen hl.2 hr.2 hall) hvs⟩
  case h_9 ls rs =>
    simp only [KindDescribes] at hv ⊢
    exact ⟨hv.1, hv.2.1, hc.fitsProperties (hasProperties_of_describes hl.2 hv.2.2) (required_of_hasValues hr) h⟩
  case h_10 l =>
    simp only [KindDescribes] at hv ⊢
    obtain ⟨hnull, hundefined⟩ := Primitive.ne_null_of_describes h hv
    exact ⟨hnull, hundefined, trivial⟩
  case h_11 hprimitive =>
    obtain ⟨hnull, hundefined⟩ := ne_null_of_kindDescribes hprimitive hunion hintersect hv
    simp only [KindDescribes]
    exact ⟨hnull, hundefined, trivial⟩
  case h_16 lw l rw r =>
    simp only [KindDescribes] at hv ⊢
    obtain ⟨vs, rfl, hvs⟩ := hv
    rw [Bool.and_eq_true, beq_iff_eq] at h
    obtain ⟨rfl, h⟩ := h
    exact ⟨vs, rfl, fun x hx => hc s _ _ (hl.2 l List.mem_cons_self) (hr.2 r List.mem_cons_self) h x (hvs x hx)⟩
  case h_12 | h_13 | h_14 | h_15 => cases hr.1
  case h_17 => cases h

/-- Variants that cover both truth values describe each of them. -/
theorem exists_of_coversBoolean {variants : List Node} (h : coversBoolean variants = true) (b : Bool) :
    ∃ n ∈ variants, Describes builtin n (.boolean b) := by
  have hb : (variants.any fun n => n.literal? == some (.boolean b)) = true := by
    rw [coversBoolean, Bool.and_eq_true] at h
    cases b
    · exact h.2
    · exact h.1
  obtain ⟨n, hn, hl⟩ := List.any_eq_true.1 hb
  cases hl' : n.literal? with
  | none =>
    rw [hl'] at hl
    cases hl
  | some l =>
    rw [hl', Option.some_beq_some] at hl
    refine ⟨n, hn, ?_⟩
    rw [describes_iff, Node.literal?_eq_some_iff.1 hl', KindDescribes]
    change l.sameAs (.boolean b) = true at hl
    cases l <;> first | cases hl | skip
    rw [Literal.Describes, eq_of_beq hl]

/-- **Rules for unions and intersections are sound.** -/
theorem Comparison.Sound.fitsSets (hc : check.Sound builtin) {left right : Placed}
    (hl : left.node.hasValues = true) (hr : right.node.hasValues = true)
    (h : fitsSets check s left right = true) : Within builtin left.node right.node := by
  have hls : ∀ n ∈ left.kind.parts, n.hasValues = true := (Node.hasValues_iff.1 hl).2
  have hrs : ∀ n ∈ right.kind.parts, n.hasValues = true := (Node.hasValues_iff.1 hr).2
  intro v hv
  unfold Schemata.fitsSets at h
  split at h
  case h_1 variants hk =>
    rw [hk] at hls
    rw [describes_iff, show left.node.kind = .union variants from hk, KindDescribes, Node.someDescribes_iff] at hv
    obtain ⟨n, hn, hd⟩ := hv
    obtain ⟨p, hp, rfl⟩ := left.exists_mem_items 0 hn
    exact hc s p right (hls _ hn) hr (List.all_eq_true.1 h p hp) v hd
  case h_2 variants hk _ =>
    rw [hk] at hrs
    rw [describes_iff, show right.node.kind = .union variants from hk, KindDescribes, Node.someDescribes_iff]
    rcases Bool.or_eq_true_iff.1 h with hcover | hany
    · rw [Bool.and_eq_true, Node.isPrimitive_iff] at hcover
      rw [describes_iff, hcover.1] at hv
      obtain ⟨b, rfl⟩ := hv
      exact exists_of_coversBoolean hcover.2 b
    · obtain ⟨p, hp, hfit⟩ := List.any_eq_true.1 hany
      have hm := Placed.mem_of_mem_items hp
      exact ⟨p.node, hm, hc s left p hl (hrs _ hm) hfit v hv⟩
  case h_3 members hk _ =>
    rw [hk] at hrs
    rw [describes_iff, show right.node.kind = .intersect members from hk, KindDescribes, Node.allDescribe_iff]
    intro n hn
    obtain ⟨p, hp, rfl⟩ := right.exists_mem_items 0 hn
    exact hc s left p hl (hrs _ hn) (List.all_eq_true.1 h p hp) v hv
  case h_4 members hk _ _ =>
    rcases Bool.or_eq_true_iff.1 h with hany | hgather
    · rw [hk] at hls
      rw [describes_iff, show left.node.kind = .intersect members from hk, KindDescribes, Node.allDescribe_iff] at hv
      obtain ⟨p, hp, hfit⟩ := List.any_eq_true.1 hany
      have hm := Placed.mem_of_mem_items hp
      exact hc s p right (hls _ hm) hr hfit v (hv _ hm)
    · split at hgather
      · rename_i properties gathered hkr hg
        obtain ⟨hnull, hundefined, hproperties⟩ := hasProperties_of_gather hl hg hv
        rw [describes_iff, show right.node.kind = .object properties from hkr, KindDescribes]
        rw [Node.hasValues_iff, show right.node.kind = .object properties from hkr] at hr
        exact ⟨hnull, hundefined, hc.fitsProperties hproperties (required_of_hasValues hr) hgather⟩
      · cases hgather
  case h_5 hunion hintersect _ _ => exact hc.fitsStructure hl hr hunion hintersect h v hv

theorem Comparison.Sound.fitsReferences (hc : check.Sound builtin) {left right : Placed}
    (hl : left.node.hasValues = true) (hr : right.node.hasValues = true)
    (h : fitsReferences check s left right = true) : Within builtin left.node right.node := by
  have hlk : left.kind.hasValues = true := (Node.hasValues_iff.1 hl).1
  have hrk : right.kind.hasValues = true := (Node.hasValues_iff.1 hr).1
  unfold Schemata.fitsReferences at h
  split at h
  case h_1 name hk =>
    rw [hk] at hlk
    cases hlk
  case h_2 name hk _ =>
    rw [hk] at hrk
    cases hrk
  case h_3 =>
    split at h
    · rename_i hany
      rw [show left.kind = .primitive .any from Node.isPrimitive_iff.1 hany] at hlk
      cases hlk
    · split at h
      · cases h
      · exact hc.fitsSets hl hr h

theorem Comparison.Sound.fitsBundles (hc : check.Sound builtin) {left right : Placed}
    (hl : left.node.hasValues = true) (hr : right.node.hasValues = true)
    (h : fitsBundles check s left right = true) : Within builtin left.node right.node := by
  have hlk : left.kind.hasValues = true := (Node.hasValues_iff.1 hl).1
  have hrk : right.kind.hasValues = true := (Node.hasValues_iff.1 hr).1
  unfold Schemata.fitsBundles at h
  split at h
  case h_1 definitions root hk =>
    rw [hk] at hrk
    cases hrk
  case h_2 definitions root hk _ =>
    rw [hk] at hlk
    cases hlk
  case h_3 => exact hc.fitsReferences hl hr h

/-- **One comparison is sound** when comparisons of parts are. -/
theorem Comparison.Sound.fitsStep (hc : check.Sound builtin) : Comparison.Sound builtin (fitsStep check) := by
  intro s left right hl hr h v hv
  simp only [Schemata.fitsStep, Bool.or_eq_true] at h
  rcases h with (((hsame | hany) | hunknown) | hnever) | hbundles
  · exact Node.within_of_sameKind hl hr hsame v hv
  · rw [Node.hasValues_iff, Node.isPrimitive_iff.1 hany] at hr
    cases hr.1
  · rw [describes_iff, Node.isPrimitive_iff.1 hunknown]
    trivial
  · rw [describes_iff, Node.isPrimitive_iff.1 hnever] at hv
    exact hv.elim
  · exact hc.fitsBundles hl hr hbundles v hv

/-- **Comparisons of any depth are sound.** -/
theorem sound_compareWithin (builtin : Value → String → Option Value) (fuel : Nat) :
    (compareWithin fuel).Sound builtin := by
  induction fuel with
  | zero =>
    intro s left right _ _ h
    cases h
  | succ fuel ih => exact ih.fitsStep

/-- **The comparison of nodes is sound**: whatever the properties of values other than records are, all values of a node
are values of each node that it fits. -/
theorem within_of_fits (builtin : Value → String → Option Value) {left right : Node} (hl : left.hasValues = true)
    (hr : right.hasValues = true) (h : left.fits right = true) : Within builtin left right :=
  sound_compareWithin builtin _ _ _ _ hl hr h

/-- An intersection of objects, seen as one object, against a union. -/
theorem within_of_fits_tagged :
    let left := Node.intersect [.object [("id", .natural 3)], .object [("tags", .restTuple [.text "on"] .string)]]
    let right := Node.union [.string, .object [("tags", .array .string), ("id", .integer)]]
    let value := Value.record [("id", .number (.ofNat 3)), ("tags", .list [.string "on", .string "off"])]
    (left.hasValues = true ∧ right.hasValues = true ∧ left.fits right = true) ∧
      Describes (fun _ _ => none) left value ∧ Describes (fun _ _ => none) right value := by
  intro left right value
  have hl : left.hasValues = true := by decide +kernel
  have hr : right.hasValues = true := by decide +kernel
  have hfit : left.fits right = true := by decide +kernel
  have hv : Describes (fun _ _ => none) left value := by
    simp [left, value, Node.intersect, Node.object, Node.restTuple, Node.natural, Node.text, Node.literal, Node.string,
      Node.primitive, Node.array, Node.of, Fields.ofList, Fields.insert, Fields.get?, Describes, KindDescribes,
      Node.AllDescribe, DescribeProperties, DescribeItems, Literal.Describes, Primitive.Describes, Value.property?]
    decide
  exact ⟨⟨hl, hr, hfit⟩, hv, within_of_fits _ hl hr hfit value hv⟩

end Schemata
