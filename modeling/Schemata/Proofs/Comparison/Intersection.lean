import Schemata.Proofs.Comparison.Relocation
import Schemata.Proofs.Instantiation.Concrete
import Schemata.Proofs.Operator.Merging
/-!
# Intersections of objects compared with objects

An intersection of objects fits an object when some of its members do, or all of them seen as one object.  What one
property has to be is said once (`Supplies`), for what is seen within some depth (`Seen`) and for what holds over every
depth (`Held`).

Main statement: `intersection_fits_as_evaluated`.
-/
namespace Schemata

open List (Forall₂)

/-! ## One property -/

/-- **What is found for a property that is asked for**: a type that is good enough, and optional only if it may be; an
optional property may be missing. -/
def Supplies (good : Node → Prop) (expected : Node) : Option Node → Prop
  | some actual => (actual.modifiers.optional = true → expected.modifiers.optional = true) ∧ good actual
  | none => expected.modifiers.optional = true

/-- A node on the left that is seen to fit, at some place and within some depth. -/
def Seen (q : Placed) (actual : Node) : Prop := ∃ fuel steps, compareWithin fuel {} ⟨actual, .left, steps⟩ q = true

/-- A node on the left that is taken to fit, at every place and over every depth. -/
def Held (q : Placed) (actual : Node) : Prop := ∀ fuel steps, compareOver fuel {} ⟨actual, .left, steps⟩ q = true

/-- What is seen to fit at one place is held to fit at another, and so are matching nodes. -/
theorem Seen.held {q q' : Placed} {x y : Node} (h : Seen q x) (hxy : x.Matches y) (hq : q.node.isProper = true)
    (hnode : q'.node = q.node) (hside : q.place.side = .right) (hside' : q'.place.side = .right) : Held q' y := by
  obtain ⟨fuel, steps, h⟩ := h
  intro fuel' steps'
  let ρ : Relocation := ⟨fun side => side.pick (steps, q.place.steps), fun side => side.pick (steps', q'.place.steps)⟩
  have hleft : Placed.Like ρ ⟨x, .left, steps⟩ ⟨y, .left, steps'⟩ := ⟨hxy, rfl, [], rfl, rfl⟩
  have hright : Placed.Like ρ q q' := by
    refine ⟨by rw [hnode]; exact .refl hq, hside'.trans hside.symm, [], ?_, ?_⟩ <;> rw [hside] <;> rfl
  exact follows_compareWithin ρ fuel fuel' _ _ _ _ _ _ (.empty ρ) hleft hright h

/-- **Fields on the left that hold what is found.** -/
def Fields.Holds (fields : Fields Placed) (found : String → Option Node) : Prop :=
  ∀ name, Option.Rel (fun p n => p.node = n ∧ p.place.side = .left) (fields.get? name) (found name)

section
variable {right : Placed} {asked : Fields Node} {fields : Fields Placed} {found : String → Option Node}

theorem supplies_of_fitsProperties (hf : fields.Holds found) {fuel : Nat}
    (h : fitsProperties (compareWithin fuel) {} fields (right.properties asked) = true) :
    ∀ e ∈ asked, Supplies (Seen (right.property e.1 e.2)) e.2 (found e.1) := by
  rw [fitsProperties, List.all_eq_true] at h
  intro e he
  obtain ⟨name, expected⟩ := e
  have hfit := h _ (List.mem_map_of_mem he)
  have hname := hf name
  dsimp only at hfit ⊢
  generalize fields.get? name = held, found name = sought at *
  cases hname with
  | none => exact hfit
  | @some p n hp =>
    obtain ⟨node, side, steps⟩ := p
    obtain ⟨rfl, rfl⟩ := hp
    rw [Bool.and_eq_true, Bool.or_eq_true, Bool.not_eq_true'] at hfit
    refine ⟨fun ho => hfit.1.resolve_left fun hn => ?_, fuel, steps, hfit.2⟩
    exact Bool.false_ne_true (hn.symm.trans ho)

theorem fitsProperties_of_supplies (hf : fields.Holds found) (fuel : Nat)
    (h : ∀ e ∈ asked, Supplies (Held (right.property e.1 e.2)) e.2 (found e.1)) :
    fitsProperties (compareOver fuel) {} fields (right.properties asked) = true := by
  rw [fitsProperties, List.all_eq_true]
  intro e he
  obtain ⟨⟨name, expected⟩, hexpected, rfl⟩ := List.mem_map.1 he
  have hname := hf name
  have hfit := h _ hexpected
  dsimp only at hfit ⊢
  generalize fields.get? name = held, found name = sought at *
  cases hname with
  | none => exact hfit
  | @some p n hp =>
    obtain ⟨node, side, steps⟩ := p
    obtain ⟨rfl, rfl⟩ := hp
    rw [Bool.and_eq_true, Bool.or_eq_true, Bool.not_eq_true']
    refine ⟨?_, hfit.2 fuel steps⟩
    cases ho : node.modifiers.optional
    · exact .inl rfl
    · exact .inr (hfit.1 ho)

end

theorem Placed.holds_properties (p : Placed) (hp : p.place.side = .left) (fields : Fields Node) :
    (p.properties fields).Holds fields.get? := by
  intro name
  rw [p.get?_properties]
  cases fields.get? name with
  | none => exact .none
  | some n => exact .some ⟨rfl, hp⟩

/-- Gathered properties are those of the objects, each the first of its name. -/
theorem holds_of_gatherProperties {n : Node} {parts : List (Fields Node)} (h : n.objects = some parts) {place : Place}
    (hplace : place.side = .left) :
    ∃ gathered, gatherProperties place n = some gathered ∧ gathered.Holds (firstOf parts) := by
  induction n using Node.induction_on_parts generalizing parts place with
  | node n ih =>
    obtain ⟨kind, modifiers, annotations⟩ := n
    rcases Node.objects_cases h with ⟨properties, rfl, rfl⟩ | ⟨rfl, rfl⟩ | ⟨ns, rfl, -, hall⟩
    · rw [gatherProperties, firstOf_singleton]
      exact ⟨_, rfl, Placed.holds_properties _ hplace properties⟩
    · rw [gatherProperties, firstOf_singleton]
      exact ⟨[], rfl, fun _ => .none⟩
    · rw [gatherProperties]
      clear h
      generalize 0 = index
      induction ns generalizing index parts with
      | nil =>
        cases hall
        exact ⟨[], rfl, fun _ => .none⟩
      | cons n ns ihs =>
        replace ih : ∀ c ∈ n :: ns, _ := ih
        rw [List.forall_mem_cons] at ih
        obtain ⟨first, more, hfirst, hmore, rfl⟩ := Node.objectsAll_cons hall
        have hdown : (place.down (.item index)).side = .left := hplace
        obtain ⟨gathered, hgathered, hholds⟩ := ih.1 hfirst hdown
        obtain ⟨others, hothers, hothersHold⟩ := ihs ih.2 hmore (index + 1)
        refine ⟨gathered ++ others, by rw [gatherAll, hgathered, hothers]; rfl, fun name => ?_⟩
        have hname := hholds name
        rw [Fields.get?_append, firstOf_append]
        generalize gathered.get? name = held, firstOf first name = sought at *
        cases hname with
        | none => exact hothersHold name
        | some hp => exact .some hp

/-! ## Objects and their intersections on the left -/

section
variable {check : Comparison} {s : Surroundings} {left right : Placed} {asked : Fields Node} {parts : List (Fields Node)}

/-- What has objects is compared with an object by its kind or by its parts. -/
theorem fitsStep_of_objects (hl : left.node.objects = some parts) (hr : right.node.kind = .object asked) :
    fitsStep check s left right =
      (Node.sameKind left.node.kind right.node.kind || fitsSets check s left right) := by
  have hright : ∀ p, right.node.isPrimitive p = false := fun p => by simp [Node.isPrimitive, Node.primitive?, hr]
  have hleft : left.node.kind.isIndirect = false ∧ ∀ p, left.node.isPrimitive p = false := by
    rcases Node.objects_cases hl with ⟨_, hk, -⟩ | ⟨hk, -⟩ | ⟨_, hk, -, -⟩ <;>
      exact ⟨by rw [hk]; rfl, fun p => by simp [Node.isPrimitive, Node.primitive?, hk]⟩
  rw [fitsStep_of_direct hleft.1 (by rw [hr]; rfl)]
  simp [hright, hleft.2, Node.isNever]

/-- An object is compared property by property. -/
theorem fitsSets_of_object {properties : Fields Node} (hl : left.node.kind = .object properties)
    (hr : right.node.kind = .object asked) :
    fitsSets check s left right = fitsProperties check s (left.properties properties) (right.properties asked) := by
  simp only [fitsSets, fitsStructure, Placed.kind, hl, hr]

/-- An intersection is compared member by member, and as the object of all gathered properties. -/
theorem fitsSets_of_intersect {ns : List Node} {gathered : Fields Placed} (hl : left.node.kind = .intersect ns)
    (hr : right.node.kind = .object asked) (hg : gatherProperties left.place left.node = some gathered) :
    fitsSets check s left right = ((left.items 0 ns).any (fun m => check s m right) ||
      fitsProperties check s gathered (right.properties asked)) := by
  rw [fitsSets_of_intersect_left hl (by simp [hr]) (by simp [hr]), hg, hr]

/-- An object that is seen to fit another one supplies all properties that are asked for. -/
theorem supplies_of_compareWithin {n : Node} {properties : Fields Node} (hn : n.kind = .object properties)
    (hdistinct : properties.Distinct) (hk : right.node.kind = .object asked) (hasked : asked.Distinct) {fuel : Nat}
    {steps : List Step} (hfit : compareWithin fuel {} ⟨n, .left, steps⟩ right = true) :
    ∀ e ∈ asked, Supplies (Seen (right.property e.1 e.2)) e.2 (properties.get? e.1) := by
  have hobjects : n.objects = some [properties] := by
    obtain ⟨kind, modifiers, annotations⟩ := n
    cases hn
    rw [Node.objects]
  cases fuel with
  | zero => cases hfit
  | succ fuel =>
    rw [compareWithin, fitsStep_of_objects hobjects hk, Bool.or_eq_true] at hfit
    rcases hfit with hsame | hfit
    · rw [hn, hk] at hsame
      cases Node.sameKind_iff.1 hsame with
      | object hs =>
        intro e he
        obtain ⟨name, expected⟩ := e
        obtain ⟨actual, hactual, hsame⟩ := hs.exists_left hdistinct hasked he
        obtain ⟨hkind, hmodifiers, -⟩ := Node.sameAs_iff.1 hsame
        dsimp only
        rw [Fields.get?_of_mem hdistinct hactual]
        exact ⟨fun ho => hmodifiers ▸ ho, 1, [], fitsStep_of_sameKind (Node.sameKind_iff.2 hkind)⟩
    · rw [fitsSets_of_object hn hk] at hfit
      exact supplies_of_fitsProperties (Placed.holds_properties _ rfl properties) hfit

/-- **What is seen to fit an object** has some of its objects supply all properties that are asked for. -/
theorem exists_supplies_of_compareWithin {n : Node} (hn : n.isProper = true) (h : n.objects = some parts)
    (hk : right.node.kind = .object asked) (hright : right.node.isProper = true) {fuel : Nat} {steps : List Step}
    (hfit : compareWithin fuel {} ⟨n, .left, steps⟩ right = true) :
    ∃ chosen, chosen ≠ [] ∧ chosen ⊆ parts ∧
      ∀ e ∈ asked, Supplies (Seen (right.property e.1 e.2)) e.2 (firstOf chosen e.1) := by
  induction n using Node.induction_on_parts generalizing parts fuel steps with
  | node n ih =>
    obtain ⟨hnk, -, hparts⟩ := Node.isProper_iff.1 hn
    have hasked : asked.Distinct := Kind.distinct_of_object (hk ▸ (Node.isProper_iff.1 hright).1)
    rcases Node.objects_cases h with ⟨properties, hnode, rfl⟩ | hintersect
    · refine ⟨[properties], by simp, List.Subset.refl _, ?_⟩
      rw [firstOf_singleton]
      exact supplies_of_compareWithin hnode (Kind.distinct_of_object (hnode ▸ hnk)) hk hasked hfit
    · cases fuel with
      | zero => cases hfit
      | succ fuel =>
        rw [compareWithin, fitsStep_of_objects h hk, Bool.or_eq_true] at hfit
        obtain ⟨ns, hnode, hall⟩ : ∃ ns, n.kind = .intersect ns ∧ (ns = [] ∨ Node.objectsAll ns = some parts) :=
          hintersect.elim (fun h => ⟨_, h.1, .inl rfl⟩) fun ⟨ns, h, _, hall⟩ => ⟨ns, h, .inr hall⟩
        have hplace : (⟨.left, steps⟩ : Place).side = .left := rfl
        obtain ⟨gathered, hgathered, hholds⟩ := holds_of_gatherProperties h hplace
        rw [fitsSets_of_intersect hnode hk hgathered] at hfit
        simp only [hnode, hk, Node.sameKind, Bool.false_eq_true, false_or, Bool.or_eq_true] at hfit
        rcases hfit with hany | hfit
        · obtain ⟨m, hm, hfit⟩ := List.any_eq_true.1 hany
          obtain ⟨i, x, hx, rfl⟩ := (Placed.mem_items _).1 hm
          have hmem := List.mem_of_getElem? hx
          obtain ⟨more, hmore, hsub⟩ :=
            Node.exists_objects_of_mem (hall.resolve_left (List.ne_nil_of_mem hmem)) hmem
          have hpart : x ∈ n.kind.parts := by rwa [hnode]
          obtain ⟨chosen, hne, hchosen, hsupplies⟩ := ih x hpart (hparts x hpart) hmore hfit
          exact ⟨chosen, hne, fun _ ho => hsub (hchosen ho), hsupplies⟩
        · exact ⟨parts, Node.objects_ne_nil h, List.Subset.refl _, supplies_of_fitsProperties hholds hfit⟩

/-- **What supplies all properties that are asked for** is held to fit, as an object or as an intersection. -/
theorem compareOver_of_supplies {n : Node} (h : n.objects = some parts) (hk : right.node.kind = .object asked)
    (hsupplies : ∀ e ∈ asked, Supplies (Held (right.property e.1 e.2)) e.2 (firstOf parts e.1)) (fuel : Nat)
    (steps : List Step) : compareOver fuel {} ⟨n, .left, steps⟩ right = true := by
  cases fuel with
  | zero => rfl
  | succ fuel =>
    have hplace : (⟨.left, steps⟩ : Place).side = .left := rfl
    rw [compareOver, fitsStep_of_objects h hk, Bool.or_eq_true]
    right
    obtain ⟨gathered, hgathered, hholds⟩ := holds_of_gatherProperties h hplace
    have hfit := fitsProperties_of_supplies hholds fuel hsupplies
    rcases Node.objects_cases h with ⟨properties, hnode, rfl⟩ | ⟨hnode, -⟩ | ⟨ns, hnode, -, -⟩
    · rw [fitsSets_of_object hnode hk]
      rw [firstOf_singleton] at hsupplies
      exact fitsProperties_of_supplies (Placed.holds_properties _ rfl properties) fuel hsupplies
    · rw [fitsSets_of_intersect hnode hk hgathered, hfit, Bool.or_true]
    · rw [fitsSets_of_intersect hnode hk hgathered, hfit, Bool.or_true]

end

/-! ## Comparison before and after evaluation -/

/-- **Types that a property may have in several objects of an intersection**: equal ones that comparisons do not tell
apart. -/
def Node.Agree (x y : Node) : Prop := (x == y) = true ∧ x.Matches y

section
variable {n r : Node} {parts : List (Fields Node)} {asked : Fields Node}

/-- Evaluating an intersection of objects gives an object that holds what the objects agree on. -/
theorem instantiate_evaluate {ns : List Node} (hk : n.kind = .intersect ns) (hn : n.isProper = true)
    (hconcrete : n.isConcrete = true) (hparts : n.objects = some parts) {limits : Limits}
    (hroom : (Node.evaluate n).height ≤ limits.maxDepth) (context : Context) :
    ∃ properties : Fields Node, instantiate limits context (Node.evaluate n) = .done (.of (.object properties)) ∧
      properties.Distinct ∧ ∀ name, AgreeOn Node.Agree name parts → properties.get? name = firstOf parts name := by
  obtain ⟨properties, hcollapse, hd, hget⟩ := get?_of_collapse hn hparts
  refine ⟨properties, ?_, hd, fun name hagree => hget name (hagree.imp fun _ _ h => h.1)⟩
  have hoperands : ∀ c ∈ [n], c.isConcrete = true := by simpa using hconcrete
  have hreduce : reduceEager (Operator.evaluate.setting limits context) [n] = .done (some (.of (.object properties))) := by
    obtain ⟨kind, modifiers, annotations⟩ := n
    cases hk
    simp only [reduceEager, Operator.setting, evaluateShape, Setting.openSubject, Setting.openWithin, Setting.openNode,
      evaluateLeaf, hcollapse]
    rfl
  have hevaluate : (Node.evaluate n).kind = .deferred .evaluate [n] [] := rfl
  rw [instantiate_of_isEager hevaluate rfl hoperands, if_pos hroom, hreduce]
  rfl

/-- What some of the objects supply, all of them supply, the first that has a property before the others. -/
theorem supplies_of_chosen (hn : n.isProper = true) (hparts : n.objects = some parts) {q : Placed} {e : String × Node}
    (he : e.2.isProper = true) (hq : q.node = e.2) (hside : q.place.side = .right) (hagree : AgreeOn Node.Agree e.1 parts)
    (hoptional : e.2.modifiers.optional = true → ∀ part ∈ parts, ∀ x, Fields.get? part e.1 = some x →
      x.fits e.2 = true ∨ ∀ other ∈ parts, Fields.has other e.1 = true)
    {chosen : List (Fields Node)} (hne : chosen ≠ []) (hsub : chosen ⊆ parts)
    (h : Supplies (Seen q) e.2 (firstOf chosen e.1)) : Supplies (Held q) e.2 (firstOf parts e.1) := by
  have hqproper : q.node.isProper = true := by rwa [hq]
  cases hc : firstOf chosen e.1 with
  | some y =>
    rw [hc] at h
    obtain ⟨part, hpart, hy⟩ := List.exists_of_findSome?_eq_some hc
    obtain ⟨x, hx, hxy⟩ := hagree.exists_first (hsub hpart) hy
    have hmatches : x.Matches y ∧ x.modifiers = y.modifiers := by
      rcases hxy with rfl | hxy
      · exact ⟨.refl (Node.isProper_of_objects hn hparts (hsub hpart) hy), rfl⟩
      · exact ⟨hxy.2, (Node.sameAs_iff.1 hxy.1).2.1⟩
    rw [hx]
    exact ⟨fun ho => h.1 (hmatches.2 ▸ ho), h.2.held hmatches.1.symm hqproper rfl hside hside⟩
  | none =>
    rw [hc] at h
    cases hx : firstOf parts e.1 with
    | none => exact h
    | some x =>
      obtain ⟨part, hpart, hpartx⟩ := List.exists_of_findSome?_eq_some hx
      rcases hoptional h part hpart x hpartx with hfit | hall
      · have hseen : Seen ⟨e.2, .right, []⟩ x := ⟨_, _, hfit⟩
        exact ⟨fun _ => h, hseen.held (.refl (Node.isProper_of_objects hn hparts hpart hpartx)) he hq rfl hside⟩
      · obtain ⟨other, hother⟩ := List.exists_mem_of_ne_nil chosen hne
        have hhas := hall other (hsub hother)
        rw [Fields.has, List.findSome?_eq_none_iff.1 hc other hother] at hhas
        cases hhas

/-- **Comparing an intersection of objects agrees with evaluating it first**, as far as the objects agree on what the
other object asks for: where several have a property that it names they hold equal types for it, and what some of them
hold for a property that it names as optional fits, unless they all have the property. -/
theorem intersection_fits_as_evaluated {ns : List Node} (hk : n.kind = .intersect ns) (hparts : n.objects = some parts)
    (hn : n.isProper = true) (hconcrete : n.isConcrete = true) (hasked : r.kind = .object asked) (hr : r.isProper = true)
    (hagree : ∀ e ∈ asked, AgreeOn Node.Agree e.1 parts)
    (hoptional : ∀ e ∈ asked, e.2.modifiers.optional = true → ∀ part ∈ parts, ∀ x, Fields.get? part e.1 = some x →
      x.fits e.2 = true ∨ ∀ other ∈ parts, Fields.has other e.1 = true)
    {limits : Limits} (hroom : (Node.evaluate n).height ≤ limits.maxDepth) (context : Context) :
    ∃ properties : Fields Node, instantiate limits context (Node.evaluate n) = .done (.of (.object properties)) ∧
      (n.WithinDepth r → Node.WithinDepth (.of (.object properties)) r →
        n.fits r = Node.fits (.of (.object properties)) r) := by
  obtain ⟨properties, hdone, hdistinct, hget⟩ := instantiate_evaluate hk hn hconcrete hparts hroom context
  refine ⟨properties, hdone, fun hdepth hdepth' => ?_⟩
  have haskedDistinct : asked.Distinct := Kind.distinct_of_object (hasked ▸ (Node.isProper_iff.1 hr).1)
  have hobjects : Node.objects (.of (.object properties)) = some [properties] := by rw [Node.of, Node.objects]
  -- Whatever objects supply what is asked for, the first of them do, and these are what the evaluation has kept.
  have hall {chosen : List (Fields Node)} (hne : chosen ≠ []) (hsub : chosen ⊆ parts)
      (h : ∀ e ∈ asked, Supplies (Seen (Placed.property ⟨r, .right, []⟩ e.1 e.2)) e.2 (firstOf chosen e.1)) :
      ∀ e ∈ asked, Supplies (Held (Placed.property ⟨r, .right, []⟩ e.1 e.2)) e.2 (firstOf parts e.1) := fun e he =>
    supplies_of_chosen hn hparts
      ((Node.isProper_iff.1 hr).2.2 e.2 (by rw [hasked]; exact List.mem_map_of_mem he)) rfl rfl (hagree e he)
      (hoptional e he) hne hsub (h e he)
  rw [Bool.eq_iff_iff]
  constructor
  · intro hfit
    obtain ⟨chosen, hne, hsub, hsupplies⟩ := exists_supplies_of_compareWithin hn hparts hasked hr hfit
    rw [← hdepth']
    refine compareOver_of_supplies hobjects hasked (fun e he => ?_) _ _
    rw [firstOf_singleton, hget e.1 (hagree e he)]
    exact hall hne hsub hsupplies e he
  · intro hfit
    have hsupplies := supplies_of_compareWithin rfl hdistinct hasked haskedDistinct hfit
    rw [← hdepth]
    refine compareOver_of_supplies hparts hasked (hall (Node.objects_ne_nil hparts) (List.Subset.refl _) fun e he => ?_) _ _
    rw [← hget e.1 (hagree e he)]
    exact hsupplies e he

end

/-- A type that two objects hold for one name, an intersection within an intersection, and an optional property. -/
theorem intersection_fits_as_evaluated_account :
    let name : Node := .union [.string, .null]
    let account : Node := .intersect [.object [("name", name)],
      .intersect [.object [("age", .natural 3), ("name", name)], .object [("tags", .array .string)]]]
    let wanted : Node := .object [("name", name), ("age", ⟨.primitive .number, ⟨true, false⟩, []⟩)]
    let evaluated : Node := .object [("name", name), ("age", .natural 3), ("tags", .array .string)]
    instantiate {} [] (Node.evaluate account) = .done evaluated ∧ account.WithinDepth wanted ∧
      evaluated.WithinDepth wanted ∧ account.fits wanted = evaluated.fits wanted := by
  intro name account wanted evaluated
  let parts : List (Fields Node) := [[("name", name)], [("age", .natural 3), ("name", name)], [("tags", .array .string)]]
  let asked : Fields Node := [("name", name), ("age", ⟨.primitive .number, ⟨true, false⟩, []⟩)]
  have hvalue : instantiate {} [] (Node.evaluate account) = .done evaluated := by with_unfolding_all rfl
  have hdepth : account.WithinDepth wanted := by decide +kernel
  have hdepth' : evaluated.WithinDepth wanted := by decide +kernel
  have hname : name.Agree name := ⟨by decide +kernel, .refl (by decide +kernel)⟩
  have hagree : ∀ e ∈ asked, AgreeOn Node.Agree e.1 parts := by
    simp [asked, parts, AgreeOn, Fields.get?, hname]
  have hoptional : ∀ e ∈ asked, e.2.modifiers.optional = true → ∀ part ∈ parts, ∀ x, Fields.get? part e.1 = some x →
      x.fits e.2 = true ∨ ∀ other ∈ parts, Fields.has other e.1 = true := by
    have hrequired : name.modifiers.optional = false := rfl
    have hage : Node.fits (.natural 3) ⟨.primitive .number, ⟨true, false⟩, []⟩ = true := by decide +kernel
    simp [asked, parts, Fields.get?, hage, hrequired]
  obtain ⟨properties, hdone, hfits⟩ := intersection_fits_as_evaluated (n := account) (r := wanted) rfl rfl
    (by decide +kernel) (by decide +kernel) rfl (by decide +kernel) hagree hoptional
    (show (Node.evaluate account).height ≤ Limits.maxDepth {} by decide +kernel) []
  have hevaluated : evaluated = .of (.object properties) := Outcome.done.inj (hvalue.symm.trans hdone)
  rw [← hevaluated] at hfits
  exact ⟨hvalue, hdepth, hdepth', hfits hdepth hdepth'⟩

/-- **Types that several objects hold for one property** are not brought together where an intersection is compared:
the first of them stands for all.  So a comparison may fail that holds after evaluation, and one may hold, by one member
alone, that fails after it: by types that overlap, or by a property that the member lacks. -/
theorem intersection_fits_apart :
    let wide : Node := .union [.string, .number]
    let narrowed : Node := .intersect [.object [("k", wide), ("b", .boolean)], .object [("k", .string)]]
    let merged : Node := .object [("k", .intersect [wide, .string]), ("b", .boolean)]
    let both : Node := .object [("k", .string), ("b", .boolean)]
    let choice : Node := .union [.text "a", .text "b"]
    let refined : Node := .intersect [.object [("k", choice)], .object [("k", .string)]]
    let listed : Node := .object [("k", .union [.text "a", .text "b", .text "c"])]
    let extended : Node := .intersect [.object [("b", .number)], .object [("k", .string)]]
    let lenient : Node := .object [("k", ⟨.primitive .number, ⟨true, false⟩, []⟩)]
    (instantiate {} [] (Node.evaluate narrowed) = .done merged ∧ narrowed.WithinDepth both ∧ merged.WithinDepth both ∧
        narrowed.fits both = false ∧ merged.fits both = true) ∧
      (instantiate {} [] (Node.evaluate refined) = .done (.object [("k", .intersect [choice, .string])]) ∧
        refined.fits listed = true ∧ Node.fits (.object [("k", .intersect [choice, .string])]) listed = false) ∧
      (instantiate {} [] (Node.evaluate extended) = .done (.object [("b", .number), ("k", .string)]) ∧
        extended.fits lenient = true ∧ Node.fits (.object [("b", .number), ("k", .string)]) lenient = false) := by
  refine ⟨⟨by with_unfolding_all rfl, ?_⟩, ⟨by with_unfolding_all rfl, ?_⟩, by with_unfolding_all rfl, ?_⟩
  all_goals decide +kernel

end Schemata
