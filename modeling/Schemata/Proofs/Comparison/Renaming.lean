import Mathlib.Data.Prod.Basic
import Schemata.Comparison
import Schemata.Node.Build
import Schemata.Proofs.Node.Names
import Schemata.Proofs.Node.Renaming
/-!
# Comparison under other names

A comparison looks definitions up by name, in the bundles that it has entered on either side.  Renaming both sides at once
changes none of its answers (`fits_rename_both`): each layer of rules is natural when the comparison of parts is
(`Natural.fitsStructure`, `Natural.fitsSets`, `Natural.fitsStep`).
-/
namespace Schemata

/-! ## Places, parts and surroundings -/

def Step.rename (ρ : String → String) : Step → Step
  | .definition name => .definition (ρ name)
  | step => step

def Place.rename (ρ : String → String) (place : Place) : Place :=
  { place with steps := place.steps.map (Step.rename ρ) }

def Placed.rename (ρ : String → String) (p : Placed) : Placed := ⟨p.node.rename ρ, p.place.rename ρ⟩

/-- **Surroundings under other names**: bundles with their definitions, and the places of the pairs. -/
def Surroundings.rename (ρ : String → String) (s : Surroundings) : Surroundings where
  scopes := s.scopes.map (Fields.rename ρ (Placed.rename ρ))
  assumed := s.assumed.map fun pair => (pair.1.rename ρ, pair.2.rename ρ)

/-- **A comparison that answers the same under other names.** -/
def Comparison.Natural (ρ : String → String) (check : Comparison) : Prop :=
  ∀ s left right, check (s.rename ρ) (left.rename ρ) (right.rename ρ) = check s left right

variable {ρ : Equiv.Perm String} {check : Comparison} {s : Surroundings}

theorem Step.rename_injective : (Step.rename ρ).Injective := by
  intro a b h
  cases a <;> cases b <;> simp_all [Step.rename]

theorem Place.rename_injective : (Place.rename ρ).Injective := by
  intro a b h
  obtain ⟨side, steps⟩ := a
  obtain ⟨side', steps'⟩ := b
  obtain ⟨hside, hsteps⟩ := Place.mk.inj h
  rw [Place.mk.injEq]
  exact ⟨hside, List.map_injective_iff.2 Step.rename_injective hsteps⟩

namespace Placed

variable (p : Placed)

theorem kind_rename : (p.rename ρ).kind = p.kind.relabel ρ (Node.rename ρ) := p.node.kind_rename ρ

theorem item_rename (index : Nat) (n : Node) : (p.rename ρ).item index (n.rename ρ) = (p.item index n).rename ρ := rfl

theorem items_rename (first : Nat) (ns : List Node) :
    (p.rename ρ).items first (ns.map (Node.rename ρ)) = (p.items first ns).map (Placed.rename ρ) := by
  induction ns generalizing first with
  | nil => rfl
  | cons n ns ih => simp only [List.map_cons, items, ih, item_rename]

theorem properties_rename (fields : Fields Node) :
    (p.rename ρ).properties (fields.map fun e => (e.1, e.2.rename ρ)) =
      (p.properties fields).mapValues (Placed.rename ρ) := by
  simp only [properties, Fields.mapValues, List.map_map]
  rfl

theorem definitions_rename (fields : Fields Node) :
    (p.rename ρ).definitions (fields.map fun e => (ρ e.1, e.2.rename ρ)) =
      (p.definitions fields).rename ρ (Placed.rename ρ) := by
  simp only [definitions, Fields.rename, List.map_map]
  rfl

end Placed

theorem Surroundings.lookup_rename (s : Surroundings) (name : String) :
    (s.rename ρ).lookup (ρ name) = (s.lookup name).map (Placed.rename ρ) := by
  simp only [lookup, rename]
  induction s.scopes with
  | nil => rfl
  | cons scope scopes ih =>
    simp only [List.map_cons, List.findSome?_cons, Fields.get?_rename ρ.injective]
    cases scope.get? name with
    | none => exact ih
    | some p => rfl

theorem Surroundings.assumed_rename (s : Surroundings) (a b : Place) :
    (s.rename ρ).assumed.contains (a.rename ρ, b.rename ρ) = s.assumed.contains (a, b) := by
  rw [Bool.eq_iff_iff, List.contains_iff_mem, List.contains_iff_mem]
  change Prod.map (Place.rename ρ) (Place.rename ρ) (a, b) ∈ s.assumed.map (Prod.map (Place.rename ρ) (Place.rename ρ)) ↔ _
  exact List.mem_map_of_injective (Place.rename_injective.prodMap Place.rename_injective)

/-! ## Rules without parts -/

section
variable (n : Node)

@[simp] theorem Node.isPrimitive_rename (p : Primitive) : (n.rename ρ).isPrimitive p = n.isPrimitive p := by
  unfold isPrimitive primitive?
  rw [kind_rename]
  cases n.kind <;> rfl

@[simp] theorem Node.isNever_rename : (n.rename ρ).isNever = n.isNever := n.isPrimitive_rename .never

@[simp] theorem Node.literal?_rename : (n.rename ρ).literal? = n.literal? := by
  unfold literal?
  rw [kind_rename]
  cases n.kind <;> rfl

end

theorem coversBoolean_rename (variants : List Node) :
    coversBoolean (variants.map (Node.rename ρ)) = coversBoolean variants := by
  simp [coversBoolean, List.any_map, Function.comp_def]

theorem Pattern.ofNode_rename (n : Node) : Pattern.ofNode (n.rename ρ) = Pattern.ofNode n := by
  induction n using Node.induction_on_parts with
  | node n ih =>
    obtain ⟨kind, modifiers, annotations⟩ := n
    rw [Node.rename_mk]
    cases kind with
    | primitive p => cases p <;> simp only [Kind.relabel, Kind.map, ofNode]
    | union variants =>
      simp only [Kind.relabel, Kind.map, ofNode, ofNodes_eq_map, List.map_map]
      exact congrArg choice (List.map_congr_left ih)
    | templatePattern fragments =>
      simp only [Kind.relabel, Kind.map, ofNode, ofNodes_eq_map, List.map_map]
      exact congrArg sequence (List.map_congr_left ih)
    | _ => simp only [Kind.relabel, Kind.map, ofNode]

theorem Pattern.ofFragments_rename (fragments : List Node) :
    Pattern.ofFragments (fragments.map (Node.rename ρ)) = Pattern.ofFragments fragments := by
  rw [ofFragments, ofFragments, ofNodes_eq_map, ofNodes_eq_map, List.map_map]
  exact congrArg sequence (List.map_congr_left fun n _ => ofNode_rename n)

theorem admitsName_rename (name : String) (n : Node) : admitsName name (n.rename ρ) = admitsName name n := by
  induction n using Node.induction_on_parts with
  | node n ih =>
    obtain ⟨kind, modifiers, annotations⟩ := n
    rw [Node.rename_mk]
    cases kind with
    | primitive p => cases p <;> simp only [Kind.relabel, Kind.map, admitsName]
    | union variants =>
      simp only [Kind.relabel, Kind.map, admitsName]
      replace ih : ∀ c ∈ variants, admitsName name (c.rename ρ) = admitsName name c := ih
      induction variants with
      | nil => rfl
      | cons n ns ihs =>
        rw [List.forall_mem_cons] at ih
        rw [List.map_cons, anyAdmitsName, anyAdmitsName, ih.1, ihs ih.2]
    | templatePattern fragments =>
      simp only [Kind.relabel, Kind.map, admitsName, Pattern.ofFragments_rename]
    | _ => simp only [Kind.relabel, Kind.map, admitsName]

/-- Properties are gathered under the same names, from the renamed places. -/
theorem gatherProperties_rename (place : Place) (n : Node) :
    gatherProperties (place.rename ρ) (n.rename ρ) =
      (gatherProperties place n).map (Fields.mapValues (Placed.rename ρ)) := by
  induction n using Node.induction_on_parts generalizing place with
  | node n ih =>
    obtain ⟨kind, modifiers, annotations⟩ := n
    rw [Node.rename_mk]
    cases kind with
    | object properties =>
      simp only [Kind.relabel, Kind.map, gatherProperties, Option.map_some]
      exact congrArg some (Placed.properties_rename ⟨⟨.object properties, modifiers, annotations⟩, place⟩ properties)
    | intersect members =>
      simp only [Kind.relabel, Kind.map, gatherProperties]
      replace ih : ∀ c ∈ members, _ := ih
      generalize 0 = index
      induction members generalizing index with
      | nil => rfl
      | cons n ns ihs =>
        rw [List.forall_mem_cons] at ih
        have hn : gatherProperties ((place.rename ρ).down (.item index)) (n.rename ρ) = _ :=
          ih.1 (place.down (.item index))
        simp only [List.map_cons, gatherAll, hn, ihs ih.2]
        cases gatherProperties (place.down (.item index)) n with
        | none => rfl
        | some fields =>
          cases gatherAll place (index + 1) ns with
          | none => rfl
          | some others => exact congrArg some List.map_append.symm
    | _ => simp only [Kind.relabel, Kind.map, gatherProperties, Option.map_none]

/-! ## Rules with parts -/

namespace Comparison.Natural

theorem assuming (hc : check.Natural ρ) (left right targetLeft targetRight : Placed) :
    assuming check (s.rename ρ) (left.rename ρ) (right.rename ρ) (targetLeft.rename ρ) (targetRight.rename ρ) =
      assuming check s left right targetLeft targetRight := by
  have hstep := hc { s with assumed := (left.place, right.place) :: s.assumed } targetLeft targetRight
  unfold Schemata.assuming
  dsimp only
  rw [← hstep]
  exact congrArg (· || _) (s.assumed_rename left.place right.place)

theorem fitsProperties (hc : check.Natural ρ) (left right : Fields Placed) :
    fitsProperties check (s.rename ρ) (left.mapValues (Placed.rename ρ)) (right.mapValues (Placed.rename ρ)) =
      fitsProperties check s left right := by
  unfold Schemata.fitsProperties
  rw [Fields.mapValues, List.all_map]
  refine congrArg right.all (funext fun e => ?_)
  dsimp only [Function.comp]
  rw [Fields.get?_mapValues]
  cases left.get? e.1 with
  | none => exact congrArg Modifiers.optional (e.2.node.modifiers_rename ρ)
  | some actual =>
    refine congrArg₂ (· && ·) ?_ (hc s actual e.2)
    simp [Placed.rename]

theorem all (hc : check.Natural ρ) (pairs : List (Placed × Placed)) :
    ((pairs.map (Prod.map (Placed.rename ρ) (Placed.rename ρ))).all fun e => check (s.rename ρ) e.1 e.2) =
      pairs.all fun e => check s e.1 e.2 := by
  rw [List.all_map]
  exact congrArg pairs.all (funext fun e => hc s e.1 e.2)

theorem fitsSignature (hc : check.Natural ρ) (ls rs : List Placed) (left right : Placed) :
    fitsSignature check (s.rename ρ) (ls.map (Placed.rename ρ)) (rs.map (Placed.rename ρ)) (left.rename ρ)
      (right.rename ρ) = fitsSignature check s ls rs left right := by
  have hback : (((ls.zip rs).map (Prod.map (Placed.rename ρ) (Placed.rename ρ))).all
      fun e => check (s.rename ρ) e.2 e.1) = (ls.zip rs).all fun e => check s e.2 e.1 := by
    rw [List.all_map]
    exact congrArg (ls.zip rs).all (funext fun e => hc s e.2 e.1)
  simp only [Schemata.fitsSignature, List.length_map, List.zip_map, hback, hc s left right]

theorem fitsItem (hc : check.Natural ρ) (isRest : Bool) (item bound : Placed) :
    fitsItem check (s.rename ρ) isRest (item.rename ρ) (bound.rename ρ) = fitsItem check s isRest item bound := by
  unfold Schemata.fitsItem
  rw [Placed.kind_rename]
  cases item.kind <;> cases isRest <;> first | exact hc s item bound | exact hc s (item.item 0 _) bound

theorem fitsItems (hc : check.Natural ρ) (rest : Bool) (bound : Placed) (items : List Placed) :
    fitsItems check (s.rename ρ) rest (bound.rename ρ) (items.map (Placed.rename ρ)) =
      fitsItems check s rest bound items := by
  induction items with
  | nil => rfl
  | cons item items ih =>
    cases items with
    | nil => exact hc.fitsItem rest item bound
    | cons next more => exact congrArg₂ (· && ·) (hc.fitsItem false item bound) ih

theorem fitsStructure (hc : check.Natural ρ) (left right : Placed) :
    fitsStructure check (s.rename ρ) (left.rename ρ) (right.rename ρ) = fitsStructure check s left right := by
  unfold Schemata.fitsStructure
  rw [Placed.kind_rename, Placed.kind_rename]
  generalize left.kind = lkind, right.kind = rkind
  cases lkind <;> cases rkind <;> dsimp only [Kind.relabel, Kind.map]
  case object.object ls rs => rw [Placed.properties_rename, Placed.properties_rename, hc.fitsProperties]
  case literal.templatePattern l fragments =>
    cases l with
    | string text => exact congrArg (Pattern.accepts · text) (Pattern.ofFragments_rename fragments)
    | _ => rfl
  case array.array l r => exact hc s (left.item 0 l) (right.item 0 r)
  case wrapper.wrapper lw l rw r => exact congrArg (_ && ·) (hc s (left.item 0 l) (right.item 0 r))
  case tuple.array items rest r =>
    rw [Placed.items_rename]
    exact hc.fitsItems rest (right.item 0 r) (left.items 0 items)
  case tuple.tuple ls lrest rs rrest =>
    rw [Placed.items_rename, Placed.items_rename, List.zip_map, hc.all, List.length_map, List.length_map]
  case object.dictionary ls key value =>
    rw [Placed.properties_rename, Fields.mapValues, List.all_map]
    refine congrArg (List.all _) (funext fun e => ?_)
    exact congrArg₂ (· && ·) (admitsName_rename e.1 key) (hc s e.2 (right.item 1 value))
  case dictionary.dictionary lkey lvalue rkey rvalue =>
    exact congrArg₂ (· && ·) (hc s (left.item 0 lkey) (right.item 0 rkey)) (hc s (left.item 1 lvalue) (right.item 1 rvalue))
  case function.function ls l rs r | constructor.constructor ls l rs r =>
    rw [Placed.items_rename, Placed.items_rename, List.length_map, List.length_map]
    exact hc.fitsSignature (left.items 0 ls) (right.items 0 rs) (left.item ls.length l) (right.item rs.length r)
  case templatePattern.primitive fragments p => cases p <;> rfl
  -- What is left is an object on the right, of which only the absence of properties counts.
  all_goals
    rename_i properties
    cases properties <;> rfl

/-- Each part on the left, against the right side. -/
theorem left_parts (hc : check.Natural ρ) (left right : Placed) (ns : List Node) :
    ((left.rename ρ).items 0 (ns.map (Node.rename ρ))).map (check (s.rename ρ) · (right.rename ρ)) =
      (left.items 0 ns).map (check s · right) := by
  rw [Placed.items_rename, List.map_map]
  exact List.map_congr_left fun p _ => hc s p right

/-- The left side, against each part on the right. -/
theorem right_parts (hc : check.Natural ρ) (left right : Placed) (ns : List Node) :
    ((right.rename ρ).items 0 (ns.map (Node.rename ρ))).map (check (s.rename ρ) (left.rename ρ)) =
      (right.items 0 ns).map (check s left) := by
  rw [Placed.items_rename, List.map_map]
  exact List.map_congr_left fun p _ => hc s left p

theorem all_eq_of_map {α : Type} {f g : α → Bool} {xs ys : List α} (h : xs.map f = ys.map g) : xs.all f = ys.all g := by
  have hall := congrArg (List.all · id) h
  simpa only [List.all_map, Function.id_comp] using hall

theorem any_eq_of_map {α : Type} {f g : α → Bool} {xs ys : List α} (h : xs.map f = ys.map g) : xs.any f = ys.any g := by
  have hany := congrArg (List.any · id) h
  simpa only [List.any_map, Function.id_comp] using hany

theorem fitsSets (hc : check.Natural ρ) (left right : Placed) :
    fitsSets check (s.rename ρ) (left.rename ρ) (right.rename ρ) = fitsSets check s left right := by
  have hstructure := hc.fitsStructure (s := s) left right
  have hboolean : (left.rename ρ).node.isPrimitive .boolean = left.node.isPrimitive .boolean :=
    left.node.isPrimitive_rename .boolean
  have hgather : gatherProperties (left.rename ρ).place (left.rename ρ).node =
      (gatherProperties left.place left.node).map (Fields.mapValues (Placed.rename ρ)) :=
    gatherProperties_rename left.place left.node
  unfold Schemata.fitsSets
  rw [hboolean, hgather, hstructure, Placed.kind_rename, Placed.kind_rename]
  generalize left.kind = lkind
  generalize right.kind = rkind
  cases lkind <;> cases rkind <;> dsimp only [Kind.relabel, Kind.map]
  case intersect.object members properties =>
    rw [any_eq_of_map (hc.left_parts left right members)]
    cases gatherProperties left.place left.node with
    | none => rfl
    | some gathered =>
      have hproperties := hc.fitsProperties (s := s) gathered (right.properties properties)
      rw [← Placed.properties_rename] at hproperties
      exact congrArg (_ || ·) hproperties
  all_goals first
    | rfl
    | exact all_eq_of_map (hc.left_parts left right _)
    | exact all_eq_of_map (hc.right_parts left right _)
    | rw [coversBoolean_rename, any_eq_of_map (hc.right_parts left right _)]
    | rw [any_eq_of_map (hc.left_parts left right _)]

theorem of_found {found : Option Placed} {f g : Placed → Bool} (h : ∀ p, f (p.rename ρ) = g p) :
    (match found.map (Placed.rename ρ) with
      | some target => f target
      | none => false) =
    (match found with
      | some target => g target
      | none => false) := by
  cases found with
  | none => rfl
  | some target => exact h target

theorem fitsReferences (hc : check.Natural ρ) (left right : Placed) :
    fitsReferences check (s.rename ρ) (left.rename ρ) (right.rename ρ) = fitsReferences check s left right := by
  have hsets := hc.fitsSets (s := s) left right
  have hany : (left.rename ρ).node.isPrimitive .any = left.node.isPrimitive .any := left.node.isPrimitive_rename .any
  have hnever : (right.rename ρ).node.isNever = right.node.isNever := right.node.isNever_rename
  unfold Schemata.fitsReferences
  rw [hany, hnever, hsets, Placed.kind_rename, Placed.kind_rename]
  generalize left.kind = lkind
  generalize right.kind = rkind
  cases lkind <;> cases rkind <;> dsimp only [Kind.relabel, Kind.map]
  all_goals first
    | rfl
    | rw [s.lookup_rename]
      exact of_found fun target => hc.assuming left right target right
    | rw [s.lookup_rename]
      exact of_found fun target => hc.assuming left right left target

theorem fitsBundles (hc : check.Natural ρ) (left right : Placed) :
    fitsBundles check (s.rename ρ) (left.rename ρ) (right.rename ρ) = fitsBundles check s left right := by
  have hreferences := hc.fitsReferences (s := s) left right
  unfold Schemata.fitsBundles
  rw [hreferences, Placed.kind_rename, Placed.kind_rename]
  generalize left.kind = lkind
  generalize right.kind = rkind
  cases lkind <;> cases rkind <;> dsimp only [Kind.relabel, Kind.map]
  all_goals first
    | rfl
    | rw [Placed.definitions_rename, Fields.get?_rename ρ.injective]
      exact of_found fun target => hc { s with scopes := right.definitions _ :: s.scopes } left target
    | rw [Placed.definitions_rename, Fields.get?_rename ρ.injective]
      exact of_found fun target => hc { s with scopes := left.definitions _ :: s.scopes } target right

/-- **One comparison is natural** when comparisons of parts are. -/
theorem fitsStep (hc : check.Natural ρ) : Comparison.Natural ρ (fitsStep check) := by
  intro s left right
  have hkind : Node.sameKind (left.rename ρ).kind (right.rename ρ).kind = Node.sameKind left.kind right.kind :=
    Node.sameKind_rename left.node right.node
  unfold Schemata.fitsStep
  rw [hkind, hc.fitsBundles]
  simp [Placed.rename]

end Comparison.Natural

theorem natural_compareWithin (ρ : Equiv.Perm String) (fuel : Nat) : (compareWithin fuel).Natural ρ := by
  induction fuel with
  | zero => exact fun _ _ _ => rfl
  | succ fuel ih => exact ih.fitsStep

/-- **Comparison does not depend on names**, as long as both sides are renamed alike. -/
theorem fits_rename_both (ρ : Equiv.Perm String) (left right : Node) :
    (left.rename ρ).fits (right.rename ρ) = left.fits right :=
  natural_compareWithin ρ maxComparisonDepth {} ⟨left, .left, []⟩ ⟨right, .right, []⟩

/-! ## Renaming one side -/

/-- **Comparison does not depend on the names of one side**, bundles or anything else, as long as the names that change are
not names of the other side, neither before nor after. -/
theorem fits_rename {left right : Node} {ρ : String → String}
    (hinjective : ∀ x ∈ left.names, ∀ y ∈ left.names, ρ x = ρ y → x = y)
    (hapart : ∀ x ∈ left.names, ρ x = x ∨ (x ∉ right.names ∧ ρ x ∉ right.names)) :
    (left.rename ρ).fits right = left.fits right := by
  -- One renaming of both sides: `ρ` on the left, and nothing on the right.
  let f (x : String) : String := if x ∈ left.names then ρ x else x
  have hleft : ∀ x ∈ left.names, f x = ρ x := fun x hx => if_pos hx
  have hright : ∀ x ∈ right.names, f x = x := by
    intro x hx
    by_cases hl : x ∈ left.names
    · rw [hleft x hl]
      exact (hapart x hl).resolve_right fun h => h.1 hx
    · exact if_neg hl
  have hmixed : ∀ x ∈ left.names, ∀ y ∈ right.names, f x = f y → x = y := by
    intro x hx y hy he
    rw [hleft x hx, hright y hy] at he
    rcases hapart x hx with hx' | hx'
    · exact hx'.symm.trans he
    · exact absurd (he ▸ hy) hx'.2
  obtain ⟨σ, hσ⟩ := exists_perm_of_injective_on f (left.names ++ right.names) fun x hx y hy he => by
    rcases List.mem_append.1 hx with hx | hx <;> rcases List.mem_append.1 hy with hy | hy
    · exact hinjective x hx y hy (by rwa [hleft x hx, hleft y hy] at he)
    · exact hmixed x hx y hy he
    · exact (hmixed y hy x hx he.symm).symm
    · rwa [hright x hx, hright y hy] at he
  have hl : left.rename σ = left.rename ρ :=
    Node.rename_congr fun x hx => (hσ x (List.mem_append_left _ hx)).trans (hleft x hx)
  have hr : right.rename σ = right :=
    Node.rename_of_fixed fun x hx => (hσ x (List.mem_append_right _ hx)).trans (hright x hx)
  rw [← fits_rename_both σ left right, hl, hr]

/-- Two closed bundles, the left one under other names. -/
theorem fits_rename_bundles :
    let left := Node.cyclic [("A", .object [("next", .reference "A"), ("item", .reference "X")]), ("X", .string)] "A"
    let right := Node.cyclic [("L", .object [("next", .reference "L"), ("item", .reference "Y")]), ("Y", .number)] "L"
    let ρ := fun name => name ++ "0"
    ((∀ x ∈ left.names, ∀ y ∈ left.names, ρ x = ρ y → x = y) ∧
      ∀ x ∈ left.names, ρ x = x ∨ (x ∉ right.names ∧ ρ x ∉ right.names)) ∧
      (left.rename ρ).fits right = left.fits right := by
  intro left right ρ
  have hnames : left.names = ["A", "A", "X", "A", "X"] := by decide +kernel
  have hothers : right.names = ["L", "L", "Y", "L", "Y"] := by decide +kernel
  have hinjective : ∀ x ∈ left.names, ∀ y ∈ left.names, ρ x = ρ y → x = y := by
    rw [hnames]
    decide +kernel
  have hapart : ∀ x ∈ left.names, ρ x = x ∨ (x ∉ right.names ∧ ρ x ∉ right.names) := by
    rw [hnames, hothers]
    decide +kernel
  exact ⟨⟨hinjective, hapart⟩, fits_rename hinjective hapart⟩

/-- **Names that both sides have are confused**: the two closed bundles differ in what `X` is, and still the left one fits
the right one, until its names are changed. -/
theorem fits_by_name :
    let left := Node.cyclic [("A", .object [("next", .reference "A"), ("item", .reference "X")]), ("X", .string)] "A"
    let right := Node.cyclic [("A", .object [("next", .reference "A"), ("item", .reference "X")]), ("X", .number)] "A"
    let ρ := fun name => name ++ "0"
    (left.loose = [] ∧ right.loose = []) ∧ (∀ x ∈ left.names, ∀ y ∈ left.names, ρ x = ρ y → x = y) ∧
      (∀ x ∈ left.names, ρ x ∉ right.names) ∧ left.fits right = true ∧ (left.rename ρ).fits right = false := by
  intro left right ρ
  have hnames : left.names = ["A", "A", "X", "A", "X"] := by decide +kernel
  have hothers : right.names = ["A", "A", "X", "A", "X"] := by decide +kernel
  rw [hnames, hothers]
  exact ⟨⟨by decide +kernel, by decide +kernel⟩, by decide +kernel, by decide +kernel, by decide +kernel,
    by decide +kernel⟩

end Schemata
