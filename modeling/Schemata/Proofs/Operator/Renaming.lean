import Schemata.Proofs.Operator.Lists
import Schemata.Proofs.Comparison.Renaming
import Schemata.Proofs.Reference.Renaming
/-!
# Operands under other names

What operators look at and what they build without instantiating anything: unions in normal form, keys, properties, texts
and branches.  Under other names each of these is the same, renamed.
-/
namespace Schemata

variable {ρ : Equiv.Perm String}

/-! ## Nodes -/

namespace Node

@[simp] theorem isUnresolved_rename (n : Node) : (n.rename ρ).isUnresolved = n.isUnresolved := by
  unfold isUnresolved
  rw [kind_rename]
  cases n.kind <;> rfl

@[simp] theorem isConcrete_rename (n : Node) : (n.rename ρ).isConcrete = n.isConcrete := by
  induction n using Node.induction_on_parts with
  | node n ih =>
    have hchildren : (n.rename ρ).children.all isConcrete = n.children.all isConcrete := by
      rw [children_rename, List.all_map]
      rw [Bool.eq_iff_iff, List.all_eq_true, List.all_eq_true]
      exact forall₂_congr fun c hc => by rw [Function.comp, ih c (Kind.mem_parts_of_mem_children hc)]
    rw [isConcrete_eq, isConcrete_eq]
    obtain ⟨kind, modifiers, annotations⟩ := n
    rw [rename_mk] at hchildren ⊢
    cases kind <;> first | rfl | exact hchildren

theorem withModifiers_rename (n : Node) (modifiers : Modifiers) :
    (n.withModifiers modifiers).rename ρ = (n.rename ρ).withModifiers modifiers := by
  rw [rename_eq, rename_eq ρ n]
  rfl

theorem bare_rename (n : Node) : n.bare.rename ρ = (n.rename ρ).bare := n.withModifiers_rename .plain

@[simp] theorem literal_rename (ρ : String → String) (l : Literal) : (literal l).rename ρ = literal l :=
  rename_of ρ (.literal l)

@[simp] theorem primitive_rename (ρ : String → String) (p : Primitive) : (primitive p).rename ρ = primitive p :=
  rename_of ρ (.primitive p)

theorem beq_rename (x y : Node) : (x.rename ρ == y.rename ρ) = (x == y) := sameAs_rename x y

theorem object_rename (properties : List (String × Node)) :
    (object properties).rename ρ = object (Fields.rename id (rename ρ) properties) := by
  rw [object, rename_of, object, Fields.ofList_rename Function.injective_id]
  rfl

/-! ## Unions -/

/-- What takes a node apart into nodes does so under other names, if it does so for each node of a list. -/
theorem flatMap_rename {f : Node → List Node} {ns : List Node}
    (h : ∀ n ∈ ns, f (n.rename ρ) = (f n).map (rename ρ)) :
    (ns.map (rename ρ)).flatMap f = (ns.flatMap f).map (rename ρ) := by
  rw [List.flatMap_map, List.map_flatMap]
  exact List.flatMap_congr h

theorem leaves_rename (n : Node) : leaves (n.rename ρ) = (leaves n).map (rename ρ) := by
  induction n using Node.induction_on_parts with
  | node n ih =>
    obtain ⟨kind, modifiers, annotations⟩ := n
    rw [rename_mk]
    cases kind with
    | union variants =>
      have hopened : leavesAll (variants.map (rename ρ)) = (leavesAll variants).map (rename ρ) := by
        rw [leavesAll_eq_flatMap, leavesAll_eq_flatMap]
        exact flatMap_rename ih
      match modifiers, annotations with
      | ⟨false, false⟩, [] => exact hopened
      | ⟨false, false⟩, _ :: _ | ⟨true, _⟩, _ | ⟨false, true⟩, _ =>
        exact congrArg (fun m => [m]) (rename_mk ρ (.union variants) _ _).symm
    | primitive p =>
      cases p <;> first | rfl | exact congrArg (fun m => [m]) (rename_mk ρ (.primitive _) _ _).symm
    | _ => exact congrArg (fun m => [m]) (rename_mk ρ _ _ _).symm

/-- **Unions in normal form, under other names.** -/
theorem unionOf_rename (ns : List Node) : unionOf (ns.map (rename ρ)) = (unionOf ns).rename ρ := by
  have hdistinct : distinct (leavesAll (ns.map (rename ρ))) = (distinct (leavesAll ns)).map (rename ρ) := by
    rw [← distinct_map beq_rename, leavesAll_eq_flatMap, leavesAll_eq_flatMap,
      flatMap_rename fun n _ => leaves_rename n]
  unfold unionOf
  rw [hdistinct]
  match distinct (leavesAll ns) with
  | [] => exact (primitive_rename ρ .never).symm
  | [n] => rfl
  | n :: m :: more => exact (rename_of ρ (.union (n :: m :: more))).symm

/-- A union of literals has no names. -/
theorem unionOf_literals_rename {α : Type} (f : α → Literal) (xs : List α) :
    (unionOf (xs.map fun x => literal (f x))).rename ρ = unionOf (xs.map fun x => literal (f x)) := by
  rw [← unionOf_rename, List.map_map]
  exact congrArg unionOf (List.map_congr_left fun x _ => literal_rename ρ (f x))

end Node

theorem branches_rename (n : Node) : branches (n.rename ρ) = (branches n).map (Node.rename ρ) := by
  induction n using Node.induction_on_parts with
  | node n ih =>
    obtain ⟨kind, modifiers, annotations⟩ := n
    rw [Node.rename_mk]
    cases kind with
    | union variants =>
      change branchesAll (variants.map (Node.rename ρ)) = (branchesAll variants).map (Node.rename ρ)
      rw [branchesAll_eq_flatMap, branchesAll_eq_flatMap]
      exact Node.flatMap_rename ih
    | primitive p =>
      cases p with
      | boolean => exact (congrArg₂ (fun x y => [x, y]) (Node.literal_rename ρ _) (Node.literal_rename ρ _)).symm
      | never => rfl
      | _ => exact congrArg (fun m => [m]) (Node.rename_mk ρ (.primitive _) _ _).symm
    | _ => exact congrArg (fun m => [m]) (Node.rename_mk ρ _ _ _).symm

theorem branchesOpened_rename (n : Node) : branchesOpened (n.rename ρ) = (branchesOpened n).map (Node.rename ρ) := by
  induction n using Node.induction_on_parts with
  | node n ih =>
    obtain ⟨kind, modifiers, annotations⟩ := n
    rw [Node.rename_mk]
    cases kind with
    | union variants =>
      change branchesOpenedAll (variants.map (Node.rename ρ)) = (branchesOpenedAll variants).map (Node.rename ρ)
      rw [branchesOpenedAll_eq_flatMap, branchesOpenedAll_eq_flatMap]
      exact Node.flatMap_rename ih
    | primitive p =>
      cases p <;> first | rfl | exact congrArg (fun m => [m]) (Node.rename_mk ρ (.primitive _) _ _).symm
    | _ => exact congrArg (fun m => [m]) (Node.rename_mk ρ _ _ _).symm

theorem variantsOf_rename (n : Node) : variantsOf (n.rename ρ) = (variantsOf n).map (Node.rename ρ) := by
  unfold variantsOf
  rw [Node.kind_rename]
  cases n.kind <;> rfl

/-- **The keys in common, under other names.** -/
theorem commonKeys_rename (domains : List Node) :
    commonKeys (domains.map (Node.rename ρ)) = (commonKeys domains).rename ρ := by
  cases domains with
  | nil => exact (Node.primitive_rename ρ .never).symm
  | cons first rest =>
    simp only [List.map_cons, commonKeys]
    rw [← Node.unionOf_rename, branchesOpened_rename, List.filter_map]
    refine congrArg Node.unionOf (congrArg (List.map _) (List.filter_congr fun key _ => ?_))
    simp only [Function.comp_def, List.all_map, branchesOpened_rename, List.any_map, Node.beq_rename]

/-! ## Properties -/

def Collapse.rename (ρ : String → String) : Collapse → Collapse
  | .properties fields => .properties (fields.rename id (Node.rename ρ))
  | .unresolved => .unresolved
  | .notObject => .notObject

theorem intersectProperty_rename (left right : Node) :
    intersectProperty (left.rename ρ) (right.rename ρ) = (intersectProperty left right).rename ρ := by
  rw [intersectProperty, intersectProperty, Node.beq_rename, Node.modifiers_rename, Node.modifiers_rename]
  split
  · rfl
  · rw [Node.withModifiers_rename, Node.intersect, Node.intersect, Node.rename_of]
    simp only [Kind.relabel, Kind.map, List.map_cons, List.map_nil, Node.bare_rename]

theorem mergeProperties_rename (merged more : Fields Node) :
    mergeProperties (merged.rename id (Node.rename ρ)) (more.rename id (Node.rename ρ)) =
      (mergeProperties merged more).rename id (Node.rename ρ) := by
  induction more generalizing merged with
  | nil => rfl
  | cons e more ih =>
    obtain ⟨name, n⟩ := e
    have hget : (merged.rename id (Node.rename ρ)).get? name = (merged.get? name).map (Node.rename ρ) :=
      Fields.get?_rename Function.injective_id merged name
    have hinsert : ∀ m : Node, (merged.rename id (Node.rename ρ)).insert name (m.rename ρ) =
        (merged.insert name m).rename id (Node.rename ρ) := Fields.insert_rename Function.injective_id merged name
    simp only [mergeProperties, Fields.rename, id_eq] at ih hget hinsert ⊢
    rw [List.map_cons, List.foldl_cons, List.foldl_cons, ← ih]
    refine congrArg (fun fields => List.foldl _ fields _) ?_
    rw [hget]
    cases merged.get? name with
    | none => exact hinsert n
    | some previous => exact (congrArg _ (intersectProperty_rename previous n)).trans (hinsert _)

theorem collapseAll_rename {members : List Node}
    (h : ∀ n ∈ members, collapse (n.rename ρ) = (collapse n).rename ρ) (merged : Fields Node) :
    collapseAll (merged.rename id (Node.rename ρ)) (members.map (Node.rename ρ)) = (collapseAll merged members).rename ρ := by
  induction members generalizing merged with
  | nil => rfl
  | cons n members ih =>
    rw [List.forall_mem_cons] at h
    rw [List.map_cons, collapseAll, collapseAll, h.1]
    cases collapse n with
    | properties properties =>
      dsimp only [Collapse.rename]
      rw [mergeProperties_rename]
      exact ih h.2 _
    | unresolved => rfl
    | notObject => rfl

/-- **The properties of a node, under other names.** -/
theorem collapse_rename (n : Node) : collapse (n.rename ρ) = (collapse n).rename ρ := by
  induction n using Node.induction_on_parts with
  | node n ih =>
    obtain ⟨kind, modifiers, annotations⟩ := n
    rw [Node.rename_mk]
    cases kind with
    | intersect members => exact collapseAll_rename ih []
    | _ => rfl

/-! ## Texts and keys -/

theorem texts_rename (limit : Nat) (n : Node) : (n.rename ρ).texts limit = n.texts limit := by
  induction n using Node.induction_on_parts with
  | node n ih =>
    obtain ⟨kind, modifiers, annotations⟩ := n
    rw [Node.rename_mk]
    cases kind with
    | union parts | templatePattern parts =>
      have hparts : textsEach limit (parts.map (Node.rename ρ)) = textsEach limit parts := by
        rw [textsEach_eq_map, textsEach_eq_map, List.map_map]
        exact List.map_congr_left ih
      simp only [Kind.relabel, Kind.map, Node.texts, hparts]
    | primitive p => cases p <;> rfl
    | _ => rfl

/-- **A template stands for the same texts under other names.** -/
theorem expand_rename (limit : Nat) (fragments : List Node) :
    expand limit (fragments.map (Node.rename ρ)) = expand limit fragments := by
  rw [expand, expand, textsEach_eq_map, textsEach_eq_map, List.map_map]
  exact congrArg _ (List.map_congr_left fun n _ => texts_rename limit n)

theorem keysOfAll_rename {limit : Nat} {ns : List Node} (h : ∀ n ∈ ns, keysOf limit (n.rename ρ) = keysOf limit n) :
    keysOfAll limit (ns.map (Node.rename ρ)) = keysOfAll limit ns := by
  induction ns with
  | nil => rfl
  | cons n ns ih =>
    rw [List.forall_mem_cons] at h
    rw [List.map_cons, keysOfAll, keysOfAll, h.1, ih h.2]

theorem keysOf_rename (limit : Nat) (n : Node) : keysOf limit (n.rename ρ) = keysOf limit n := by
  induction n using Node.induction_on_parts with
  | node n ih =>
    obtain ⟨kind, modifiers, annotations⟩ := n
    rw [Node.rename_mk]
    cases kind with
    | union variants => exact keysOfAll_rename ih
    | templatePattern fragments =>
      simp only [Kind.relabel, Kind.map, keysOf, expand_rename]
    | primitive p => cases p <;> rfl
    | _ => rfl

theorem keySpace_rename (limit : Nat) (n : Node) : keySpace limit (n.rename ρ) = keySpace limit n :=
  congrArg KeySpace.once (keysOf_rename limit n)

/-! ## Items and parts of signatures -/

theorem isNumericKey_rename (key : Node) : isNumericKey (key.rename ρ) = isNumericKey key := by
  unfold isNumericKey
  rw [Node.kind_rename]
  cases key.kind <;> rfl

theorem elementType_rename (isRest : Bool) (item : Node) :
    elementType isRest (item.rename ρ) = (elementType isRest item).rename ρ := by
  have hbare := item.bare_rename (ρ := ρ)
  unfold elementType
  rw [Node.kind_rename]
  cases item.kind with
  | array inner =>
    cases isRest with
    | true => rfl
    | false => exact hbare.symm
  | _ => exact hbare.symm

theorem elementTypes_rename (rest : Bool) (items : List Node) :
    elementTypes rest (items.map (Node.rename ρ)) = (elementTypes rest items).map (Node.rename ρ) := by
  induction items with
  | nil => rfl
  | cons item items ih =>
    cases items with
    | nil => exact congrArg (fun m => [m]) (elementType_rename rest item)
    | cons next items => exact congrArg₂ List.cons (elementType_rename false item) ih

theorem index?_rename (key : Node) : (key.rename ρ).index? = key.index? := by
  unfold Node.index?
  rw [Node.kind_rename]
  cases key.kind with
  | literal l => rfl
  | _ => rfl

theorem elementAt?_rename (items : List Node) (rest : Bool) (index : UInt64) :
    elementAt? (items.map (Node.rename ρ)) rest index = (elementAt? items rest index).map (Node.rename ρ) := by
  have htype : ∀ isRest, elementType isRest ∘ Node.rename ρ = Node.rename ρ ∘ elementType isRest :=
    fun isRest => funext (elementType_rename isRest)
  simp only [elementAt?, List.length_map]
  split
  · rw [List.getLast?_map, Option.map_map, Option.map_map, htype]
  · rw [List.getElem?_map, Option.map_map, Option.map_map, htype]

theorem unwrapPromiseEach_rename {ns : List Node}
    (h : ∀ n ∈ ns, unwrapPromise (n.rename ρ) = (unwrapPromise n).map (Node.rename ρ)) :
    unwrapPromiseEach (ns.map (Node.rename ρ)) = (unwrapPromiseEach ns).map (List.map (Node.rename ρ)) := by
  induction ns with
  | nil => rfl
  | cons n ns ih =>
    rw [List.forall_mem_cons] at h
    rw [List.map_cons, unwrapPromiseEach, unwrapPromiseEach, h.1]
    cases unwrapPromise n with
    | none => rfl
    | some held =>
      dsimp only [Option.map_some]
      rw [ih h.2, Option.map_map, Option.map_map]
      rfl

theorem unwrapPromise_rename (n : Node) : unwrapPromise (n.rename ρ) = (unwrapPromise n).map (Node.rename ρ) := by
  induction n using Node.induction_on_parts with
  | node n ih =>
    obtain ⟨kind, modifiers, annotations⟩ := n
    rw [Node.rename_mk]
    cases kind with
    | wrapper w item =>
      cases w with
      | promise => exact ih item List.mem_cons_self
      | _ => exact congrArg some (Node.rename_mk ρ (.wrapper _ item) _ _).symm
    | union variants =>
      have heach : unwrapPromiseEach (variants.map (Node.rename ρ)) =
          (unwrapPromiseEach variants).map (List.map (Node.rename ρ)) := unwrapPromiseEach_rename ih
      simp only [Kind.relabel, Kind.map, unwrapPromise, heach, Option.map_map]
      exact congrArg (Option.map · _) (funext Node.unionOf_rename)
    | ref | call | deferred | parameter => rfl
    | _ => exact congrArg some (Node.rename_mk ρ _ _ _).symm

/-! ## Letter case -/

namespace LetterCase

variable (letterCase : LetterCase)

theorem inFragment_rename (n : Node) : letterCase.inFragment (n.rename ρ) = (letterCase.inFragment n).rename ρ := by
  induction n using Node.induction_on_parts with
  | node n ih =>
    obtain ⟨kind, modifiers, annotations⟩ := n
    rw [Node.rename_mk]
    cases kind with
    | literal l => cases l <;> exact (Node.rename_mk ρ (.literal _) _ _).symm
    | union variants =>
      have hvariants : letterCase.inFragments (variants.map (Node.rename ρ)) =
          (letterCase.inFragments variants).map (Node.rename ρ) := by
        rw [inFragments_eq_map, inFragments_eq_map, List.map_map, List.map_map]
        exact List.map_congr_left ih
      exact (congrArg (fun ns => Node.mk (.union ns) modifiers annotations) hvariants).trans
        (Node.rename_mk ρ (.union _) _ _).symm
    | _ => exact (Node.rename_mk ρ _ _ _).symm

theorem inFragments_rename (ns : List Node) :
    letterCase.inFragments (ns.map (Node.rename ρ)) = (letterCase.inFragments ns).map (Node.rename ρ) := by
  rw [inFragments_eq_map, inFragments_eq_map, List.map_map, List.map_map]
  exact List.map_congr_left fun n _ => letterCase.inFragment_rename n

theorem inPattern_rename (fragments : List Node) :
    letterCase.inPattern (fragments.map (Node.rename ρ)) = (letterCase.inPattern fragments).map (Node.rename ρ) := by
  cases letterCase with
  | upper => exact inFragments_rename .upper fragments
  | lower => exact inFragments_rename .lower fragments
  | capital | uncapital =>
    cases fragments with
    | nil => rfl
    | cons first rest => exact congrArg (· :: _) (inFragment_rename _ first)

end LetterCase

/-! ## When to reduce -/

theorem resolvable_rename (context : Context) (n : Node) :
    resolvable (context.rename ρ) (n.rename ρ) = resolvable context n := by
  induction n using Node.induction_on_parts with
  | node n ih =>
    obtain ⟨kind, modifiers, annotations⟩ := n
    rw [Node.rename_mk]
    cases kind with
    | union parts | intersect parts =>
      change resolvableAll (context.rename ρ) (parts.map (Node.rename ρ)) = resolvableAll context parts
      rw [resolvableAll_eq_all, resolvableAll_eq_all, List.all_map, Bool.eq_iff_iff, List.all_eq_true, List.all_eq_true]
      exact forall₂_congr fun n hn => by rw [Function.comp, ih n hn]
    | ref name => exact Fields.has_rename context name
    | _ => rfl

theorem Operator.guarded_rename (operator : Operator) (operands : List Node) :
    operator.guarded (operands.map (Node.rename ρ)) = (operator.guarded operands).map (Node.rename ρ) := by
  cases operator with
  | conditional => exact List.map_take.symm
  | mapped =>
    cases operands with
    | nil => rfl
    | cons binder rest =>
      obtain ⟨kind, modifiers, annotations⟩ := binder
      rw [List.map_cons, Node.rename_mk]
      cases kind <;> rfl
  | _ => rfl

theorem canReduce_rename (context : Context) (operator : Operator) (operands : List Node) :
    canReduce (context.rename ρ) operator (operands.map (Node.rename ρ)) = canReduce context operator operands := by
  rw [canReduce, canReduce, operator.guarded_rename, resolvableAll_eq_all, resolvableAll_eq_all, List.all_map]
  exact congrArg (List.all _) (funext fun n => resolvable_rename context n)

end Schemata
