import Schemata.Proofs.Operator.Yields
/-!
# Operators make progress

Applied to concrete operands, an operator that has its operands instantiated beforehand does not wait for anything: it is
done with a concrete node, or an operand has not the form or the number that it asks for.

- `Operator.seesThrough operator operands`: what the operator comes to inside of bundles is there to be seen.

Main statement: `eager_progress`.  Where an operator sees through its operands nothing is left deferred, and no reference
gets out of the bundle that binds it.
-/
namespace Schemata

open Node Outcome

variable {s : Setting} {checked : Bool}

/-! ## Reducers -/

/-- **Whether an interface takes concrete properties only** out of a bundle: its root is concrete if it has properties. -/
def Node.handsDown (n : Node) : Bool :=
  match n.kind with
  | .cyclic definitions root =>
    match Fields.get? definitions root with
    | some target =>
      match collapse target with
      | .properties _ => target.isConcrete
      | _ => true
    | none => true
  | _ => true

section
variable {operands : List Node} (hoperands : ∀ c ∈ operands, c.HeldBy [])
include hoperands

theorem selectProperties_yields (hopen : ∀ c ∈ operands.head?, c.isOpen = true) (keep : Bool) :
    (selectProperties s keep operands).Yields checked (HeldBy []) := by
  unfold selectProperties
  split
  · rename_i subject keys
    rw [List.forall_mem_cons, List.forall_mem_singleton] at hoperands
    refine Yields.bind (literalKeys_yields hoperands.2.isConcrete) fun wanted _ => ?_
    refine openSubject_yields (fun _ _ => heldBy_unionOf) (changeLeaf_holds ?_) hoperands.1 (hopen subject rfl)
    exact fun _ _ hproperties e he => hproperties e (List.mem_filter.1 he).1
  · trivial

theorem changeModifiers_yields (hopen : ∀ c ∈ operands.head?, c.isOpen = true) (change : Modifiers → Modifiers) :
    (changeModifiers s change operands).Yields checked (HeldBy []) := by
  unfold changeModifiers
  split
  · rename_i subject
    rw [List.forall_mem_singleton] at hoperands
    refine openSubject_yields (fun _ _ => heldBy_unionOf) (changeLeaf_holds ?_) hoperands (hopen subject rfl)
    intro names properties hproperties
    exact List.forall_mem_map.2 fun e he => (hproperties e he).of_kind rfl
  · trivial

theorem keyDomain_yields (hopen : ∀ c ∈ operands.head?, c.isOpen = true) :
    (keyDomain s operands).Yields checked (HeldBy []) := by
  unfold keyDomain
  split
  · rename_i subject
    rw [List.forall_mem_singleton] at hoperands
    exact openSubject_yields (fun _ _ => heldBy_commonKeys) keysLeaf_holds hoperands (hopen subject rfl)
  · trivial

theorem evaluateShape_yields (hopen : ∀ c ∈ operands.head?, c.isOpen = true) :
    (evaluateShape s operands).Yields checked (HeldBy []) := by
  unfold evaluateShape
  split
  · rename_i subject
    rw [List.forall_mem_singleton] at hoperands
    exact openSubject_yields (fun _ _ => heldBy_unionOf) evaluateLeaf_holds hoperands (hopen subject rfl)
  · trivial

omit hoperands in
theorem indexBy_yields {subject : Node} (hsubject : subject.HeldBy []) (hopen : subject.isOpen = true) {key : Node}
    (hkey : key.isConcrete = true) (hlast : checked = true → key.avoidsLastIndex = true) :
    (indexBy s subject key).Yields checked (HeldBy []) := by
  induction key using Node.induction_on_parts with
  | node key ih =>
    have hleaf := indexLeaf_holds (s := s) hkey fun hchecked => Node.not_lastIndex_of_avoids (hlast hchecked)
    have hunresolved := isUnresolved_of_isConcrete hkey
    obtain ⟨kind, modifiers, annotations⟩ := key
    cases kind with
    | union keys =>
      simp only [indexBy, indexByEach_eq_collect?]
      rw [Node.avoidsLastIndex_union, List.all_eq_true] at hlast
      refine Yields.map (yields_collect? fun c hc => ?_) fun _ => heldBy_unionOf
      exact ih c hc (isConcrete_of_mem_parts hkey hc) fun hchecked => hlast hchecked c hc
    | _ =>
      simp only [indexBy, hunresolved]
      exact openSubject_yields (fun _ _ => heldBy_unionOf) hleaf hsubject hopen

theorem indexAccess_yields (hopen : ∀ c ∈ operands.head?, c.isOpen = true)
    (hlast : checked = true → Operator.index.avoidsLastIndex operands = true) :
    (indexAccess s operands).Yields checked (HeldBy []) := by
  unfold indexAccess
  split
  · rename_i subject key
    rw [List.forall_mem_cons, List.forall_mem_singleton] at hoperands
    exact indexBy_yields hoperands.1 (hopen subject rfl) hoperands.2.isConcrete hlast
  · trivial

omit hoperands in
theorem collapse_ne_unresolved {n : Node} (h : n.isConcrete = true) : collapse n ≠ .unresolved := by
  have hall : ∀ members : List Node, (∀ m ∈ members, collapse m ≠ .unresolved) → ∀ merged,
      collapseAll merged members ≠ .unresolved := by
    intro members
    induction members with
    | nil => simp [collapseAll]
    | cons m ms ih =>
      rw [List.forall_mem_cons, and_imp]
      intro hm hms merged
      rw [collapseAll]
      split
      · exact ih hms _
      · exact hm
  induction n using Node.induction_on_parts with
  | node n ih =>
    have hunresolved := isUnresolved_of_isConcrete h
    obtain ⟨kind, modifiers, annotations⟩ := n
    cases kind with
    | object properties => simp [collapse]
    | intersect members =>
      rw [collapse]
      exact hall members (fun m hm => ih m hm (isConcrete_of_mem_parts h hm)) []
    | _ => simp [collapse, hunresolved]

omit hoperands in
theorem heritageProperties_yields {operand : Node} (h : operand.HeldBy []) (hdown : operand.handsDown = true) :
    (heritageProperties s operand).Yields checked fun properties => ∀ e ∈ properties, e.2.HeldBy [] := by
  rw [heritageProperties, Setting.subject_of_isConcrete h.isConcrete, Outcome.done_bind]
  split
  · rename_i definitions root hk
    rw [Node.handsDown, hk] at hdown
    simp only at hdown
    cases hr : Fields.get? definitions root with
    | none => trivial
    | some target =>
      simp only [hr, Option.map_some] at hdown ⊢
      cases hcollapse : collapse target with
      | properties properties =>
        simp only [hcollapse] at hdown ⊢
        -- The properties come out of the bundle as they are.
        have hsealed := ((isSealed.bundle hk h.isSealed).2 _ (Fields.mem_of_get? hr)).1
        exact yields_done ((heldBy_of_isConcrete hdown hsealed []).collapse hcollapse)
      | unresolved => trivial
      | notObject => trivial
  · cases hcollapse : collapse operand with
    | properties properties => exact yields_done (h.collapse hcollapse)
    | unresolved => exact absurd hcollapse (collapse_ne_unresolved h.isConcrete)
    | notObject => trivial

theorem interfaceOf_yields (hdown : ∀ c ∈ operands, c.handsDown = true) :
    (interfaceOf s operands).Yields checked (HeldBy []) := by
  unfold interfaceOf
  split
  · trivial
  · refine Yields.bind (yields_collect? fun c hc => heritageProperties_yields (hoperands c hc) (hdown c hc)) ?_
    intro heritage hheritage
    refine yields_done (heldBy_ofObject ?_)
    have hfold : ∀ merged : Fields Node, (∀ e ∈ merged, e.2.HeldBy []) →
        ∀ e ∈ heritage.foldl Fields.extend merged, e.2.HeldBy [] := by
      clear hoperands hdown
      induction heritage with
      | nil => exact fun _ h => h
      | cons properties heritage ih =>
        rw [List.forall_mem_cons] at hheritage
        exact fun merged hmerged => ih hheritage.2 _ (Fields.forall_extend hmerged hheritage.1)
    exact hfold [] fun e he => absurd he List.not_mem_nil

theorem filterBranches_yields (keep : Bool) : (filterBranches s keep operands).Yields checked (HeldBy []) := by
  unfold filterBranches
  split
  · rename_i left right
    rw [List.forall_mem_cons, List.forall_mem_singleton] at hoperands
    have hbranches := hoperands.1.branches
    have hconcrete : (right.isConcrete && (branches left).all Node.isConcrete) = true := by
      rw [Bool.and_eq_true, List.all_eq_true]
      exact ⟨hoperands.2.isConcrete, fun c hc => (hbranches c hc).isConcrete⟩
    rw [if_pos hconcrete]
    exact yields_done (heldBy_unionOf fun c hc => hbranches c (List.mem_filter.1 hc).1)
  · trivial

theorem nonNullable_yields : (nonNullable s operands).Yields checked (HeldBy []) := by
  unfold nonNullable
  split
  · rename_i subject
    rw [List.forall_mem_singleton] at hoperands
    have hvariants : ∀ c ∈ variantsOf subject, c.HeldBy [] := by
      unfold variantsOf
      split
      · rename_i variants hk
        have hparts := (heldBy_iff_parts (by rw [hk]; rfl) (by rw [hk]; rfl)).1 hoperands
        rwa [hk] at hparts
      · exact List.forall_mem_singleton.2 hoperands
    rw [if_neg (by simp [isUnresolved_of_isConcrete hoperands.isConcrete])]
    exact yields_done (heldBy_unionOf fun c hc => hvariants c (List.mem_filter.1 hc).1)
  · trivial

omit hoperands in
theorem unwrapPromise_heldBy {n : Node} (h : n.HeldBy []) : ∃ held, unwrapPromise n = some held ∧ held.HeldBy [] := by
  induction n using Node.induction_on_parts with
  | node n ih =>
    have hunresolved := isUnresolved_of_isConcrete h.isConcrete
    obtain ⟨kind, modifiers, annotations⟩ := n
    have hself : ∃ held, (if (Node.mk kind modifiers annotations).isUnresolved = true then none else
        some (Node.mk kind modifiers annotations)) = some held ∧ held.HeldBy [] := by
      rw [if_neg (by simp [hunresolved])]
      exact ⟨_, rfl, h⟩
    cases kind with
    | union variants =>
      have hparts : ∀ c ∈ variants, c.HeldBy [] := (heldBy_iff_parts rfl rfl).1 h
      have heach : ∃ each, unwrapPromiseEach variants = some each ∧ ∀ c ∈ each, c.HeldBy [] := by
        replace ih : ∀ c ∈ variants, _ := ih
        clear h hunresolved hself
        induction variants with
        | nil => exact ⟨[], rfl, fun c hc => absurd hc List.not_mem_nil⟩
        | cons c cs ihs =>
          rw [List.forall_mem_cons] at hparts ih
          obtain ⟨held, hheld, hc⟩ := ih.1 hparts.1
          obtain ⟨each, heach, hcs⟩ := ihs hparts.2 ih.2
          refine ⟨held :: each, ?_, List.forall_mem_cons.2 ⟨hc, hcs⟩⟩
          simp [unwrapPromiseEach, hheld, heach]
      obtain ⟨each, heach, hall⟩ := heach
      exact ⟨Node.unionOf each, by simp [unwrapPromise, heach], heldBy_unionOf hall⟩
    | wrapper w item =>
      have hitem : item.HeldBy [] := (heldBy_iff_parts rfl rfl).1 h item (List.mem_singleton_self _)
      cases w with
      | promise => exact ih item (List.mem_singleton_self _) hitem
      | _ => exact hself
    | _ => exact hself

theorem awaitedValue_yields : (awaitedValue s operands).Yields checked (HeldBy []) := by
  unfold awaitedValue
  split
  · rw [List.forall_mem_singleton] at hoperands
    exact unwrapPromise_heldBy hoperands
  · trivial

theorem partOfSignature_yields (part : SignaturePart) : (partOfSignature s part operands).Yields checked (HeldBy []) := by
  unfold partOfSignature
  split
  · rename_i subject
    rw [List.forall_mem_singleton] at hoperands
    induction subject using Node.induction_on_parts with
    | node n ih =>
      have hunresolved := isUnresolved_of_isConcrete hoperands.isConcrete
      obtain ⟨kind, modifiers, annotations⟩ := n
      cases kind with
      | union variants =>
        simp only [signaturePart, signaturePartEach_eq_collect?]
        have hparts := (heldBy_iff_parts rfl rfl).1 hoperands
        exact (yields_collect? fun c hc => ih c hc (hparts c hc)).map fun _ => heldBy_unionOf
      | primitive p =>
        cases p <;> first | exact yields_done (heldBy_primitive _) | (cases part <;> trivial)
      | _ =>
        simp only [signaturePart]
        split
        · rename_i hfound
          exact yields_done (hoperands.of? hfound)
        · simp only [hunresolved]
          cases part <;> trivial
  · trivial

theorem caseOf_yields (letterCase : LetterCase) : (caseOf s letterCase operands).Yields checked (HeldBy []) := by
  unfold caseOf
  split
  · rename_i subject
    rw [List.forall_mem_singleton] at hoperands
    induction subject using Node.induction_on_parts with
    | node n ih =>
      have hunresolved := isUnresolved_of_isConcrete hoperands.isConcrete
      obtain ⟨kind, modifiers, annotations⟩ := n
      cases kind with
      | union variants =>
        simp only [changeCase, changeCaseEach_eq_collect?]
        have hparts := (heldBy_iff_parts rfl rfl).1 hoperands
        exact (yields_collect? fun c hc => ih c hc (hparts c hc)).map fun _ => heldBy_unionOf
      | literal l => cases l <;> first | exact yields_done (heldBy_literal _) | trivial
      | primitive p => cases p <;> first | exact yields_done hoperands | trivial
      | templatePattern fragments =>
        have hparts : ∀ c ∈ fragments, c.HeldBy [] := (heldBy_iff_parts rfl rfl).1 hoperands
        exact yields_done ((heldBy_iff_parts rfl rfl).2 (heldBy_inPattern hparts letterCase))
      | _ =>
        simp only [changeCase, hunresolved]
        trivial
  · trivial

theorem templateTexts_yields : (templateTexts s operands).Yields checked (HeldBy []) := by
  have hknown := expand_ne_unresolved s.templateLimit fun c hc => (hoperands c hc).isConcrete
  unfold templateTexts
  split
  · exact yields_done (heldBy_unionOf (List.forall_mem_map.2 fun _ _ => heldBy_literal _))
  · exact yields_done ((heldBy_iff_parts rfl rfl).2 hoperands)
  · rename_i hexpand
    exact absurd hexpand hknown

omit hoperands in
theorem keysOf_ne_unresolved (limit : Nat) {n : Node} (h : n.isConcrete = true) : keysOf limit n ≠ .unresolved := by
  induction n using Node.induction_on_parts with
  | node n ih =>
    have hunresolved := isUnresolved_of_isConcrete h
    obtain ⟨kind, modifiers, annotations⟩ := n
    cases kind with
    | union variants =>
      have hparts : ∀ c ∈ variants, keysOf limit c ≠ .unresolved := fun c hc => ih c hc (isConcrete_of_mem_parts h hc)
      rw [keysOf]
      clear h ih hunresolved
      induction variants with
      | nil => simp [keysOfAll]
      | cons c cs ihs =>
        rw [List.forall_mem_cons] at hparts
        have hrest := ihs hparts.2
        rw [keysOfAll]
        revert hrest
        cases hc : keysOf limit c <;> cases keysOfAll limit cs <;> simp_all [KeySpace.join]
    | templatePattern fragments =>
      have hknown := expand_ne_unresolved limit fun c hc => isConcrete_of_mem_parts h hc
      rw [keysOf]
      split
      · simp
      · simp
      · rename_i hexpand
        exact absurd hexpand hknown
    | primitive p => cases p <;> simp [keysOf, hunresolved]
    | _ => simp [keysOf, hunresolved]

theorem recordOf_yields : (recordOf s operands).Yields checked (HeldBy []) := by
  unfold recordOf
  split
  · rename_i key value
    rw [List.forall_mem_cons, List.forall_mem_singleton] at hoperands
    have hknown := keysOf_ne_unresolved s.templateLimit hoperands.1.isConcrete
    split
    · exact yields_done (heldBy_object (List.forall_mem_map.2 fun _ _ => hoperands.2))
    · refine yields_done ((heldBy_iff_parts rfl rfl).2 ?_)
      show ∀ c ∈ [key, value], c.HeldBy []
      exact List.forall_mem_cons.2 ⟨hoperands.1, List.forall_mem_singleton.2 hoperands.2⟩
    · rename_i hspace
      rw [keySpace] at hspace
      cases hkeys : keysOf s.templateLimit key with
      | unresolved => exact absurd hkeys hknown
      | _ =>
        rw [hkeys] at hspace
        cases hspace
  · trivial

end

/-! ## Progress -/

/-- **What an operator comes to inside of bundles is there to be seen**: in the first operand if it opens that, and in all
of them if it takes properties together. -/
def Operator.seesThrough (operator : Operator) (operands : List Node) : Bool :=
  match operator with
  | .interface => operands.all Node.handsDown
  | _ => !operator.opens || operands.head?.all Node.isOpen

/-- **A reducer of concrete operands yields something concrete**, with all bundles closed. -/
theorem reduceEager_yields {operands : List Node} (heager : s.operator.isEager = true)
    (hoperands : ∀ c ∈ operands, c.HeldBy []) (hsees : s.operator.seesThrough operands = true)
    (hlast : checked = true → s.operator.avoidsLastIndex operands = true) :
    (reduceEager s operands).Yields checked (HeldBy []) := by
  have hopen : s.operator.opens = true → ∀ c ∈ operands.head?, c.isOpen = true := by
    intro hopens c hc
    rw [Option.mem_def] at hc
    unfold Operator.seesThrough at hsees
    split at hsees
    · rename_i hoperator
      rw [hoperator] at hopens
      cases hopens
    · simpa [hopens, hc] using hsees
  rw [reduceEager]
  cases hoperator : s.operator <;> rw [hoperator] at hopen heager hsees hlast <;> dsimp only
  case pick | «omit» => exact selectProperties_yields hoperands (hopen rfl) _
  case allOptional | allRequired | allReadonly | allWritable => exact changeModifiers_yields hoperands (hopen rfl) _
  case keyOf => exact keyDomain_yields hoperands (hopen rfl)
  case index => exact indexAccess_yields hoperands (hopen rfl) hlast
  case evaluate => exact evaluateShape_yields hoperands (hopen rfl)
  case interface => exact interfaceOf_yields hoperands (List.all_eq_true.1 hsees)
  case exclude | extract => exact filterBranches_yields hoperands _
  case nonNullable => exact nonNullable_yields hoperands
  case awaited => exact awaitedValue_yields hoperands
  case returnType | parameters | constructorParameters | instanceType => exact partOfSignature_yields hoperands _
  case uppercase | lowercase | capitalize | uncapitalize => exact caseOf_yields hoperands _
  case templateLiteral => exact templateTexts_yields hoperands
  case record => exact recordOf_yields hoperands
  case conditional | mapped | inlineModule => cases heager

/-- **Operators make progress**, in every context: an eager operator on concrete operands with closed bundles, which it sees
through, is done with a concrete node in which no reference is loose, or an operand has not the form or the number that the
operator asks for.  Only operands that are too high for the depth limit are not reduced.  Where sums are checked, no key may
ask for the last index of a tuple; where they are not, the operator answers then as well. -/
theorem eager_progress (limits : Limits) (context : Context) {n : Node} {operator : Operator} {operands : List Node}
    {options : Annotations} (hk : n.kind = .deferred operator operands options) (heager : operator.isEager = true)
    (hoperands : ∀ c ∈ operands, c.isConcrete = true ∧ c.isSealed = true) (hsees : operator.seesThrough operands = true)
    (checked : Bool) (hlast : checked = true → operator.avoidsLastIndex operands = true) :
    if n.height ≤ limits.maxDepth then
      (instantiate limits context n).Ends checked fun m => m.isConcrete = true ∧ m.loose = []
    else instantiate limits context n = .failed (.depthExceeded limits.maxDepth) := by
  have hheld : ∀ c ∈ operands, c.HeldBy [] := fun c hc => heldBy_of_isConcrete (hoperands c hc).1 (hoperands c hc).2 []
  rw [instantiate_of_isEager hk heager (fun c hc => (hoperands c hc).1)]
  split
  · refine Yields.bind (reduceEager_yields heager hheld hsees hlast) fun result hresult => ?_
    have hkept : (n.reducedTo operator operands options (some result)).HeldBy [] := hresult.of_kind rfl
    exact ⟨hkept.isConcrete, hkept.loose_eq_nil⟩
  · rfl

/-- An item is taken out of a ring that ends in a rest, and the ring stays closed around it. -/
theorem eager_progress_ring :
    let ring : Node := .cyclic [("A", .of (.tuple [.string, .array (.reference "A")] true))] "A"
    let operands := [ring, .literal (.number (.ofNat 7))]
    (∀ c ∈ operands, c.isConcrete = true ∧ c.isSealed = true) ∧ Operator.index.seesThrough operands = true ∧
      Operator.index.avoidsLastIndex operands = true ∧
      (instantiate {} [("A", .number)] (.deferred .index operands)).Ends true fun m => m.isConcrete = true ∧ m.loose = [] := by
  intro ring operands
  have hoperands : ∀ c ∈ operands, c.isConcrete = true ∧ c.isSealed = true := by decide +kernel
  have hsees : Operator.index.seesThrough operands = true := by decide +kernel
  have hlast : Operator.index.avoidsLastIndex operands = true := by decide +kernel
  refine ⟨hoperands, hsees, hlast, ?_⟩
  have hprogress := eager_progress {} [("A", .number)] (n := .deferred .index operands) rfl rfl hoperands hsees true
    fun _ => hlast
  rwa [if_pos (by decide +kernel)] at hprogress

/-- **What an operator does not see through.**  A root that is a reference is looked up outside of its bundle, where it is
not bound, and the application stays deferred; an interface takes references out of a bundle; and what is applied in a bundle
is left as it is. -/
theorem progress_lost :
    let detour : Node := .cyclic [("A", .reference "B"), ("B", .object [("x", .string)])] "A"
    let ring : Node := .cyclic [("A", .object [("next", .reference "A")])] "A"
    let keys : Node := .keyOf (.object [("x", .string)])
    let holder : Node := .cyclic [("A", .object [("next", .reference "A"), ("keys", keys)])] "A"
    (∀ c ∈ [detour, ring, holder], c.isConcrete = true ∧ c.isSealed = true) ∧
      instantiate {} [] (.allOptional detour) = .done (.allOptional detour) ∧
      instantiate {} [] (.interface [] ring) = .done (.object [("next", .reference "A")]) ∧
      instantiate {} [] (.index holder (.text "keys")) = .done keys ∧
      ∀ m ∈ [Node.allOptional detour, .object [("next", .reference "A")], keys], m.isConcrete = false := by
  refine ⟨by decide +kernel, ?_, ?_, ?_, by decide +kernel⟩ <;> with_unfolding_all rfl

end Schemata
