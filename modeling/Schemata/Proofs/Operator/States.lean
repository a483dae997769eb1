import Schemata.Proofs.Operator.Lists
import Schemata.Proofs.Node.Parts
/-!
# Reducers do not look at states

A reducer hands the state it is given to its evaluator and looks at nothing in it.  Under another state, with an
evaluator that answers there what the old one answered under the old state, it ends as before.

- `Setting.Alike s t operands`: two settings differ in nothing that a reducer of instantiated operands looks at.
- `Setting.under evaluate state s`: the setting with another evaluator and another state.

Main statement: `reduce_under`.
-/
namespace Schemata

theorem collect?_congr {α β : Type} {f g : α → Outcome (Option β)} {xs : List α} (h : ∀ x ∈ xs, f x = g x) :
    Outcome.collect? f xs = Outcome.collect? g xs := by
  induction xs with
  | nil => rfl
  | cons x xs ih =>
    rw [Outcome.collect?, Outcome.collect?, h x List.mem_cons_self, ih fun y hy => h y (List.mem_cons_of_mem x hy)]

/-! ## Settings that look alike -/

/-- **Two settings in which operands look alike**: the limits and the operator are the same, the first operand opens alike,
and all have the same shapes. -/
structure Setting.Alike (s t : Setting) (operands : List Node) : Prop where
  templateLimit : t.templateLimit = s.templateLimit
  operator : t.operator = s.operator
  opens : ∀ join leaf, ∀ n ∈ operands.head?, t.openSubject join leaf n = s.openSubject join leaf n
  subject : ∀ n ∈ operands, t.subject n = s.subject n

section
variable {s t : Setting} {operands : List Node}

section
variable (hlimit : t.templateLimit = s.templateLimit) (hoperator : t.operator = s.operator)
include hoperator

theorem mismatch_alike {α : Type} (expected : Expectation) (received : Node) :
    (t.mismatch expected received : Outcome α) = s.mismatch expected received := by
  rw [Setting.mismatch, Setting.mismatch, hoperator]

theorem wrongArity_alike {α : Type} (expected : Arity) (operands : List Node) :
    (t.wrongArity expected operands : Outcome α) = s.wrongArity expected operands := by
  rw [Setting.wrongArity, Setting.wrongArity, hoperator]

theorem signaturePart_alike (part : SignaturePart) (n : Node) : signaturePart t part n = signaturePart s part n := by
  induction n using Node.induction_on_parts with
  | node n ih =>
    obtain ⟨kind, modifiers, annotations⟩ := n
    cases kind with
    | union variants =>
      simp only [signaturePart, signaturePartEach_eq_collect?]
      exact congrArg (· >>= _) (collect?_congr ih)
    | primitive p => cases p <;> simp only [signaturePart, mismatch_alike hoperator]
    | _ => simp only [signaturePart, mismatch_alike hoperator]

theorem changeCase_alike (letterCase : LetterCase) (n : Node) : changeCase t letterCase n = changeCase s letterCase n := by
  induction n using Node.induction_on_parts with
  | node n ih =>
    obtain ⟨kind, modifiers, annotations⟩ := n
    cases kind with
    | union variants =>
      simp only [changeCase, changeCaseEach_eq_collect?]
      exact congrArg (· >>= _) (collect?_congr ih)
    | literal l => cases l <;> simp only [changeCase, mismatch_alike hoperator]
    | primitive p => cases p <;> simp only [changeCase, mismatch_alike hoperator]
    | _ => simp only [changeCase, mismatch_alike hoperator]

theorem changeLeaf_alike (change : Fields Node → Fields Node) : changeLeaf t change = changeLeaf s change := by
  funext n
  simp only [changeLeaf, mismatch_alike hoperator]

include hlimit

theorem literalKeys_alike (n : Node) : literalKeys t n = literalKeys s n := by
  induction n using Node.induction_on_parts with
  | node n ih =>
    obtain ⟨kind, modifiers, annotations⟩ := n
    cases kind with
    | union variants =>
      simp only [literalKeys]
      replace ih : ∀ c ∈ variants, _ := ih
      induction variants with
      | nil => rfl
      | cons n ns ihs =>
        rw [literalKeysAll, literalKeysAll, ih n List.mem_cons_self, ihs fun c hc => ih c (List.mem_cons_of_mem n hc)]
    | primitive p => cases p <;> simp only [literalKeys, mismatch_alike hoperator]
    | _ => simp only [literalKeys, mismatch_alike hoperator, hlimit]

theorem indexLeaf_alike (key : Node) : indexLeaf t key = indexLeaf s key := by
  have htypes : ∀ properties names, propertyTypes t properties key names = propertyTypes s properties key names := by
    intro properties names
    induction names with
    | nil => rfl
    | cons name names ih => simp only [propertyTypes, ih, mismatch_alike hoperator]
  funext n
  simp only [indexLeaf, propertyAccess, tupleAccess, literalKeys_alike hlimit hoperator, htypes, mismatch_alike hoperator]

end

theorem indexBy_alike (h : s.Alike t operands) {subject : Node} (hsubject : subject ∈ operands.head?) (key : Node) :
    indexBy t subject key = indexBy s subject key := by
  induction key using Node.induction_on_parts with
  | node key ih =>
    obtain ⟨kind, modifiers, annotations⟩ := key
    cases kind with
    | union keys =>
      simp only [indexBy, indexByEach_eq_collect?]
      exact congrArg (· >>= _) (collect?_congr ih)
    | _ => simp only [indexBy, indexLeaf_alike h.templateLimit h.operator, h.opens _ _ subject hsubject]

/-- **Operands that look alike are reduced alike.** -/
theorem reduceEager_alike (h : s.Alike t operands) : reduceEager t operands = reduceEager s operands := by
  have harity : ∀ (expected : Arity) (operands : List Node),
      (t.wrongArity expected operands : Outcome (Option Node)) = s.wrongArity expected operands :=
    wrongArity_alike h.operator
  have hchange : ∀ change, ∀ n ∈ operands.head?, changeProperties t change n = changeProperties s change n := fun change n hn => by
    rw [changeProperties, changeProperties, changeLeaf_alike h.operator, h.opens _ _ n hn]
  have hkeys : ∀ keep, selectProperties t keep operands = selectProperties s keep operands := by
    intro keep
    unfold selectProperties
    split
    · simp only [literalKeys_alike h.templateLimit h.operator, fun change => hchange change _ rfl]
    · exact harity _ _
  have hmodifiers : ∀ change, changeModifiers t change operands = changeModifiers s change operands := by
    intro change
    unfold changeModifiers
    split
    · exact hchange _ _ rfl
    · exact harity _ _
  have hdomain : keyDomain t operands = keyDomain s operands := by
    unfold keyDomain
    split
    · exact h.opens _ _ _ rfl
    · exact harity _ _
  have hshape : evaluateShape t operands = evaluateShape s operands := by
    unfold evaluateShape
    split
    · exact h.opens _ _ _ rfl
    · exact harity _ _
  have haccess : indexAccess t operands = indexAccess s operands := by
    unfold indexAccess
    split
    · exact indexBy_alike h rfl _
    · exact harity _ _
  have hheritage : ∀ n ∈ operands, heritageProperties t n = heritageProperties s n := by
    intro n hn
    simp only [heritageProperties, h.subject n hn, mismatch_alike h.operator]
  have hinterface : interfaceOf t operands = interfaceOf s operands := by
    cases operands with
    | nil => exact harity _ _
    | cons n ns => rw [interfaceOf, interfaceOf, collect?_congr hheritage] <;> simp
  have hfilter : ∀ keep, filterBranches t keep operands = filterBranches s keep operands := by
    intro keep
    unfold filterBranches
    split
    · rfl
    · exact harity _ _
  have hnull : nonNullable t operands = nonNullable s operands := by
    unfold nonNullable
    split
    · rfl
    · exact harity _ _
  have hawaited : awaitedValue t operands = awaitedValue s operands := by
    unfold awaitedValue
    split
    · rfl
    · exact harity _ _
  have hpart : ∀ part, partOfSignature t part operands = partOfSignature s part operands := by
    intro part
    unfold partOfSignature
    split
    · exact signaturePart_alike h.operator part _
    · exact harity _ _
  have hcase : ∀ letterCase, caseOf t letterCase operands = caseOf s letterCase operands := by
    intro letterCase
    unfold caseOf
    split
    · exact changeCase_alike h.operator letterCase _
    · exact harity _ _
  have hrecord : recordOf t operands = recordOf s operands := by
    unfold recordOf
    split
    · rw [h.templateLimit]
    · exact harity _ _
  simp only [reduceEager, h.operator, hkeys, hmodifiers, hdomain, hshape, haccess, hinterface, hfilter, hnull, hawaited,
    hpart, hcase, hrecord, templateTexts, h.templateLimit]

end

/-! ## Another state -/

/-- **A setting with another evaluator and another state.** -/
def Setting.under (evaluate : Evaluator) (state : State) (s : Setting) : Setting := { s with evaluate, state }

variable {s : Setting} {evaluate : Evaluator} {state : State}

/-! ## Bundles and subjects -/

section
variable (hfresh : ∀ context n, evaluate context .initial n = s.evaluate context .initial n)
include hfresh

theorem package_fresh (scope : Context) (graph : ReferenceGraph) (candidates : List String) (name : String) :
    package evaluate scope graph candidates name = package s.evaluate scope graph candidates name := by
  simp only [package, hfresh]

theorem assemble_fresh (scope : Context) (names : List String) :
    assemble evaluate scope names = assemble s.evaluate scope names := by
  simp only [assemble, package_fresh hfresh, hfresh]

theorem subject_under (n : Node) : (s.under evaluate state).subject n = s.subject n := by
  have hpackage : ∀ name target,
      packageDefinition evaluate s.context name target = packageDefinition s.evaluate s.context name target :=
    fun name target => package_fresh hfresh _ _ _ _
  simp only [Setting.subject, Setting.under, hpackage]

omit hfresh in
theorem openNode_under {join : List Node → Node} {leaf follow follow' : Node → Outcome (Option Node)}
    (hfollow : ∀ n, follow' n = follow n) (n : Node) :
    (s.under evaluate state).openNode join leaf follow' n = s.openNode join leaf follow n := by
  induction n using Node.induction_on_parts with
  | node n ih =>
    obtain ⟨kind, modifiers, annotations⟩ := n
    cases kind with
    | union variants =>
      simp only [Setting.openNode]
      refine congrArg (· >>= _) ?_
      replace ih : ∀ c ∈ variants, _ := ih
      induction variants with
      | nil => rfl
      | cons n ns ihs =>
        rw [Setting.openEach, Setting.openEach, ih n List.mem_cons_self,
          ihs fun c hc => ih c (List.mem_cons_of_mem n hc)]
    | cyclic definitions root =>
      simp only [Setting.openNode]
      refine congrArg₂ (· >>= ·) ?_ rfl
      replace ih : ∀ c ∈ definitions.map Prod.snd, _ := ih
      induction definitions with
      | nil => rfl
      | cons e rest ihs =>
        obtain ⟨name, n⟩ := e
        rw [Setting.openRoot, Setting.openRoot, ih n (by simp), ihs fun c hc => ih c (by simp at hc ⊢; exact .inr hc)]
    | ref name => exact hfollow _
    | _ => rfl

theorem openSubject_under (join : List Node → Node) {leaf leaf' : Node → Outcome (Option Node)} (hleaf : leaf' = leaf)
    (n : Node) : (s.under evaluate state).openSubject join leaf' n = s.openSubject join leaf n := by
  subst hleaf
  suffices h : ∀ follows n,
      (s.under evaluate state).openWithin join leaf' follows n = s.openWithin join leaf' follows n from
    h (s.context.length + 1) n
  intro follows
  induction follows with
  | zero => exact fun _ => rfl
  | succ follows ih =>
    refine fun n => openNode_under (fun reference => ?_) n
    simp only [subject_under hfresh, ih]

theorem reduceEager_under (operands : List Node) :
    reduceEager (s.under evaluate state) operands = reduceEager s operands :=
  reduceEager_alike ⟨rfl, rfl, fun join _ n _ => openSubject_under hfresh join rfl n, fun n _ => subject_under hfresh n⟩

/-! ## Operators that instantiate their own operands -/

theorem inlineModule_under (operands : List Node) :
    inlineModule (s.under evaluate state) operands = inlineModule s operands := by
  have hassemble : ∀ scope names,
      assemble (s.under evaluate state).evaluate scope names = assemble s.evaluate scope names :=
    assemble_fresh hfresh
  unfold inlineModule
  split
  · simp only [hassemble]
    rfl
  · rfl

section
variable (hstate : ∀ context n, evaluate context state n = s.evaluate context s.state n)
include hstate

omit hfresh in
theorem instantiate_under (n : Node) : (s.under evaluate state).instantiate n = s.instantiate n := hstate s.context n

omit hfresh in
theorem instantiateIn_under (context : Context) (n : Node) :
    (s.under evaluate state).instantiateIn context n = s.instantiateIn context n := hstate context n

theorem conditional_under (operands : List Node) :
    conditional (s.under evaluate state) operands = conditional s operands := by
  unfold conditional
  split
  · simp only [instantiate_under hstate, subject_under hfresh]
  · rfl

omit hfresh in
theorem mappedProperties_under (binder : String) (body : Node) (remap : Option Node) (properties : Fields Node)
    (keys : List Literal) :
    mappedProperties (s.under evaluate state) binder body remap properties keys =
      mappedProperties s binder body remap properties keys := by
  have hname : ∀ scope key, propertyName (s.under evaluate state) scope key remap = propertyName s scope key remap := by
    intro scope key
    cases remap with
    | none => rfl
    | some remap =>
      simp only [propertyName, instantiateIn_under hstate]
      rfl
  have hcontext : (s.under evaluate state).context = s.context := rfl
  induction keys generalizing properties with
  | nil => rfl
  | cons key keys ih => simp only [mappedProperties, hname, hcontext, instantiateIn_under hstate, ih]

omit hfresh in
theorem mappedType_under (operands : List Node) :
    mappedType (s.under evaluate state) operands = mappedType s operands := by
  have hcontext : (s.under evaluate state).context = s.context := rfl
  have hlimit : (s.under evaluate state).templateLimit = s.templateLimit := rfl
  unfold mappedType
  split
  · split
    · rfl
    · split
      · simp only [instantiate_under hstate, mappedProperties_under hstate, instantiateIn_under hstate, hcontext, hlimit]
      · rfl
  · rfl

theorem reduceOperands_under (operands : List Node) :
    reduceOperands (s.under evaluate state) operands = reduceOperands s operands := by
  have hoperator : (s.under evaluate state).operator = s.operator := rfl
  have hinstantiate : (s.under evaluate state).instantiate = s.instantiate := funext (instantiate_under hstate)
  simp only [reduceOperands, hoperator, hinstantiate, conditional_under hfresh hstate, mappedType_under hstate,
    inlineModule_under hfresh, reduceEager_under hfresh]

/-- **An operator is reduced alike under another state**, if all that is instantiated there is. -/
theorem reduce_under (origin : Node) (operands : List Node) (options : Annotations) :
    reduce (s.under evaluate state) origin operands options = reduce s origin operands options := by
  simp only [reduce, reduceOperands_under hfresh hstate]
  rfl

end
end
end Schemata
