import Schemata.Proofs.Instantiation.Plan
/-!
# Reducers keep to plans

A reducer asks about nodes under the state that it is given, and about definitions that it packs or assembles under the
initial state.  Main statement: `planned_reduce`, for all operators at once.
-/
namespace Schemata

open Planned

variable {allowed : Point → Prop}

/-! ## Bundles and modules -/

section
variable (hfresh : ∀ context n, allowed ⟨context, .initial, n⟩)
include hfresh

theorem planned_package (scope : Context) (graph : ReferenceGraph) (candidates : List String) (name : String) :
    Planned allowed fun evaluate => package evaluate scope graph candidates name := by
  refine then_const (mapM fun member _ => ?_) _
  cases scope.get? member with
  | none => exact const _
  | some body => exact then_const (question (hfresh _ body)) _

theorem planned_assemble (scope : Context) (names : List String) :
    Planned allowed fun evaluate => assemble evaluate scope names := by
  refine mapM fun name _ => ?_
  cases scope.get? name with
  | none => exact const _
  | some n =>
    dsimp only
    split
    · exact then_const (planned_package hfresh scope _ _ name) _
    · exact then_const (question (hfresh scope n)) _

theorem planned_packageDefinition (context : Context) (name : String) (n : Node) :
    Planned allowed fun evaluate => packageDefinition evaluate context name n :=
  planned_package hfresh _ _ _ name

end

/-! ## Subjects -/

section
variable {limit : Nat} {context : Context} {state : State} {operator : Operator}

/-- What a reducer works with, for an evaluator yet to be given. -/
def settingOf (limit : Nat) (context : Context) (state : State) (operator : Operator) (evaluate : Evaluator) : Setting :=
  ⟨limit, evaluate, context, state, operator⟩

theorem planned_subject (hfresh : ∀ context n, allowed ⟨context, .initial, n⟩) (n : Node) :
    Planned allowed fun evaluate => (settingOf limit context state operator evaluate).subject n := by
  simp only [Setting.subject, settingOf]
  cases n.kind with
  | ref name =>
    dsimp only
    cases context.get? name with
    | none => exact const _
    | some target => exact then_const (planned_packageDefinition hfresh context name target) _
  | _ => exact const _

section
variable {leaf follow : Evaluator → Node → Outcome (Option Node)} (join : List Node → Node)

theorem planned_openEach {ns : List Node}
    (h : ∀ n ∈ ns, Planned allowed fun evaluate =>
      (settingOf limit context state operator evaluate).openNode join (leaf evaluate) (follow evaluate) n) :
    Planned allowed fun evaluate =>
      (settingOf limit context state operator evaluate).openEach join (leaf evaluate) (follow evaluate) ns := by
  induction ns with
  | nil => exact const (.done (some []))
  | cons n ns ih =>
    simp only [Setting.openEach]
    refine bind (h n (by simp)) fun opened => ?_
    cases opened with
    | none => exact const _
    | some opened => exact then_const (ih fun n hn => h n (List.mem_cons_of_mem _ hn)) _

theorem planned_openRoot (root : String) {definitions : List (String × Node)}
    (h : ∀ n ∈ definitions.map Prod.snd, Planned allowed fun evaluate =>
      (settingOf limit context state operator evaluate).openNode join (leaf evaluate) (follow evaluate) n) :
    Planned allowed fun evaluate =>
      (settingOf limit context state operator evaluate).openRoot join (leaf evaluate) (follow evaluate) root
        definitions := by
  induction definitions with
  | nil => exact const (.failed (.missing (.root root)))
  | cons e rest ih =>
    obtain ⟨name, n⟩ := e
    simp only [Setting.openRoot]
    split
    · exact h n (by simp)
    · exact ih fun n hn => h n (by simp at hn ⊢; exact .inr hn)

theorem planned_openNode (hl : ∀ n, Planned allowed fun evaluate => leaf evaluate n)
    (hf : ∀ n, Planned allowed fun evaluate => follow evaluate n) (n : Node) :
    Planned allowed fun evaluate =>
      (settingOf limit context state operator evaluate).openNode join (leaf evaluate) (follow evaluate) n := by
  induction n using Node.induction_on_parts with
  | node n ih =>
    obtain ⟨kind, modifiers, annotations⟩ := n
    cases kind with
    | union variants =>
      simp only [Setting.openNode]
      exact then_const (planned_openEach join ih) _
    | cyclic definitions root =>
      simp only [Setting.openNode]
      exact then_const (planned_openRoot join root ih) fun opened =>
        pure (opened.map ((settingOf limit context state operator fun _ _ _ => .exhausted).bundled definitions root))
    | ref name => simpa only [Setting.openNode] using hf _
    | _ => simpa only [Setting.openNode] using hl _

end

/-! ## Errors -/

theorem planned_wrongArity {α : Type} (arity : Arity) (operands : List Node) :
    Planned allowed fun evaluate =>
      ((settingOf limit context state operator evaluate).wrongArity arity operands : Outcome α) :=
  const (.failed (.invalidArity operator arity operands.length))

theorem planned_mismatch {α : Type} (expected : Expectation) (received : Node) :
    Planned allowed fun evaluate =>
      ((settingOf limit context state operator evaluate).mismatch expected received : Outcome α) :=
  const (.failed (.structuralMismatch operator expected received))

/-- A setting whose evaluator is never asked. -/
def silentSetting (limit : Nat) (context : Context) (state : State) (operator : Operator) : Setting :=
  settingOf limit context state operator fun _ _ _ => .exhausted

theorem planned_literalKeys (n : Node) :
    Planned allowed fun evaluate => literalKeys (settingOf limit context state operator evaluate) n := by
  induction n using Node.induction_on_parts with
  | node n ih =>
    obtain ⟨kind, modifiers, annotations⟩ := n
    cases kind with
    | union variants =>
      simp only [literalKeys]
      replace ih : ∀ c ∈ variants, _ := ih
      induction variants with
      | nil => exact const (.done (some []))
      | cons n ns ihs =>
        simp only [literalKeysAll]
        refine bind (ih n (by simp)) fun names => ?_
        cases names with
        | none => exact const _
        | some names => exact then_const (ihs fun c hc => ih c (List.mem_cons_of_mem _ hc)) _
    | literal l => exact const (.done (some [l.toKey]))
    | primitive p =>
      cases p with
      | never => exact const (.done (some []))
      | _ => exact planned_mismatch _ _
    | templatePattern fragments =>
      simp only [literalKeys, settingOf]
      split
      · exact const _
      · exact const _
      · exact planned_mismatch _ _
    | ref | call | deferred | parameter => exact const (.done none)
    | _ => exact planned_mismatch _ _

/-! ## Operators on properties and keys -/

theorem planned_propertyAccess (n key : Node) :
    Planned allowed fun evaluate => propertyAccess (settingOf limit context state operator evaluate) n key := by
  simp only [propertyAccess]
  cases collapse n with
  | unresolved => exact const _
  | notObject => exact planned_mismatch _ _
  | properties properties =>
    refine bind (planned_literalKeys key) fun names => ?_
    cases names with
    | none => exact const _
    | some names =>
      refine then_const ?_ _
      induction names with
      | nil => exact const (.done [])
      | cons name names ih =>
        simp only [propertyTypes]
        cases properties.get? name with
        | none => exact planned_mismatch _ _
        | some n => exact then_const ih _

theorem planned_indexLeaf (key n : Node) :
    Planned allowed fun evaluate => indexLeaf (settingOf limit context state operator evaluate) key n := by
  simp only [indexLeaf]
  split
  · exact const _
  · exact const _
  · exact const _
  · split
    · exact const _
    · exact planned_propertyAccess _ _
  · exact const (tupleAccess (silentSetting limit context state operator) _ _ key)
  · exact planned_propertyAccess _ _

section
variable (hfresh : ∀ context n, allowed ⟨context, .initial, n⟩)
include hfresh

theorem planned_openSubject (join : List Node → Node) {leaf : Evaluator → Node → Outcome (Option Node)}
    (hl : ∀ n, Planned allowed fun evaluate => leaf evaluate n) (n : Node) :
    Planned allowed fun evaluate =>
      (settingOf limit context state operator evaluate).openSubject join (leaf evaluate) n := by
  suffices h : ∀ follows n, Planned allowed fun evaluate =>
      (settingOf limit context state operator evaluate).openWithin join (leaf evaluate) follows n from
    h (context.length + 1) n
  intro follows
  induction follows with
  | zero => exact fun n => const .exhausted
  | succ follows ih =>
    intro n
    refine planned_openNode join hl (fun reference => ?_) n
    refine bind (planned_subject hfresh reference) fun subject => ?_
    cases subject.kind with
    | ref name => exact hl subject
    | _ => exact ih subject

theorem planned_changeProperties (change : Fields Node → Fields Node) (n : Node) :
    Planned allowed fun evaluate => changeProperties (settingOf limit context state operator evaluate) change n :=
  planned_openSubject hfresh _ (fun n => const (changeLeaf (silentSetting limit context state operator) change n)) n

theorem planned_selectProperties (keep : Bool) (operands : List Node) :
    Planned allowed fun evaluate => selectProperties (settingOf limit context state operator evaluate) keep operands := by
  match operands with
  | [subject, keys] =>
    refine bind (planned_literalKeys keys) fun names => ?_
    cases names with
    | none => exact const _
    | some names => exact planned_changeProperties hfresh _ subject
  | [] | [_] | _ :: _ :: _ :: _ => exact planned_wrongArity _ _

theorem planned_changeModifiers (change : Modifiers → Modifiers) (operands : List Node) :
    Planned allowed fun evaluate => changeModifiers (settingOf limit context state operator evaluate) change operands := by
  match operands with
  | [subject] => exact planned_changeProperties hfresh _ subject
  | [] | _ :: _ :: _ => exact planned_wrongArity _ _

theorem planned_keyDomain (operands : List Node) :
    Planned allowed fun evaluate => keyDomain (settingOf limit context state operator evaluate) operands := by
  match operands with
  | [subject] => exact planned_openSubject hfresh _ (fun n => const (keysLeaf n)) subject
  | [] | _ :: _ :: _ => exact planned_wrongArity _ _

theorem planned_evaluateShape (operands : List Node) :
    Planned allowed fun evaluate => evaluateShape (settingOf limit context state operator evaluate) operands := by
  match operands with
  | [subject] => exact planned_openSubject hfresh _ (fun n => const (evaluateLeaf n)) subject
  | [] | _ :: _ :: _ => exact planned_wrongArity _ _

theorem planned_indexBy (subject key : Node) :
    Planned allowed fun evaluate => indexBy (settingOf limit context state operator evaluate) subject key := by
  induction key using Node.induction_on_parts with
  | node key ih =>
    obtain ⟨kind, modifiers, annotations⟩ := key
    cases kind with
    | union keys =>
      simp only [indexBy]
      refine then_const ?_ _
      replace ih : ∀ key ∈ keys, _ := ih
      induction keys with
      | nil => exact const (.done (some []))
      | cons key keys ihs =>
        simp only [indexByEach]
        refine bind (ih key (by simp)) fun indexed => ?_
        cases indexed with
        | none => exact const _
        | some indexed => exact then_const (ihs fun key hk => ih key (List.mem_cons_of_mem _ hk)) _
    | _ =>
      simp only [indexBy]
      split
      · exact const _
      · exact planned_openSubject hfresh _ (planned_indexLeaf _) subject

theorem planned_indexAccess (operands : List Node) :
    Planned allowed fun evaluate => indexAccess (settingOf limit context state operator evaluate) operands := by
  match operands with
  | [subject, key] => exact planned_indexBy hfresh subject key
  | [] | [_] | _ :: _ :: _ :: _ => exact planned_wrongArity _ _

theorem planned_heritageProperties (operand : Node) :
    Planned allowed fun evaluate => heritageProperties (settingOf limit context state operator evaluate) operand := by
  refine bind (planned_subject hfresh operand) fun operand => ?_
  split
  · split
    · exact const _
    · exact planned_mismatch _ _
  · split
    · exact const _
    · exact const _
    · exact planned_mismatch _ _

theorem planned_interfaceOf (operands : List Node) :
    Planned allowed fun evaluate => interfaceOf (settingOf limit context state operator evaluate) operands := by
  cases operands with
  | nil => exact planned_wrongArity _ _
  | cons operand operands =>
    simp only [interfaceOf]
    refine bind ?_ fun heritage => ?_
    · generalize operand :: operands = operands
      induction operands with
      | nil => exact const (.done (some []))
      | cons operand operands ih =>
        simp only [Outcome.collect?]
        refine bind (planned_heritageProperties hfresh operand) fun properties => ?_
        cases properties with
        | none => exact const _
        | some properties => exact then_const ih _
    · cases heritage <;> exact const _

end

/-! ## Operators on unions, signatures and texts -/

theorem planned_filterBranches (keep : Bool) (operands : List Node) :
    Planned allowed fun evaluate => filterBranches (settingOf limit context state operator evaluate) keep operands := by
  match operands with
  | [left, right] => exact const (filterBranches (silentSetting limit context state operator) keep [left, right])
  | [] | [_] | _ :: _ :: _ :: _ => exact planned_wrongArity _ _

theorem planned_nonNullable (operands : List Node) :
    Planned allowed fun evaluate => nonNullable (settingOf limit context state operator evaluate) operands := by
  match operands with
  | [subject] => exact const (nonNullable (silentSetting limit context state operator) [subject])
  | [] | _ :: _ :: _ => exact planned_wrongArity _ _

theorem planned_awaitedValue (operands : List Node) :
    Planned allowed fun evaluate => awaitedValue (settingOf limit context state operator evaluate) operands := by
  match operands with
  | [subject] => exact const (awaitedValue (silentSetting limit context state operator) [subject])
  | [] | _ :: _ :: _ => exact planned_wrongArity _ _

theorem planned_recordOf (operands : List Node) :
    Planned allowed fun evaluate => recordOf (settingOf limit context state operator evaluate) operands := by
  match operands with
  | [key, value] => exact const (recordOf (silentSetting limit context state operator) [key, value])
  | [] | [_] | _ :: _ :: _ :: _ => exact planned_wrongArity _ _

theorem planned_templateTexts (fragments : List Node) :
    Planned allowed fun evaluate => templateTexts (settingOf limit context state operator evaluate) fragments :=
  const (templateTexts (silentSetting limit context state operator) fragments)

theorem planned_signaturePart (part : SignaturePart) (n : Node) :
    Planned allowed fun evaluate => signaturePart (settingOf limit context state operator evaluate) part n := by
  induction n using Node.induction_on_parts with
  | node n ih =>
    obtain ⟨kind, modifiers, annotations⟩ := n
    cases kind with
    | union variants =>
      simp only [signaturePart]
      refine then_const ?_ _
      replace ih : ∀ c ∈ variants, _ := ih
      induction variants with
      | nil => exact const (.done (some []))
      | cons n ns ihs =>
        simp only [signaturePartEach]
        refine bind (ih n (by simp)) fun found => ?_
        cases found with
        | none => exact const _
        | some found => exact then_const (ihs fun c hc => ih c (List.mem_cons_of_mem _ hc)) _
    | primitive p =>
      cases p with
      | any | never => simp only [signaturePart]; exact const _
      | _ =>
        simp only [signaturePart]
        split
        · exact const _
        · exact planned_mismatch _ _
    | _ =>
      simp only [signaturePart]
      split
      · exact const _
      · split
        · exact const _
        · exact planned_mismatch _ _

theorem planned_partOfSignature (part : SignaturePart) (operands : List Node) :
    Planned allowed fun evaluate => partOfSignature (settingOf limit context state operator evaluate) part operands := by
  match operands with
  | [subject] => exact planned_signaturePart part subject
  | [] | _ :: _ :: _ => exact planned_wrongArity _ _

theorem planned_changeCase (letterCase : LetterCase) (n : Node) :
    Planned allowed fun evaluate => changeCase (settingOf limit context state operator evaluate) letterCase n := by
  induction n using Node.induction_on_parts with
  | node n ih =>
    obtain ⟨kind, modifiers, annotations⟩ := n
    cases kind with
    | union variants =>
      simp only [changeCase]
      refine then_const ?_ _
      replace ih : ∀ c ∈ variants, _ := ih
      induction variants with
      | nil => exact const (.done (some []))
      | cons n ns ihs =>
        simp only [changeCaseEach]
        refine bind (ih n (by simp)) fun changed => ?_
        cases changed with
        | none => exact const _
        | some changed => exact then_const (ihs fun c hc => ih c (List.mem_cons_of_mem _ hc)) _
    | literal l =>
      cases l with
      | string text => simp only [changeCase]; exact const _
      | _ => simp only [changeCase]; exact planned_mismatch _ _
    | primitive p =>
      cases p with
      | string | any | never => simp only [changeCase]; exact const _
      | _ => simp only [changeCase]; exact planned_mismatch _ _
    | templatePattern | ref | call | deferred | parameter =>
      simp only [changeCase]
      exact const _
    | _ =>
      simp only [changeCase]
      exact planned_mismatch _ _

theorem planned_caseOf (letterCase : LetterCase) (operands : List Node) :
    Planned allowed fun evaluate => caseOf (settingOf limit context state operator evaluate) letterCase operands := by
  match operands with
  | [subject] => exact planned_changeCase letterCase subject
  | [] | _ :: _ :: _ => exact planned_wrongArity _ _

/-! ## All operators -/

section
variable (hfresh : ∀ context n, allowed ⟨context, .initial, n⟩)
include hfresh

theorem planned_reduceEager (operands : List Node) :
    Planned allowed fun evaluate => reduceEager (settingOf limit context state operator evaluate) operands := by
  cases operator with
  | pick => exact planned_selectProperties hfresh true operands
  | «omit» => exact planned_selectProperties hfresh false operands
  | allOptional => exact planned_changeModifiers hfresh ({ · with optional := true }) operands
  | allRequired => exact planned_changeModifiers hfresh ({ · with optional := false }) operands
  | allReadonly => exact planned_changeModifiers hfresh ({ · with readonly := true }) operands
  | allWritable => exact planned_changeModifiers hfresh ({ · with readonly := false }) operands
  | keyOf => exact planned_keyDomain hfresh operands
  | index => exact planned_indexAccess hfresh operands
  | evaluate => exact planned_evaluateShape hfresh operands
  | interface => exact planned_interfaceOf hfresh operands
  | exclude => exact planned_filterBranches false operands
  | extract => exact planned_filterBranches true operands
  | nonNullable => exact planned_nonNullable operands
  | awaited => exact planned_awaitedValue operands
  | returnType => exact planned_partOfSignature .returned operands
  | parameters => exact planned_partOfSignature .taken operands
  | constructorParameters => exact planned_partOfSignature .takenByConstructor operands
  | instanceType => exact planned_partOfSignature .created operands
  | uppercase => exact planned_caseOf .upper operands
  | lowercase => exact planned_caseOf .lower operands
  | capitalize => exact planned_caseOf .capital operands
  | uncapitalize => exact planned_caseOf .uncapital operands
  | templateLiteral => exact planned_templateTexts operands
  | record => exact planned_recordOf operands
  | conditional | mapped | inlineModule => exact const _

theorem planned_inlineModule (operands : List Node) :
    Planned allowed fun evaluate => inlineModule (settingOf limit context state operator evaluate) operands := by
  match operands with
  | [operand] =>
    simp only [inlineModule]
    cases operand.kind with
    | object definitions =>
      exact then_const (planned_assemble hfresh (context.extend definitions) (Fields.names definitions)) _
    | _ => exact planned_mismatch _ _
  | [] | _ :: _ :: _ => exact planned_wrongArity _ _

variable (hstate : ∀ context n, allowed ⟨context, state, n⟩)
include hstate

theorem planned_conditional (operands : List Node) :
    Planned allowed fun evaluate => conditional (settingOf limit context state operator evaluate) operands := by
  match operands with
  | [check, bound, whenTrue, whenFalse] =>
    refine bind (question (hstate context check)) fun check => bind (planned_subject hfresh check) fun check => ?_
    refine bind (question (hstate context bound)) fun bound => bind (planned_subject hfresh bound) fun bound => ?_
    split
    · exact then_const (question (hstate context _)) _
    · exact const _
  | [] | [_] | [_, _] | [_, _, _] | _ :: _ :: _ :: _ :: _ :: _ => exact planned_wrongArity _ _

omit hfresh in
theorem planned_propertyName (scope : Context) (key : Literal) (remap : Option Node) :
    Planned allowed fun evaluate =>
      propertyName (settingOf limit context state operator evaluate) scope key remap := by
  cases remap with
  | none => exact const _
  | some remap =>
    refine bind (question (hstate scope remap)) fun remapped => ?_
    split
    · exact const _
    · exact const _
    · exact planned_mismatch _ _

omit hfresh in
theorem planned_mappedProperties (binder : String) (body : Node) (remap : Option Node) (properties : Fields Node)
    (keys : List Literal) :
    Planned allowed fun evaluate =>
      mappedProperties (settingOf limit context state operator evaluate) binder body remap properties keys := by
  induction keys generalizing properties with
  | nil => exact const (.done properties)
  | cons key keys ih =>
    let scope := context.insert binder (.literal key)
    refine bind (planned_propertyName hstate scope key remap) fun name => ?_
    cases name with
    | none => exact ih properties
    | some name => exact bind (question (hstate scope body)) fun type => ih (properties.insert name type)

omit hfresh in
theorem planned_mappedType (operands : List Node) :
    Planned allowed fun evaluate => mappedType (settingOf limit context state operator evaluate) operands := by
  match operands with
  | [] | [_] => exact planned_wrongArity _ _
  | binder :: body :: rest =>
    simp only [mappedType]
    split
    · exact planned_wrongArity _ _
    · split
      · refine bind (question (hstate context _)) fun source => ?_
        simp only [settingOf]
        split
        · exact then_const (planned_mappedProperties hstate _ body rest.head? [] _) _
        · exact then_const (question (hstate _ body)) _
        · exact const _
      · exact planned_mismatch _ _

theorem planned_reduceOperands (operands : List Node) :
    Planned allowed fun evaluate => reduceOperands (settingOf limit context state operator evaluate) operands := by
  cases operator with
  | conditional => exact planned_conditional hfresh hstate operands
  | mapped => exact planned_mappedType hstate operands
  | inlineModule => exact planned_inlineModule hfresh operands
  | _ =>
    refine bind (mapM fun operand _ => question (hstate context operand)) fun operands => ?_
    exact then_const (planned_reduceEager hfresh operands) _

/-- **A reducer keeps to a plan.** -/
theorem planned_reduce (origin : Node) (operands : List Node) (options : Annotations) :
    Planned allowed fun evaluate =>
      reduce (settingOf limit context state operator evaluate) origin operands options := by
  by_cases h : canReduce context operator operands = true
  · simp only [reduce, settingOf, h, if_true]
    exact then_const (planned_reduceOperands hfresh hstate operands) _
  · simp only [reduce, settingOf, h]
    exact const (.done origin)

end
end
end Schemata
