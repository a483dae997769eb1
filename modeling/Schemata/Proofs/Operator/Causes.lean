import Schemata.Proofs.Instantiation.Causes
import Schemata.Proofs.Operator.Lists
import Schemata.Proofs.Operator.Opening
/-!
# What stops a reducer

A reducer stops because an operand is not of the form that it asks for, because there are too few or too many of them,
because a definition is missing or a chain of references has no end, or because something that it instantiates stops.
A program that checks its sums also stops at the last index of a tuple, without an answer.

- `OwnCauses`, `OperandCause`: the causes that reducers have of their own, and those among them that operands have.
- `Operator.avoidsLastIndex`: no index that is asked for is the last one.
- `Setting.FirstOpens`: what opening the first operand stops for.

Main statement: `reduce_stopsBy`, for all operators at once.
-/
namespace Schemata

variable {causes : Option InstantiationError → Prop} {checked : Bool} {α β : Type}

/-- **The causes that reducers have of their own** are among others. -/
structure OwnCauses (causes : Option InstantiationError → Prop) : Prop where
  mismatch : ∀ operator expected received, causes (some (.structuralMismatch operator expected received))
  arity : ∀ operator expected received, causes (some (.invalidArity operator expected received))
  missing : ∀ name, causes (some (.missing name))

/-- **The causes that operands have**: their form and their number.  The last index is one only where sums are not checked. -/
def OperandCause (checked : Bool) : Option InstantiationError → Prop
  | some (.structuralMismatch _ .wordIndex _) => checked = false
  | some (.structuralMismatch ..) | some (.invalidArity ..) => True
  | _ => False

theorem Outcome.StopsBy.imp {wider : Option InstantiationError → Prop} {x : Outcome α} (hx : x.StopsBy causes)
    (h : ∀ cause, causes cause → wider cause) : x.StopsBy wider := by
  cases x with
  | done a => trivial
  | failed e => exact h _ hx
  | exhausted => exact h _ hx

theorem OwnCauses.of_operand (h : OwnCauses causes) : ∀ cause, OperandCause checked cause → causes cause
  | some (.structuralMismatch ..), _ => h.mismatch _ _ _
  | some (.invalidArity ..), _ => h.arity _ _ _

theorem Outcome.StopsBy.collect? {f : α → Outcome (Option β)} {xs : List α} (h : ∀ x ∈ xs, (f x).StopsBy causes) :
    (Outcome.collect? f xs).StopsBy causes := by
  induction xs with
  | nil => trivial
  | cons x xs ih =>
    refine (h x List.mem_cons_self).bind fun y _ => ?_
    cases y with
    | none => trivial
    | some y => exact (ih fun z hz => h z (List.mem_cons_of_mem x hz)).then

/-! ## Keys -/

/-- **Whether none of the indices that a key asks for is the last one.** -/
def Node.avoidsLastIndex (key : Node) : Bool := (branches key).all fun k => !k.index?.any isLastIndex

theorem Node.avoidsLastIndex_union {keys : List Node} {modifiers : Modifiers} {annotations : Annotations} :
    (Node.mk (.union keys) modifiers annotations).avoidsLastIndex = keys.all avoidsLastIndex := by
  rw [avoidsLastIndex, branches, branchesAll_eq_flatMap, List.all_flatMap]
  rfl

theorem Node.not_lastIndex_of_avoids {key : Node} (h : key.avoidsLastIndex = true) :
    key.index?.any isLastIndex = false := by
  obtain ⟨kind, modifiers, annotations⟩ := key
  cases kind with
  | literal l => simpa [avoidsLastIndex, branches] using h
  | _ => rfl

def Operator.avoidsLastIndex (operator : Operator) (operands : List Node) : Bool :=
  match operator, operands with
  | .index, [_, key] => key.avoidsLastIndex
  | _, _ => true

/-- **The last index of a rest tuple**: its successor is `0`, and no list is long enough for the index itself. -/
theorem tupleAccess_lastIndex {s : Setting} {items : List Node} {key : Node} {index : UInt64}
    (hkey : key.index? = some index) (hlast : isLastIndex index = true) (hitems : items.length < 2 ^ 64) :
    tupleAccess s items true key = .failed (.structuralMismatch s.operator .wordIndex key) := by
  have hsucc : index + 1 = 0 := by simpa [isLastIndex] using hlast
  have hindex : items.length ≤ index.toNat := by
    have hwrap := congrArg UInt64.toNat hsucc
    rw [UInt64.toNat_add] at hwrap
    have := index.toNat_lt
    simp only [UInt64.toNat_one, UInt64.toNat_zero] at hwrap
    omega
  have helement : elementAt? items true index = none := by
    rw [elementAt?, hsucc, List.getElem?_eq_none hindex]
    cases items <;> simp
  rw [tupleAccess, hkey]
  simp only [helement, hlast]
  rfl

/-! ## Reducers that look at their operands only -/

section
variable {s : Setting}

theorem stopsBy_literalKeys (n : Node) : (literalKeys s n).StopsBy (OperandCause checked) := by
  induction n using Node.induction_on_parts with
  | node n ih =>
    obtain ⟨kind, modifiers, annotations⟩ := n
    cases kind with
    | union variants =>
      simp only [literalKeys]
      replace ih : ∀ c ∈ variants, _ := ih
      induction variants with
      | nil => trivial
      | cons n ns ihs =>
        refine (ih n List.mem_cons_self).bind fun names _ => ?_
        cases names with
        | none => trivial
        | some names => exact (ihs fun c hc => ih c (List.mem_cons_of_mem n hc)).then
    | primitive p => cases p <;> trivial
    | templatePattern fragments =>
      simp only [literalKeys]
      split <;> trivial
    | _ => trivial

theorem stopsBy_propertyTypes (properties : Fields Node) (key : Node) (names : List String) :
    (propertyTypes s properties key names).StopsBy (OperandCause checked) := by
  induction names with
  | nil => trivial
  | cons name names ih =>
    rw [propertyTypes]
    cases properties.get? name with
    | none => trivial
    | some n => exact ih.then

theorem stopsBy_propertyAccess (n key : Node) : (propertyAccess s n key).StopsBy (OperandCause checked) := by
  rw [propertyAccess]
  cases collapse n with
  | unresolved => trivial
  | notObject => trivial
  | properties properties =>
    refine (stopsBy_literalKeys key).bind fun names _ => ?_
    cases names with
    | none => trivial
    | some names => exact (stopsBy_propertyTypes properties key names).then

section
variable {key : Node} (hkey : checked = true → key.index?.any isLastIndex = false)
include hkey

theorem stopsBy_tupleAccess (items : List Node) (rest : Bool) :
    (tupleAccess s items rest key).StopsBy (OperandCause checked) := by
  rw [tupleAccess]
  split
  · rename_i index hindex
    split
    · trivial
    · by_cases hlast : isLastIndex index = true
      · -- The last index is a cause only if sums are not checked.
        have hunchecked : checked = false := by
          cases checked with
          | false => rfl
          | true => simp [hindex, hlast] at hkey
        subst hunchecked
        cases rest <;> simp [hlast, Setting.mismatch, Outcome.StopsBy, OperandCause]
      · simp [hlast, Setting.mismatch, Outcome.StopsBy, OperandCause]
  · split <;> trivial

theorem stopsBy_indexLeaf (n : Node) : (indexLeaf s key n).StopsBy (OperandCause checked) := by
  rw [indexLeaf]
  split
  · trivial
  · trivial
  · trivial
  · split
    · trivial
    · exact stopsBy_propertyAccess _ _
  · exact stopsBy_tupleAccess hkey _ _
  · exact stopsBy_propertyAccess _ _

end

theorem stopsBy_changeLeaf (change : Fields Node → Fields Node) (n : Node) :
    (changeLeaf s change n).StopsBy (OperandCause checked) := by
  rw [changeLeaf]
  split
  · trivial
  · trivial
  · split <;> trivial

theorem stopsBy_keysLeaf (n : Node) : (keysLeaf n).StopsBy (OperandCause checked) := by
  unfold keysLeaf
  split <;> first | trivial | split <;> trivial

theorem stopsBy_evaluateLeaf (n : Node) : (evaluateLeaf n).StopsBy (OperandCause checked) := by
  unfold evaluateLeaf
  split <;> split <;> trivial

theorem stopsBy_filterBranches (keep : Bool) (operands : List Node) :
    (filterBranches s keep operands).StopsBy (OperandCause checked) := by
  match operands with
  | [left, right] =>
    simp only [filterBranches]
    split <;> trivial
  | [] | [_] | _ :: _ :: _ :: _ => trivial

theorem stopsBy_nonNullable (operands : List Node) : (nonNullable s operands).StopsBy (OperandCause checked) := by
  match operands with
  | [subject] =>
    simp only [nonNullable]
    split <;> trivial
  | [] | _ :: _ :: _ => trivial

theorem stopsBy_awaitedValue (operands : List Node) : (awaitedValue s operands).StopsBy (OperandCause checked) := by
  match operands with
  | [_] | [] | _ :: _ :: _ => trivial

theorem stopsBy_recordOf (operands : List Node) : (recordOf s operands).StopsBy (OperandCause checked) := by
  match operands with
  | [key, value] =>
    simp only [recordOf]
    split <;> trivial
  | [] | [_] | _ :: _ :: _ :: _ => trivial

theorem stopsBy_templateTexts (fragments : List Node) : (templateTexts s fragments).StopsBy (OperandCause checked) := by
  simp only [templateTexts]
  split <;> trivial

theorem stopsBy_signaturePart (part : SignaturePart) (n : Node) : (signaturePart s part n).StopsBy (OperandCause checked) := by
  induction n using Node.induction_on_parts with
  | node n ih =>
    obtain ⟨kind, modifiers, annotations⟩ := n
    cases kind with
    | union variants =>
      simp only [signaturePart, signaturePartEach_eq_collect?]
      exact (Outcome.StopsBy.collect? ih).then
    | primitive p =>
      cases p with
      | any | never => trivial
      | _ => cases part <;> trivial
    | _ =>
      simp only [signaturePart]
      split
      · trivial
      · split
        · trivial
        · cases part <;> trivial

theorem stopsBy_partOfSignature (part : SignaturePart) (operands : List Node) :
    (partOfSignature s part operands).StopsBy (OperandCause checked) := by
  match operands with
  | [subject] => exact stopsBy_signaturePart part subject
  | [] | _ :: _ :: _ => trivial

theorem stopsBy_changeCase (letterCase : LetterCase) (n : Node) :
    (changeCase s letterCase n).StopsBy (OperandCause checked) := by
  induction n using Node.induction_on_parts with
  | node n ih =>
    obtain ⟨kind, modifiers, annotations⟩ := n
    cases kind with
    | union variants =>
      simp only [changeCase, changeCaseEach_eq_collect?]
      exact (Outcome.StopsBy.collect? ih).then
    | literal l => cases l <;> trivial
    | primitive p => cases p <;> trivial
    | _ => trivial

theorem stopsBy_caseOf (letterCase : LetterCase) (operands : List Node) :
    (caseOf s letterCase operands).StopsBy (OperandCause checked) := by
  match operands with
  | [subject] => exact stopsBy_changeCase letterCase subject
  | [] | _ :: _ :: _ => trivial

end

/-! ## Bundles and modules -/

section
variable {evaluate : Evaluator} (hown : OwnCauses causes)
  (hevaluate : ∀ context state n, (evaluate context state n).StopsBy causes)
include hown hevaluate

theorem stopsBy_package (scope : Context) (graph : ReferenceGraph) (candidates : List String) (name : String) :
    (package evaluate scope graph candidates name).StopsBy causes := by
  refine Outcome.StopsBy.then (Outcome.stopsBy_mapM fun member _ => ?_)
  split
  · exact (hevaluate _ _ _).then
  · exact hown.missing _

theorem stopsBy_assemble (scope : Context) (names : List String) : (assemble evaluate scope names).StopsBy causes := by
  refine Outcome.stopsBy_mapM fun name _ => ?_
  split
  · exact hown.missing _
  · split
    · exact (stopsBy_package hown hevaluate _ _ _ _).then
    · exact (hevaluate _ _ _).then

theorem stopsBy_packageDefinition (context : Context) (name : String) (n : Node) :
    (packageDefinition evaluate context name n).StopsBy causes := stopsBy_package hown hevaluate _ _ _ name

end

/-! ## Reducers that open their first operand -/

/-- **What opening the first operand stops for**, whatever is made of what it comes to. -/
def Setting.FirstOpens (s : Setting) (causes : Option InstantiationError → Prop) (operands : List Node) : Prop :=
  ∀ join leaf, (∀ n, (leaf n).StopsBy causes) → ∀ n ∈ operands.head?, (s.openSubject join leaf n).StopsBy causes

section
variable {s : Setting}

theorem stopsBy_openNode (hroot : ∀ root, causes (some (.missing (.root root)))) (join : List Node → Node)
    {leaf follow : Node → Outcome (Option Node)} (hleaf : ∀ n, (leaf n).StopsBy causes) {n : Node}
    (hfollow : ∀ m ∈ n.shown, ∀ name, m.kind = .ref name → (follow m).StopsBy causes) :
    (s.openNode join leaf follow n).StopsBy causes := by
  induction n using Node.induction_on_parts with
  | node n ih =>
    rw [Node.shown_eq] at hfollow
    obtain ⟨kind, modifiers, annotations⟩ := n
    cases kind with
    | union variants =>
      simp only [Setting.openNode, Setting.openEach_eq_collect?]
      exact (Outcome.StopsBy.collect? fun c hc => ih c hc fun m hm => hfollow m (List.mem_flatMap.2 ⟨c, hc, hm⟩)).then
    | cyclic definitions root =>
      simp only [Setting.openNode, Setting.openRoot_eq]
      refine Outcome.StopsBy.then ?_
      cases hr : Fields.get? definitions root with
      | none => exact hroot root
      | some target =>
        simp only [hr] at hfollow
        exact ih target (List.mem_map.2 ⟨_, Fields.mem_of_get? hr, rfl⟩) hfollow
    | ref name => simpa only [Setting.openNode] using hfollow _ (List.mem_singleton_self _) name rfl
    | _ => simpa only [Setting.openNode] using hleaf _

variable (hoperand : ∀ cause, OperandCause checked cause → causes cause) {operands : List Node}
  (hopen : s.FirstOpens causes operands)
include hoperand hopen

theorem stopsBy_selectProperties (keep : Bool) : (selectProperties s keep operands).StopsBy causes := by
  match operands with
  | [subject, keys] =>
    refine ((stopsBy_literalKeys keys).imp hoperand).bind fun names _ => ?_
    cases names with
    | none => trivial
    | some names => exact hopen _ _ (fun n => (stopsBy_changeLeaf _ n).imp hoperand) subject rfl
  | [] | [_] | _ :: _ :: _ :: _ => exact hoperand _ trivial

theorem stopsBy_changeModifiers (change : Modifiers → Modifiers) :
    (changeModifiers s change operands).StopsBy causes := by
  match operands with
  | [subject] => exact hopen _ _ (fun n => (stopsBy_changeLeaf _ n).imp hoperand) subject rfl
  | [] | _ :: _ :: _ => exact hoperand _ trivial

theorem stopsBy_keyDomain : (keyDomain s operands).StopsBy causes := by
  match operands with
  | [subject] => exact hopen _ _ (fun n => (stopsBy_keysLeaf n).imp hoperand) subject rfl
  | [] | _ :: _ :: _ => exact hoperand _ trivial

theorem stopsBy_evaluateShape : (evaluateShape s operands).StopsBy causes := by
  match operands with
  | [subject] => exact hopen _ _ (fun n => (stopsBy_evaluateLeaf n).imp hoperand) subject rfl
  | [] | _ :: _ :: _ => exact hoperand _ trivial

theorem stopsBy_indexAccess (hlast : checked = true → Operator.index.avoidsLastIndex operands = true) :
    (indexAccess s operands).StopsBy causes := by
  match operands with
  | [subject, key] =>
    show (indexBy s subject key).StopsBy causes
    replace hlast : checked = true → key.avoidsLastIndex = true := hlast
    induction key using Node.induction_on_parts with
    | node key ih =>
      have hleaf : ∀ n, (indexLeaf s key n).StopsBy causes := fun n =>
        (stopsBy_indexLeaf (fun hchecked => Node.not_lastIndex_of_avoids (hlast hchecked)) n).imp hoperand
      obtain ⟨kind, modifiers, annotations⟩ := key
      cases kind with
      | union keys =>
        simp only [indexBy, indexByEach_eq_collect?]
        rw [Node.avoidsLastIndex_union, List.all_eq_true] at hlast
        exact (Outcome.StopsBy.collect? fun key hkey => ih key hkey hopen fun hchecked => hlast hchecked key hkey).then
      | _ =>
        simp only [indexBy]
        split
        · trivial
        · exact hopen _ _ hleaf subject rfl
  | [] | [_] | _ :: _ :: _ :: _ => exact hoperand _ trivial

/-- **An operator that opens its first operand stops for what stops the opening**, or for the form of its operands. -/
theorem stopsBy_reduceEager_of_opens (hopens : s.operator.opens = true)
    (hlast : checked = true → s.operator.avoidsLastIndex operands = true) : (reduceEager s operands).StopsBy causes := by
  rw [reduceEager]
  split
  · exact stopsBy_selectProperties hoperand hopen true
  · exact stopsBy_selectProperties hoperand hopen false
  · exact stopsBy_changeModifiers hoperand hopen ({ · with optional := true })
  · exact stopsBy_changeModifiers hoperand hopen ({ · with optional := false })
  · exact stopsBy_changeModifiers hoperand hopen ({ · with readonly := true })
  · exact stopsBy_changeModifiers hoperand hopen ({ · with readonly := false })
  · exact stopsBy_keyDomain hoperand hopen
  · rename_i hoperator
    exact stopsBy_indexAccess hoperand hopen (hoperator ▸ hlast)
  · exact stopsBy_evaluateShape hoperand hopen
  all_goals
    rename_i hoperator
    rw [hoperator] at hopens
    cases hopens

end

/-! ## Subjects -/

section
variable {s : Setting} (hown : OwnCauses causes) (hevaluate : ∀ context state n, (s.evaluate context state n).StopsBy causes)
include hown hevaluate

theorem stopsBy_subject (n : Node) : (s.subject n).StopsBy causes := by
  rw [Setting.subject]
  split
  · split
    · exact (stopsBy_packageDefinition hown hevaluate _ _ _).then
    · trivial
  · trivial

/-- A chain of references that has no end is a further cause. -/
theorem Setting.firstOpens (hendless : causes none) (operands : List Node) : s.FirstOpens causes operands := by
  intro join leaf hleaf n _
  suffices h : ∀ follows n, (s.openWithin join leaf follows n).StopsBy causes from h _ n
  intro follows
  induction follows with
  | zero => exact fun n => hendless
  | succ follows ih =>
    intro n
    refine stopsBy_openNode (fun _ => hown.missing _) join hleaf fun reference _ _ _ => ?_
    refine (stopsBy_subject hown hevaluate reference).bind fun subject _ => ?_
    split
    · exact hleaf subject
    · exact ih subject

theorem stopsBy_interfaceOf (operands : List Node) : (interfaceOf s operands).StopsBy causes := by
  cases operands with
  | nil => exact hown.arity _ _ _
  | cons operand operands =>
    rw [interfaceOf]
    refine Outcome.StopsBy.bind (Outcome.StopsBy.collect? fun operand _ => ?_) fun heritage _ => ?_
    · refine (stopsBy_subject hown hevaluate operand).bind fun operand _ => ?_
      split
      · split
        · trivial
        · exact hown.mismatch _ _ _
      · split
        · trivial
        · trivial
        · exact hown.mismatch _ _ _
    · cases heritage <;> trivial
    · simp

/-! ## All operators -/

theorem stopsBy_reduceEager {operands : List Node} (hopen : s.FirstOpens causes operands) :
    (reduceEager s operands).StopsBy causes := by
  have hcauses : ∀ cause, OperandCause false cause → causes cause := hown.of_operand
  by_cases hopens : s.operator.opens = true
  · exact stopsBy_reduceEager_of_opens hcauses hopen hopens nofun
  have hoperand : ∀ {x : Outcome (Option Node)}, x.StopsBy (OperandCause false) → x.StopsBy causes :=
    fun hx => hx.imp hcauses
  rw [reduceEager]
  split <;> rename_i hoperator <;> try exact absurd (by rw [hoperator]; rfl) hopens
  · exact stopsBy_interfaceOf hown hevaluate operands
  · exact hoperand (stopsBy_filterBranches false operands)
  · exact hoperand (stopsBy_filterBranches true operands)
  · exact hoperand (stopsBy_nonNullable operands)
  · exact hoperand (stopsBy_awaitedValue operands)
  · exact hoperand (stopsBy_partOfSignature .returned operands)
  · exact hoperand (stopsBy_partOfSignature .taken operands)
  · exact hoperand (stopsBy_partOfSignature .takenByConstructor operands)
  · exact hoperand (stopsBy_partOfSignature .created operands)
  · exact hoperand (stopsBy_caseOf .upper operands)
  · exact hoperand (stopsBy_caseOf .lower operands)
  · exact hoperand (stopsBy_caseOf .capital operands)
  · exact hoperand (stopsBy_caseOf .uncapital operands)
  · exact hoperand (stopsBy_templateTexts operands)
  · exact hoperand (stopsBy_recordOf operands)
  all_goals trivial

theorem stopsBy_conditional (operands : List Node) : (conditional s operands).StopsBy causes := by
  match operands with
  | [check, bound, whenTrue, whenFalse] =>
    refine (hevaluate _ _ check).bind fun check _ => (stopsBy_subject hown hevaluate check).bind fun check _ => ?_
    refine (hevaluate _ _ bound).bind fun bound _ => (stopsBy_subject hown hevaluate bound).bind fun bound _ => ?_
    split
    · exact (hevaluate _ _ _).then
    · trivial
  | [] | [_] | [_, _] | [_, _, _] | _ :: _ :: _ :: _ :: _ :: _ => exact hown.arity _ _ _

theorem stopsBy_propertyName (scope : Context) (key : Literal) (remap : Option Node) :
    (propertyName s scope key remap).StopsBy causes := by
  cases remap with
  | none => trivial
  | some remap =>
    refine (hevaluate _ _ remap).bind fun remapped _ => ?_
    split
    · trivial
    · trivial
    · exact hown.mismatch _ _ _

theorem stopsBy_mappedProperties (binder : String) (body : Node) (remap : Option Node) (properties : Fields Node)
    (keys : List Literal) : (mappedProperties s binder body remap properties keys).StopsBy causes := by
  induction keys generalizing properties with
  | nil => trivial
  | cons key keys ih =>
    refine (stopsBy_propertyName hown hevaluate _ key remap).bind fun name _ => ?_
    cases name with
    | none => exact ih properties
    | some name => exact (hevaluate _ _ body).bind fun type _ => ih (properties.insert name type)

theorem stopsBy_mappedType (operands : List Node) : (mappedType s operands).StopsBy causes := by
  match operands with
  | [] | [_] => exact hown.arity _ _ _
  | binder :: body :: rest =>
    rw [mappedType]
    split
    · exact hown.arity _ _ _
    · split
      · refine (hevaluate _ _ _).bind fun source _ => ?_
        split
        · exact (stopsBy_mappedProperties hown hevaluate _ _ _ _ _).then
        · exact (hevaluate _ _ _).then
        · trivial
      · exact hown.mismatch _ _ _

theorem stopsBy_inlineModule (operands : List Node) : (inlineModule s operands).StopsBy causes := by
  match operands with
  | [operand] =>
    rw [inlineModule]
    split
    · exact (stopsBy_assemble hown hevaluate _ _).then
    · exact hown.mismatch _ _ _
  | [] | _ :: _ :: _ => exact hown.arity _ _ _

variable (hopen : ∀ operands, s.FirstOpens causes operands)
include hopen

theorem stopsBy_reduceOperands (operands : List Node) : (reduceOperands s operands).StopsBy causes := by
  rw [reduceOperands]
  split
  · exact stopsBy_conditional hown hevaluate operands
  · exact stopsBy_mappedType hown hevaluate operands
  · exact stopsBy_inlineModule hown hevaluate operands
  · refine (Outcome.stopsBy_mapM fun operand _ => hevaluate _ _ operand).bind fun operands _ => ?_
    refine (stopsBy_reduceEager hown hevaluate (hopen operands)).bind fun reduced _ => ?_
    cases reduced <;> trivial

/-- **A reduction stops for causes of its own**, or for those of the nodes that it instantiates and of what it opens. -/
theorem reduce_stopsBy (origin : Node) (operands : List Node) (options : Annotations) :
    (reduce s origin operands options).StopsBy causes := by
  rw [reduce]
  split
  · refine (stopsBy_reduceOperands hown hevaluate hopen operands).bind fun reduction _ => ?_
    cases reduction <;> trivial
  · trivial

end

/-- **A query stops for causes of bundles and modules**, or for those of the nodes that it instantiates. -/
theorem Query.stopsBy_of_asks (hown : OwnCauses causes) (query : Query) {evaluate : Evaluator}
    (h : ∀ q, Asks (fun evaluate => query.outcome evaluate) evaluate q → (evaluate.answer q).StopsBy causes) :
    (query.outcome evaluate).StopsBy causes := by
  refine query.planned_outcome.stopsBy_of_asks (fun evaluate hevaluate => ?_) h
  cases query with
  | node context n => exact (hevaluate context .initial n).then
  | module context => exact stopsBy_assemble hown hevaluate context context.names
  | cyclic context name n => exact (stopsBy_packageDefinition hown hevaluate context name n).then

end Schemata
