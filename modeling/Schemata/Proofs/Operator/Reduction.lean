import Schemata.Proofs.Module.Assembly
import Schemata.Proofs.Operator.Reducers
/-!
# Reduction under other names

Operators that instantiate their own operands bind names: a mapped type its key, an inline module its definitions.  The
definitions of an inline module are properties of an object before they are names, so it is reduced alike only where the
permutation leaves them alone (`DefinesFixed`).  Main statement: `reduce_rename`.
-/
namespace Schemata

variable {ρ : Equiv.Perm String} {s : Setting} {evaluate' : Evaluator}

/-- The names that operators define stay: those of the definitions of an inline module. -/
def DefinesFixed (ρ : String → String) (operator : Operator) (operands : List Node) : Prop :=
  ∀ operand definitions, operator = .inlineModule → operands = [operand] → operand.kind = .object definitions →
    ∀ name ∈ Fields.names definitions, ρ name = name

def Reduction.rename (ρ : String → String) : Reduction → Reduction
  | .done result => .done (result.rename ρ)
  | .waiting operands => .waiting (operands.map (Node.rename ρ))

theorem Fields.rename_of_fixed {α β : Type} {f : α → β} {ρ : String → String} {fields : Fields α}
    (hnames : ∀ name ∈ fields.names, ρ name = name) : fields.rename ρ f = fields.rename id f :=
  List.map_congr_left fun e he => Prod.ext (hnames e.1 (List.mem_map_of_mem he)) rfl

section
variable (h : s.evaluate.Renames ρ evaluate')
include h

/-! ## Conditionals -/

theorem conditional_rename (operands : List Node) :
    conditional (s.rename ρ evaluate') (operands.map (Node.rename ρ)) =
      (conditional s operands).rename ρ (Reduction.rename ρ) := by
  match operands with
  | [check, bound, whenTrue, whenFalse] =>
    refine Outcome.bind_rename (Setting.instantiate_rename h check) fun check _ => ?_
    refine Outcome.bind_rename (Setting.subject_rename h check) fun check _ => ?_
    refine Outcome.bind_rename (Setting.instantiate_rename h bound) fun bound _ => ?_
    refine Outcome.bind_rename (Setting.subject_rename h bound) fun bound _ => ?_
    rw [Node.isConcrete_rename, Node.isConcrete_rename, fits_rename_both, ← apply_ite (Node.rename ρ)]
    split
    · exact Outcome.bind_rename (Setting.instantiate_rename h _) fun _ _ => rfl
    · rfl
  | [] => rfl
  | [_] => rfl
  | [_, _] => rfl
  | [_, _, _] => rfl
  | a :: b :: c :: d :: e :: more => exact Setting.wrongArity_rename _ (a :: b :: c :: d :: e :: more)

/-! ## Mapped types -/

theorem propertyName_rename (scope : Context) (key : Literal) (remap : Option Node) :
    propertyName (s.rename ρ evaluate') (scope.rename ρ) key (remap.map (Node.rename ρ)) =
      (propertyName s scope key remap).rename ρ id := by
  cases remap with
  | none => rfl
  | some remap =>
    refine Outcome.bind_rename (Setting.instantiateIn_rename h scope remap) fun remapped _ => ?_
    have hmismatch : (s.rename ρ evaluate').mismatch .literalKeyOrNever (remapped.rename ρ) =
        ((s.mismatch .literalKeyOrNever remapped : Outcome (Option String))).rename ρ id := rfl
    rw [Node.kind_rename]
    cases remapped.kind with
    | primitive p => cases p <;> rfl
    | literal l => rfl
    | _ => exact hmismatch

omit h in
theorem insert_context_rename (name : String) (n : Node) :
    (s.rename ρ evaluate').context.insert (ρ name) (n.rename ρ) = Context.rename ρ (s.context.insert name n) :=
  Fields.insert_rename ρ.injective s.context name n

theorem mappedProperties_rename (binder : String) (body : Node) (remap : Option Node) (properties : Fields Node)
    (keys : List Literal) :
    mappedProperties (s.rename ρ evaluate') (ρ binder) (body.rename ρ) (remap.map (Node.rename ρ))
        (properties.rename id (Node.rename ρ)) keys =
      (mappedProperties s binder body remap properties keys).rename ρ (Fields.rename id (Node.rename ρ)) := by
  induction keys generalizing properties with
  | nil => rfl
  | cons key keys ih =>
    have hscope : (s.rename ρ evaluate').context.insert (ρ binder) (.literal key) =
        Context.rename ρ (s.context.insert binder (.literal key)) := by
      rw [← insert_context_rename binder (.literal key), Node.literal_rename]
    rw [mappedProperties, mappedProperties, hscope]
    refine Outcome.bind_rename (propertyName_rename h _ key remap) fun name _ => ?_
    cases name with
    | none => exact ih properties
    | some name =>
      refine Outcome.bind_rename (Setting.instantiateIn_rename h _ body) fun type _ => ?_
      have hinsert : (properties.rename id (Node.rename ρ)).insert name (type.rename ρ) =
          (properties.insert name type).rename id (Node.rename ρ) :=
        Fields.insert_rename Function.injective_id properties name type
      rw [hinsert]
      exact ih _

theorem mappedType_rename (operands : List Node) :
    mappedType (s.rename ρ evaluate') (operands.map (Node.rename ρ)) =
      (mappedType s operands).rename ρ (Reduction.rename ρ) := by
  match operands with
  | [] => rfl
  | [_] => rfl
  | binder :: body :: rest =>
    have hmismatch : (s.rename ρ evaluate').mismatch .keyParameter (binder.rename ρ) =
        ((s.mismatch .keyParameter binder : Outcome Reduction)).rename ρ (Reduction.rename ρ) := rfl
    have harity : (s.rename ρ evaluate').wrongArity (.between 2 3) ((binder :: body :: rest).map (Node.rename ρ)) =
        ((s.wrongArity (.between 2 3) (binder :: body :: rest) : Outcome Reduction)).rename ρ (Reduction.rename ρ) :=
      Setting.wrongArity_rename _ _
    simp only [List.map_cons, mappedType, List.length_map]
    split
    · exact harity
    · rw [Node.kind_rename]
      cases binder.kind with
      | parameter key =>
        refine Outcome.bind_rename (Setting.instantiate_rename h key.constraint) fun source _ => ?_
        rw [keySpace_rename, Setting.templateLimit_rename, List.head?_map]
        cases keySpace s.templateLimit source with
        | finite keys =>
          refine Outcome.bind_rename (mappedProperties_rename h key.name body rest.head? [] keys) fun properties _ => ?_
          exact congrArg (fun n => Outcome.done (Reduction.done n)) (Node.rename_of ρ (.object properties)).symm
        | unbounded =>
          dsimp only
          rw [insert_context_rename]
          refine Outcome.bind_rename (Setting.instantiateIn_rename h _ body) fun type _ => ?_
          exact congrArg (fun n => Outcome.done (Reduction.done n)) (Node.rename_of ρ (.dictionary source type)).symm
        | unresolved =>
          refine congrArg (fun n => Outcome.done (Reduction.waiting (n :: body.rename ρ :: rest.map (Node.rename ρ)))) ?_
          exact (Node.rename_of ρ (.parameter { key with constraint := source })).symm
      | _ => exact hmismatch

/-! ## Inline modules -/

theorem inlineModule_rename (operands : List Node) (hfixed : DefinesFixed ρ .inlineModule operands) :
    inlineModule (s.rename ρ evaluate') (operands.map (Node.rename ρ)) =
      (inlineModule s operands).rename ρ (Reduction.rename ρ) := by
  match operands with
  | [] => rfl
  | n :: m :: more => exact Setting.wrongArity_rename _ (n :: m :: more)
  | [operand] =>
    have hmismatch : (s.rename ρ evaluate').mismatch .definitions (operand.rename ρ) =
        ((s.mismatch .definitions operand : Outcome Reduction)).rename ρ (Reduction.rename ρ) := rfl
    simp only [List.map_cons, List.map_nil, inlineModule]
    rw [Node.kind_rename]
    cases hkind : operand.kind with
    | object definitions =>
      have hnames := hfixed operand definitions rfl rfl hkind
      have hscope : (s.rename ρ evaluate').context.extend (Fields.rename id (Node.rename ρ) definitions) =
          Context.rename ρ (s.context.extend definitions) := by
        rw [← Fields.rename_of_fixed hnames]
        exact Fields.extend_rename ρ.injective s.context definitions
      have hmap : (Fields.names definitions).map ρ = Fields.names definitions :=
        (List.map_congr_left hnames).trans (List.map_id _)
      have hassembled := assemble_rename h (s.context.extend definitions) (Fields.names definitions)
      rw [hmap, ← hscope] at hassembled
      have hdefined : Fields.names (definitions.map fun e => (e.1, e.2.rename ρ)) = Fields.names definitions :=
        (Fields.names_rename id _).trans (List.map_id _)
      dsimp only [Kind.relabel, Kind.map]
      rw [hdefined]
      refine Outcome.bind_rename hassembled fun out hout => ?_
      have hfields : Context.rename ρ out = Fields.rename id (Node.rename ρ) out :=
        Fields.rename_of_fixed fun name hname => hnames name ((assemble_done hout).1 ▸ hname)
      rw [hfields]
      exact congrArg (fun n => Outcome.done (Reduction.done n)) (Node.rename_of ρ (.object out)).symm
    | _ => exact hmismatch

/-! ## Deferred operators -/

theorem reduceOperands_rename (hρ : Consistent ρ) (operands : List Node) (hfixed : DefinesFixed ρ s.operator operands) :
    reduceOperands (s.rename ρ evaluate') (operands.map (Node.rename ρ)) =
      (reduceOperands s operands).rename ρ (Reduction.rename ρ) := by
  unfold reduceOperands
  rw [Setting.operator_rename]
  cases hoperator : s.operator with
  | conditional => exact conditional_rename h operands
  | mapped => exact mappedType_rename h operands
  | inlineModule =>
    rw [hoperator] at hfixed
    exact inlineModule_rename h operands hfixed
  | _ =>
    refine Outcome.bind_rename (Outcome.mapM_rename fun n _ => Setting.instantiate_rename h n) fun operands _ => ?_
    refine Outcome.bind_rename (reduceEager_rename hρ h operands) fun result _ => ?_
    cases result <;> rfl

/-- **A deferred operator is reduced under other names.** -/
theorem reduce_rename (hρ : Consistent ρ) (origin : Node) (operands : List Node) (options : Annotations)
    (hfixed : DefinesFixed ρ s.operator operands) :
    reduce (s.rename ρ evaluate') (origin.rename ρ) (operands.map (Node.rename ρ)) options =
      (reduce s origin operands options).rename ρ (Node.rename ρ) := by
  have hcan : canReduce (s.rename ρ evaluate').context (s.rename ρ evaluate').operator (operands.map (Node.rename ρ)) =
      canReduce s.context s.operator operands := canReduce_rename s.context s.operator operands
  rw [reduce, reduce, hcan]
  split
  · refine Outcome.bind_rename (reduceOperands_rename h hρ operands hfixed) fun reduction _ => ?_
    cases reduction with
    | done result =>
      refine congrArg Outcome.done ?_
      rw [← Node.inherit_rename]
      obtain ⟨kind, modifiers, annotations⟩ := result.inherit origin
      rw [Node.rename_mk, Node.rename_mk]
    | waiting operands =>
      refine congrArg Outcome.done ?_
      obtain ⟨kind, modifiers, annotations⟩ := origin
      rw [Node.rename_mk]
      exact (Node.rename_mk ρ (.deferred s.operator operands options) modifiers annotations).symm
  · rfl

end
end Schemata
