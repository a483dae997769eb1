import Schemata.Proofs.Instantiation.Naming
import Schemata.Proofs.Operator.Renaming
/-!
# Reducers under other names

A setting is renamed with its context and its state, and given an evaluator that does under other names what the old one
does.  Then every reducer of operands that are instantiated already ends as before, renamed (`reduceEager_rename`).
-/
namespace Schemata

variable {ρ : Equiv.Perm String} {s : Setting} {evaluate' : Evaluator}

/-! ## Settings -/

/-- **A setting under other names**, with an evaluator for them. -/
def Setting.rename (ρ : String → String) (evaluate' : Evaluator) (s : Setting) : Setting where
  templateLimit := s.templateLimit
  evaluate := evaluate'
  context := s.context.rename ρ
  state := s.state.rename ρ
  operator := s.operator

theorem Outcome.collect?_rename {α β γ δ : Type} {f : α → β} {g : α → Outcome (Option γ)} {g' : β → Outcome (Option δ)}
    {k : γ → δ} {xs : List α} (hg : ∀ x ∈ xs, g' (f x) = (g x).rename ρ (Option.map k)) :
    collect? g' (xs.map f) = (collect? g xs).rename ρ (Option.map (List.map k)) := by
  induction xs with
  | nil => rfl
  | cons x xs ih =>
    rw [List.forall_mem_cons] at hg
    rw [List.map_cons, collect?, collect?]
    refine bind_rename hg.1 fun y _ => ?_
    cases y with
    | none => rfl
    | some y => exact bind_rename (ih hg.2) fun ys _ => by cases ys <;> rfl

/-- A reducer that is done with a node. -/
theorem Outcome.some_rename {n m : Node} (h : m = n.rename ρ) :
    Outcome.done (some m) = (Outcome.done (some n)).rename ρ (Option.map (Node.rename ρ)) := by
  rw [h]
  rfl

/-- The nodes that a list of nodes is reduced to, joined. -/
theorem Outcome.joined_rename {f f' : Node → Outcome (Option Node)} {join : List Node → Node} {ns : List Node}
    (hf : ∀ n ∈ ns, f' (n.rename ρ) = (f n).rename ρ (Option.map (Node.rename ρ)))
    (hjoin : ∀ ms, join (ms.map (Node.rename ρ)) = (join ms).rename ρ) :
    (collect? f' (ns.map (Node.rename ρ)) >>= fun reduced => .done (reduced.map join)) =
      (collect? f ns >>= fun reduced => .done (reduced.map join)).rename ρ (Option.map (Node.rename ρ)) := by
  refine bind_rename (collect?_rename hf) fun reduced _ => congrArg Outcome.done ?_
  rw [Option.map_map, Option.map_map]
  exact congrArg (Option.map · reduced) (funext hjoin)

namespace Setting

@[simp] theorem templateLimit_rename : (s.rename ρ evaluate').templateLimit = s.templateLimit := rfl

@[simp] theorem operator_rename : (s.rename ρ evaluate').operator = s.operator := rfl

@[simp] theorem context_rename : (s.rename ρ evaluate').context = s.context.rename ρ := rfl

theorem wrongArity_rename {α β : Type} {k : α → β} (expected : Arity) (operands : List Node) :
    (s.rename ρ evaluate').wrongArity expected (operands.map (Node.rename ρ)) =
      (s.wrongArity expected operands).rename ρ k :=
  congrArg (fun length => Outcome.failed (.invalidArity s.operator expected length)) (List.length_map _)

/-- A reducer of one operand. -/
theorem unary_rename {f f' : Node → Outcome (Option Node)} (operands : List Node)
    (hf : ∀ n, f' (n.rename ρ) = (f n).rename ρ (Option.map (Node.rename ρ))) :
    (match operands.map (Node.rename ρ) with
      | [n] => f' n
      | operands => (s.rename ρ evaluate').wrongArity (.exactly 1) operands) =
    Outcome.rename ρ (Option.map (Node.rename ρ)) (match operands with
      | [n] => f n
      | operands => s.wrongArity (.exactly 1) operands) := by
  match operands with
  | [n] => exact hf n
  | [] => exact wrongArity_rename _ []
  | n :: m :: more => exact wrongArity_rename _ (n :: m :: more)

/-- A reducer of two operands. -/
theorem binary_rename {f f' : Node → Node → Outcome (Option Node)} (operands : List Node)
    (hf : ∀ n m, f' (n.rename ρ) (m.rename ρ) = (f n m).rename ρ (Option.map (Node.rename ρ))) :
    (match operands.map (Node.rename ρ) with
      | [n, m] => f' n m
      | operands => (s.rename ρ evaluate').wrongArity (.exactly 2) operands) =
    Outcome.rename ρ (Option.map (Node.rename ρ)) (match operands with
      | [n, m] => f n m
      | operands => s.wrongArity (.exactly 2) operands) := by
  match operands with
  | [n, m] => exact hf n m
  | [] => exact wrongArity_rename _ []
  | [n] => exact wrongArity_rename _ [n]
  | n :: m :: o :: more => exact wrongArity_rename _ (n :: m :: o :: more)

theorem bundled_rename (hρ : Consistent ρ) (definitions : Fields Node) (root : String) (result : Node) :
    (s.rename ρ evaluate').bundled (definitions.rename ρ (Node.rename ρ)) (ρ root) (result.rename ρ) =
      (s.bundled definitions root result).rename ρ := by
  have hany : (result.rename ρ).references.any (definitions.rename ρ (Node.rename ρ)).has =
      result.references.any definitions.has := by
    rw [Node.references_rename, List.any_map]
    exact congrArg (List.any _) (funext fun name => Fields.has_rename definitions name)
  rw [bundled, bundled, hany]
  split
  · rw [Node.cyclic, Node.cyclic, Node.rename_of, Setting.operator_rename,
      ← hρ.bundle, Fields.insert_rename ρ.injective]
    rfl
  · rfl

section
variable (h : s.evaluate.Renames ρ evaluate')
include h

theorem instantiate_rename (n : Node) :
    (s.rename ρ evaluate').instantiate (n.rename ρ) = (s.instantiate n).rename ρ (Node.rename ρ) :=
  h s.context s.state n

theorem instantiateIn_rename (context : Context) (n : Node) :
    (s.rename ρ evaluate').instantiateIn (context.rename ρ) (n.rename ρ) =
      (s.instantiateIn context n).rename ρ (Node.rename ρ) :=
  h context s.state n

theorem subject_rename (n : Node) :
    (s.rename ρ evaluate').subject (n.rename ρ) = (s.subject n).rename ρ (Node.rename ρ) := by
  have hinherit := fun m => (Node.inherit_rename (ρ := ρ) m n).symm
  unfold subject
  rw [Node.kind_rename]
  cases n.kind with
  | ref name =>
    dsimp only [Kind.relabel]
    rw [context_rename, Context.get?_rename]
    cases s.context.get? name with
    | none => rfl
    | some target =>
      exact Outcome.bind_rename (packageDefinition_rename h s.context name target) fun m _ =>
        congrArg Outcome.done (hinherit m)
  | _ => rfl

end

/-! ## Opening a subject -/

section
variable {join : List Node → Node} {leaf leaf' follow follow' : Node → Outcome (Option Node)}

theorem openRoot_rename {definitions : List (String × Node)} (root : String)
    (hparts : ∀ n ∈ definitions.map Prod.snd, (s.rename ρ evaluate').openNode join leaf' follow' (n.rename ρ) =
      (s.openNode join leaf follow n).rename ρ (Option.map (Node.rename ρ))) :
    (s.rename ρ evaluate').openRoot join leaf' follow' (ρ root) (definitions.map fun e => (ρ e.1, e.2.rename ρ)) =
      (s.openRoot join leaf follow root definitions).rename ρ (Option.map (Node.rename ρ)) := by
  induction definitions with
  | nil => rfl
  | cons e rest ih =>
    obtain ⟨name, n⟩ := e
    rw [List.map_cons, List.forall_mem_cons] at hparts
    rw [List.map_cons, openRoot, openRoot]
    by_cases hname : name = root
    · rw [if_pos hname, if_pos (congrArg ρ hname)]
      exact hparts.1
    · rw [if_neg hname, if_neg fun he => hname (ρ.injective he)]
      exact ih hparts.2

variable (hρ : Consistent ρ) (hjoin : ∀ ns, join (ns.map (Node.rename ρ)) = (join ns).rename ρ)
  (hleaf : ∀ n, leaf' (n.rename ρ) = (leaf n).rename ρ (Option.map (Node.rename ρ)))
include hρ hjoin hleaf

theorem openNode_rename (hfollow : ∀ n, follow' (n.rename ρ) = (follow n).rename ρ (Option.map (Node.rename ρ)))
    (n : Node) : (s.rename ρ evaluate').openNode join leaf' follow' (n.rename ρ) =
      (s.openNode join leaf follow n).rename ρ (Option.map (Node.rename ρ)) := by
  induction n using Node.induction_on_parts with
  | node n ih =>
    have hleaf := hleaf n
    have hfollow := hfollow n
    obtain ⟨kind, modifiers, annotations⟩ := n
    rw [Node.rename_mk] at hleaf hfollow ⊢
    cases kind with
    | union variants =>
      simp only [Kind.relabel, Kind.map, openNode, openEach_eq_collect?]
      exact Outcome.joined_rename ih hjoin
    | cyclic definitions root =>
      simp only [Kind.relabel, openNode]
      refine Outcome.bind_rename (openRoot_rename root ih) fun opened _ => congrArg Outcome.done ?_
      rw [Option.map_map, Option.map_map]
      exact congrArg (Option.map · opened) (funext fun n => bundled_rename hρ definitions root n)
    | ref name => exact hfollow
    | _ => exact hleaf

/-- **A subject is opened under other names.** -/
theorem openSubject_rename (h : s.evaluate.Renames ρ evaluate') (n : Node) :
    (s.rename ρ evaluate').openSubject join leaf' (n.rename ρ) =
      (s.openSubject join leaf n).rename ρ (Option.map (Node.rename ρ)) := by
  suffices hwithin : ∀ follows n, (s.rename ρ evaluate').openWithin join leaf' follows (n.rename ρ) =
      (s.openWithin join leaf follows n).rename ρ (Option.map (Node.rename ρ)) by
    have hlength : (s.rename ρ evaluate').context.length = s.context.length := Fields.length_rename ρ s.context
    rw [openSubject, openSubject, hlength]
    exact hwithin (s.context.length + 1) n
  intro follows
  induction follows with
  | zero => exact fun _ => rfl
  | succ follows ih =>
    refine openNode_rename hρ hjoin hleaf fun reference => ?_
    refine Outcome.bind_rename (subject_rename h reference) fun subject _ => ?_
    have hleaf := hleaf subject
    have ih := ih subject
    rw [Node.kind_rename]
    cases subject.kind with
    | ref name => exact hleaf
    | _ => exact ih

end
end Setting

/-! ## Properties and keys -/

theorem literalKeysAll_rename {ns : List Node}
    (hkeys : ∀ n ∈ ns, literalKeys (s.rename ρ evaluate') (n.rename ρ) = (literalKeys s n).rename ρ id) :
    literalKeysAll (s.rename ρ evaluate') (ns.map (Node.rename ρ)) = (literalKeysAll s ns).rename ρ id := by
  induction ns with
  | nil => rfl
  | cons n ns ih =>
    rw [List.forall_mem_cons] at hkeys
    rw [List.map_cons, literalKeysAll, literalKeysAll]
    refine Outcome.bind_rename hkeys.1 fun names _ => ?_
    cases names with
    | none => rfl
    | some names => exact Outcome.bind_rename (ih hkeys.2) fun _ _ => rfl

theorem literalKeys_rename (n : Node) :
    literalKeys (s.rename ρ evaluate') (n.rename ρ) = (literalKeys s n).rename ρ id := by
  induction n using Node.induction_on_parts with
  | node n ih =>
    have hmismatch : ∀ expected, (s.rename ρ evaluate').mismatch expected (n.rename ρ) =
        ((s.mismatch expected n : Outcome (Option (List String)))).rename ρ id := fun _ => rfl
    obtain ⟨kind, modifiers, annotations⟩ := n
    rw [Node.rename_mk] at hmismatch ⊢
    cases kind with
    | union variants => exact literalKeysAll_rename ih
    | primitive p => cases p <;> first | rfl | exact hmismatch _
    | literal | ref | call | deferred | parameter => rfl
    | templatePattern fragments =>
      simp only [Kind.relabel, Kind.map, literalKeys, expand_rename,
        Setting.templateLimit_rename]
      cases expand s.templateLimit fragments with
      | finite | unresolved => rfl
      | unbounded => exact hmismatch _
    | _ => exact hmismatch _

theorem changeLeaf_rename {change : Fields Node → Fields Node}
    (hchange : ∀ fields : Fields Node, change (fields.rename id (Node.rename ρ)) = (change fields).rename id (Node.rename ρ))
    (n : Node) : changeLeaf (s.rename ρ evaluate') change (n.rename ρ) =
      (changeLeaf s change n).rename ρ (Option.map (Node.rename ρ)) := by
  unfold changeLeaf
  rw [Node.kind_rename, collapse_rename]
  cases collapse n with
  | properties fields =>
    have hchanged : Node.of (.object (change (fields.rename id (Node.rename ρ)))) =
        (Node.of (.object (change fields))).rename ρ := by
      rw [hchange]
      exact (Node.rename_of ρ (.object _)).symm
    cases n.kind with
    | primitive p => cases p <;> first | rfl | exact Outcome.some_rename hchanged
    | _ => exact Outcome.some_rename hchanged
  | unresolved | notObject =>
    cases n.kind with
    | primitive p => cases p <;> rfl
    | _ => rfl

theorem evaluateLeaf_rename (n : Node) :
    evaluateLeaf (n.rename ρ) = (evaluateLeaf n).rename ρ (Option.map (Node.rename ρ)) := by
  have hstay : (if (n.rename ρ).isUnresolved then pure none else pure (some (n.rename ρ)) : Outcome (Option Node)) =
      Outcome.rename ρ (Option.map (Node.rename ρ)) (if n.isUnresolved then pure none else pure (some n)) := by
    rw [Node.isUnresolved_rename]
    split <;> rfl
  unfold evaluateLeaf
  rw [Node.kind_rename, collapse_rename]
  cases n.kind with
  | intersect members =>
    dsimp only [Kind.relabel, Kind.map]
    cases collapse n with
    | properties fields => exact Outcome.some_rename (Node.rename_of ρ (.object fields)).symm
    | unresolved => rfl
    | notObject => rfl
  | _ => exact hstay

theorem keysLeaf_rename (n : Node) : keysLeaf (n.rename ρ) = (keysLeaf n).rename ρ (Option.map (Node.rename ρ)) := by
  have htexts : ∀ fields : Fields Node, Node.unionOf ((fields.rename id (Node.rename ρ)).names.map Node.text) =
      (Node.unionOf (fields.names.map Node.text)).rename ρ := by
    intro fields
    rw [Fields.names_rename, List.map_id]
    exact (Node.unionOf_literals_rename Literal.string fields.names).symm
  have hnames : Node.rename ρ (.union [.string, .number, .symbol]) = .union [.string, .number, .symbol] := by
    rw [Node.union, Node.rename_of]
    simp [Kind.relabel, Kind.map, Node.string, Node.number, Node.symbol]
  unfold keysLeaf
  rw [Node.kind_rename, collapse_rename]
  cases n.kind with
  | primitive p =>
    cases p with
    | any | never => exact Outcome.some_rename hnames.symm
    | _ =>
      cases collapse n with
      | properties fields => exact Outcome.some_rename (htexts fields)
      | unresolved => rfl
      | notObject => exact Outcome.some_rename (Node.primitive_rename ρ .never).symm
  | dictionary key value => rfl
  | array item => exact Outcome.some_rename (Node.primitive_rename ρ .number).symm
  | tuple items rest =>
    cases rest with
    | true => exact Outcome.some_rename (Node.primitive_rename ρ .number).symm
    | false =>
      dsimp only [Kind.relabel, Kind.map]
      rw [List.length_map]
      exact congrArg (fun m => Outcome.done (some m))
        (Node.unionOf_literals_rename (fun i => Literal.number (.ofNat i)) (List.range items.length)).symm
  | _ =>
    cases collapse n with
    | properties fields => exact Outcome.some_rename (htexts fields)
    | unresolved => rfl
    | notObject => exact Outcome.some_rename (Node.primitive_rename ρ .never).symm

theorem recordOf_rename (operands : List Node) :
    recordOf (s.rename ρ evaluate') (operands.map (Node.rename ρ)) =
      (recordOf s operands).rename ρ (Option.map (Node.rename ρ)) := by
  refine Setting.binary_rename operands fun key value => ?_
  rw [keySpace_rename, Setting.templateLimit_rename]
  cases keySpace s.templateLimit key with
  | finite keys =>
    refine Outcome.some_rename ?_
    rw [Node.object_rename]
    exact congrArg Node.object (by simp [Fields.rename])
  | unbounded => exact Outcome.some_rename (Node.rename_of ρ (.dictionary key value)).symm
  | unresolved => rfl

section
variable (hρ : Consistent ρ) (h : s.evaluate.Renames ρ evaluate')
include hρ h

theorem changeProperties_rename {change : Fields Node → Fields Node}
    (hchange : ∀ fields : Fields Node, change (fields.rename id (Node.rename ρ)) = (change fields).rename id (Node.rename ρ))
    (subject : Node) : changeProperties (s.rename ρ evaluate') change (subject.rename ρ) =
      (changeProperties s change subject).rename ρ (Option.map (Node.rename ρ)) :=
  Setting.openSubject_rename hρ Node.unionOf_rename (changeLeaf_rename hchange) h subject

theorem selectProperties_rename (keep : Bool) (operands : List Node) :
    selectProperties (s.rename ρ evaluate') keep (operands.map (Node.rename ρ)) =
      (selectProperties s keep operands).rename ρ (Option.map (Node.rename ρ)) := by
  refine Setting.binary_rename operands fun subject keys => ?_
  refine Outcome.bind_rename (literalKeys_rename keys) fun names _ => ?_
  cases names with
  | none => rfl
  | some names =>
    refine changeProperties_rename hρ h (fun fields => ?_) subject
    rw [Fields.rename, Fields.rename, List.filter_map]
    rfl

theorem changeModifiers_rename (change : Modifiers → Modifiers) (operands : List Node) :
    changeModifiers (s.rename ρ evaluate') change (operands.map (Node.rename ρ)) =
      (changeModifiers s change operands).rename ρ (Option.map (Node.rename ρ)) := by
  refine Setting.unary_rename operands fun subject => changeProperties_rename hρ h (fun fields => ?_) subject
  simp [Fields.mapValues, Fields.rename, Node.withModifiers_rename]

theorem keyDomain_rename (operands : List Node) :
    keyDomain (s.rename ρ evaluate') (operands.map (Node.rename ρ)) =
      (keyDomain s operands).rename ρ (Option.map (Node.rename ρ)) :=
  Setting.unary_rename operands (Setting.openSubject_rename hρ commonKeys_rename keysLeaf_rename h)

theorem evaluateShape_rename (operands : List Node) :
    evaluateShape (s.rename ρ evaluate') (operands.map (Node.rename ρ)) =
      (evaluateShape s operands).rename ρ (Option.map (Node.rename ρ)) :=
  Setting.unary_rename operands (Setting.openSubject_rename hρ Node.unionOf_rename evaluateLeaf_rename h)

end

/-! ## Interfaces and access -/

theorem heritageProperties_rename (h : s.evaluate.Renames ρ evaluate') (operand : Node) :
    heritageProperties (s.rename ρ evaluate') (operand.rename ρ) =
      (heritageProperties s operand).rename ρ (Option.map fun fields => fields.rename id (Node.rename ρ)) := by
  refine Outcome.bind_rename (Setting.subject_rename h operand) fun subject _ => ?_
  rw [Node.kind_rename, collapse_rename]
  cases subject.kind with
  | cyclic definitions root =>
    dsimp only [Kind.relabel]
    have hget : (Fields.get? (definitions.map fun e => (ρ e.1, e.2.rename ρ)) (ρ root)).map collapse =
        ((Fields.get? definitions root).map collapse).map (Collapse.rename ρ) := by
      have := Fields.get?_rename (f := Node.rename ρ) ρ.injective definitions root
      rw [Fields.rename] at this
      rw [this, Option.map_map, Option.map_map]
      exact congrArg (Option.map · _) (funext collapse_rename)
    rw [hget]
    cases (Fields.get? definitions root).map collapse with
    | none => rfl
    | some c => cases c <;> rfl
  | _ => cases collapse subject <;> rfl

theorem foldl_extend_rename (heritage : List (Fields Node)) (fields : Fields Node) :
    (heritage.map fun fs => Fields.rename id (Node.rename ρ) fs).foldl Fields.extend (fields.rename id (Node.rename ρ)) =
      (heritage.foldl Fields.extend fields).rename id (Node.rename ρ) := by
  induction heritage generalizing fields with
  | nil => rfl
  | cons fs heritage ih =>
    rw [List.map_cons, List.foldl_cons, List.foldl_cons, Fields.extend_rename Function.injective_id]
    exact ih _

theorem interfaceOf_rename (h : s.evaluate.Renames ρ evaluate') (operands : List Node) :
    interfaceOf (s.rename ρ evaluate') (operands.map (Node.rename ρ)) =
      (interfaceOf s operands).rename ρ (Option.map (Node.rename ρ)) := by
  cases operands with
  | nil => rfl
  | cons operand operands =>
    refine Outcome.bind_rename (Outcome.collect?_rename fun n _ => heritageProperties_rename h n) fun heritage _ => ?_
    cases heritage with
    | none => rfl
    | some heritage =>
      refine Outcome.some_rename (Eq.trans ?_ (Node.rename_of ρ (.object _)).symm)
      exact congrArg (fun fields => Node.of (.object fields)) (foldl_extend_rename heritage [])

theorem tupleAccess_rename (items : List Node) (rest : Bool) (key : Node) :
    tupleAccess (s.rename ρ evaluate') (items.map (Node.rename ρ)) rest (key.rename ρ) =
      (tupleAccess s items rest key).rename ρ (Option.map (Node.rename ρ)) := by
  have hnumeric : (if isNumericKey (key.rename ρ) then
          pure (some (.unionOf (elementTypes rest (items.map (Node.rename ρ)))))
        else (s.rename ρ evaluate').mismatch .numericIndex (key.rename ρ) : Outcome (Option Node)) =
      Outcome.rename ρ (Option.map (Node.rename ρ))
        (if isNumericKey key then pure (some (.unionOf (elementTypes rest items))) else s.mismatch .numericIndex key) := by
    rw [isNumericKey_rename, elementTypes_rename, Node.unionOf_rename]
    split <;> rfl
  rw [tupleAccess, tupleAccess, index?_rename]
  cases key.index? with
  | none => exact hnumeric
  | some index =>
    dsimp only
    rw [elementAt?_rename]
    cases elementAt? items rest index <;> rfl

theorem propertyTypes_rename (properties : Fields Node) (key : Node) (names : List String) :
    propertyTypes (s.rename ρ evaluate') (properties.rename id (Node.rename ρ)) (key.rename ρ) names =
      (propertyTypes s properties key names).rename ρ (List.map (Node.rename ρ)) := by
  induction names with
  | nil => rfl
  | cons name names ih =>
    have hget : (properties.rename id (Node.rename ρ)).get? name = (properties.get? name).map (Node.rename ρ) :=
      Fields.get?_rename Function.injective_id properties name
    rw [propertyTypes, propertyTypes, hget]
    cases properties.get? name with
    | none => rfl
    | some n =>
      refine Outcome.bind_rename ih fun types _ => congrArg Outcome.done ?_
      rw [List.map_cons, Node.bare_rename]

theorem propertyAccess_rename (n key : Node) :
    propertyAccess (s.rename ρ evaluate') (n.rename ρ) (key.rename ρ) =
      (propertyAccess s n key).rename ρ (Option.map (Node.rename ρ)) := by
  rw [propertyAccess, propertyAccess, collapse_rename]
  cases collapse n with
  | properties fields =>
    refine Outcome.bind_rename (literalKeys_rename key) fun names _ => ?_
    cases names with
    | none => rfl
    | some names =>
      refine Outcome.bind_rename (propertyTypes_rename fields key names) fun types _ => ?_
      exact Outcome.some_rename (Node.unionOf_rename types)
  | unresolved => rfl
  | notObject => rfl

theorem indexLeaf_rename (key n : Node) :
    indexLeaf (s.rename ρ evaluate') (key.rename ρ) (n.rename ρ) =
      (indexLeaf s key n).rename ρ (Option.map (Node.rename ρ)) := by
  have hproperty : propertyAccess (s.rename ρ evaluate') (n.rename ρ) (key.rename ρ) =
      (propertyAccess s n key).rename ρ (Option.map (Node.rename ρ)) := propertyAccess_rename n key
  unfold indexLeaf
  rw [Node.kind_rename]
  cases n.kind with
  | primitive p =>
    cases p with
    | any | never => exact Outcome.some_rename (Node.primitive_rename ρ _).symm
    | _ => exact hproperty
  | dictionary key value => rfl
  | array item =>
    dsimp only [Kind.relabel, Kind.map]
    rw [isNumericKey_rename]
    split
    · rfl
    · exact hproperty
  | tuple items rest => exact tupleAccess_rename items rest key
  | _ => exact hproperty

theorem indexBy_rename (hρ : Consistent ρ) (h : s.evaluate.Renames ρ evaluate') (subject key : Node) :
    indexBy (s.rename ρ evaluate') (subject.rename ρ) (key.rename ρ) =
      (indexBy s subject key).rename ρ (Option.map (Node.rename ρ)) := by
  induction key using Node.induction_on_parts with
  | node key ih =>
    have hleaf : ∀ n, indexLeaf (s.rename ρ evaluate') (key.rename ρ) (n.rename ρ) =
        (indexLeaf s key n).rename ρ (Option.map (Node.rename ρ)) := indexLeaf_rename key
    have hopened := Setting.openSubject_rename hρ Node.unionOf_rename hleaf h subject
    obtain ⟨kind, modifiers, annotations⟩ := key
    rw [Node.rename_mk] at hopened ⊢
    cases kind with
    | union keys =>
      simp only [Kind.relabel, Kind.map, indexBy, indexByEach_eq_collect?]
      exact Outcome.joined_rename ih Node.unionOf_rename
    | ref | call | deferred | parameter => rfl
    | _ => exact hopened

/-! ## Unions, signatures and texts -/

theorem filterBranches_rename (keep : Bool) (operands : List Node) :
    filterBranches (s.rename ρ evaluate') keep (operands.map (Node.rename ρ)) =
      (filterBranches s keep operands).rename ρ (Option.map (Node.rename ρ)) := by
  refine Setting.binary_rename operands fun left right => ?_
  have hconcrete : Node.isConcrete ∘ Node.rename ρ = Node.isConcrete := funext Node.isConcrete_rename
  dsimp only
  rw [Node.isConcrete_rename, branches_rename, List.all_map, hconcrete]
  split
  · refine Outcome.some_rename ?_
    rw [← Node.unionOf_rename, List.filter_map]
    refine congrArg Node.unionOf (congrArg (List.map _) (List.filter_congr fun branch _ => ?_))
    rw [Function.comp, fits_rename_both]
  · rfl

theorem nonNullable_rename (operands : List Node) :
    nonNullable (s.rename ρ evaluate') (operands.map (Node.rename ρ)) =
      (nonNullable s operands).rename ρ (Option.map (Node.rename ρ)) := by
  refine Setting.unary_rename operands fun subject => ?_
  rw [Node.isUnresolved_rename, variantsOf_rename]
  split
  · rfl
  · refine Outcome.some_rename ?_
    rw [← Node.unionOf_rename, List.filter_map]
    refine congrArg Node.unionOf (congrArg (List.map _) (List.filter_congr fun n _ => ?_))
    rw [Function.comp, Node.isPrimitive_rename, Node.isPrimitive_rename]

theorem signaturePart_rename (part : SignaturePart) (n : Node) :
    signaturePart (s.rename ρ evaluate') part (n.rename ρ) =
      (signaturePart s part n).rename ρ (Option.map (Node.rename ρ)) := by
  induction n using Node.induction_on_parts with
  | node n ih =>
    have hmissing : (if (n.rename ρ).isUnresolved then pure none
          else (s.rename ρ evaluate').mismatch part.expectation (n.rename ρ) : Outcome (Option Node)) =
        Outcome.rename ρ (Option.map (Node.rename ρ))
          (if n.isUnresolved then pure none else s.mismatch part.expectation n) := by
      rw [Node.isUnresolved_rename]
      split <;> rfl
    have htuple : ∀ ns : List Node, Node.tuple (ns.map (Node.rename ρ)) = (Node.tuple ns).rename ρ := fun ns =>
      (Node.rename_of ρ (.tuple ns false)).symm
    obtain ⟨kind, modifiers, annotations⟩ := n
    rw [Node.rename_mk] at hmissing ⊢
    cases kind with
    | union variants =>
      simp only [Kind.relabel, Kind.map, signaturePart, signaturePartEach_eq_collect?]
      exact Outcome.joined_rename ih Node.unionOf_rename
    | primitive p =>
      cases p with
      | any | never => exact Outcome.some_rename (Node.primitive_rename ρ _).symm
      | _ => cases part <;> exact hmissing
    | function parameters returns =>
      cases part with
      | returned => rfl
      | taken => exact Outcome.some_rename (htuple parameters)
      | created | takenByConstructor => exact hmissing
    | constructor parameters product =>
      cases part with
      | created => rfl
      | takenByConstructor => exact Outcome.some_rename (htuple parameters)
      | returned | taken => exact hmissing
    | _ => cases part <;> exact hmissing

theorem changeCase_rename (letterCase : LetterCase) (n : Node) :
    changeCase (s.rename ρ evaluate') letterCase (n.rename ρ) =
      (changeCase s letterCase n).rename ρ (Option.map (Node.rename ρ)) := by
  induction n using Node.induction_on_parts with
  | node n ih =>
    have hmismatch : ∀ expected, (s.rename ρ evaluate').mismatch expected (n.rename ρ) =
        ((s.mismatch expected n : Outcome (Option Node))).rename ρ (Option.map (Node.rename ρ)) := fun _ => rfl
    obtain ⟨kind, modifiers, annotations⟩ := n
    rw [Node.rename_mk] at hmismatch ⊢
    cases kind with
    | union variants =>
      simp only [Kind.relabel, Kind.map, changeCase, changeCaseEach_eq_collect?]
      exact Outcome.joined_rename ih Node.unionOf_rename
    | literal l =>
      cases l with
      | string text => exact Outcome.some_rename (Node.literal_rename ρ _).symm
      | _ => exact hmismatch _
    | primitive p =>
      cases p with
      | string | any | never => exact Outcome.some_rename (Node.rename_mk ρ (.primitive _) _ _).symm
      | _ => exact hmismatch _
    | templatePattern fragments =>
      refine Outcome.some_rename (Eq.trans ?_ (Node.rename_of ρ (.templatePattern _)).symm)
      exact congrArg Node.templatePattern (letterCase.inPattern_rename fragments)
    | ref | call | deferred | parameter => rfl
    | _ => exact hmismatch _

theorem templateTexts_rename (fragments : List Node) :
    templateTexts (s.rename ρ evaluate') (fragments.map (Node.rename ρ)) =
      (templateTexts s fragments).rename ρ (Option.map (Node.rename ρ)) := by
  rw [templateTexts, templateTexts, expand_rename, Setting.templateLimit_rename]
  cases expand s.templateLimit fragments with
  | finite texts => exact Outcome.some_rename (Node.unionOf_literals_rename Literal.string texts).symm
  | unbounded => exact Outcome.some_rename (Node.rename_of ρ (.templatePattern fragments)).symm
  | unresolved => rfl

/-! ## All of them -/

/-- **Reducers of instantiated operands, under other names.** -/
theorem reduceEager_rename (hρ : Consistent ρ) (h : s.evaluate.Renames ρ evaluate') (operands : List Node) :
    reduceEager (s.rename ρ evaluate') (operands.map (Node.rename ρ)) =
      (reduceEager s operands).rename ρ (Option.map (Node.rename ρ)) := by
  unfold reduceEager
  rw [Setting.operator_rename]
  match s.operator with
  | .pick => exact selectProperties_rename hρ h true operands
  | .omit => exact selectProperties_rename hρ h false operands
  | .allOptional | .allRequired | .allReadonly | .allWritable => exact changeModifiers_rename hρ h _ operands
  | .keyOf => exact keyDomain_rename hρ h operands
  | .index => exact Setting.binary_rename operands (indexBy_rename hρ h)
  | .evaluate => exact evaluateShape_rename hρ h operands
  | .interface => exact interfaceOf_rename h operands
  | .exclude => exact filterBranches_rename false operands
  | .extract => exact filterBranches_rename true operands
  | .nonNullable => exact nonNullable_rename operands
  | .awaited =>
    exact Setting.unary_rename operands fun subject => congrArg Outcome.done (unwrapPromise_rename subject)
  | .returnType | .parameters | .constructorParameters | .instanceType =>
    exact Setting.unary_rename operands (signaturePart_rename _)
  | .uppercase | .lowercase | .capitalize | .uncapitalize => exact Setting.unary_rename operands (changeCase_rename _)
  | .templateLiteral => exact templateTexts_rename operands
  | .record => exact recordOf_rename operands
  | .conditional | .mapped | .inlineModule => rfl

end Schemata
