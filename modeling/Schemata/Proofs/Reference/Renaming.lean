import Schemata.Instantiation.Substitution
import Schemata.Proofs.Node.Renaming
import Schemata.Reference.Cycle
import Schemata.Reference.Graph
/-!
# References under other names

What is looked up by name is found under other names just as well, once all names are changed by one permutation: the
fields of a context, the references of a node, what a substitution binds, where a chain of references leads, and what a
name reaches.
-/
namespace Schemata

variable {ρ : Equiv.Perm String}

/-! ## Lists of names -/

theorem beq_map (a b : String) : (ρ a == ρ b) = (a == b) := by
  rw [Bool.eq_iff_iff, beq_iff_eq, beq_iff_eq, ρ.injective.eq_iff]

theorem bne_map (a b : String) : (ρ a != ρ b) = (a != b) := congrArg not (beq_map a b)

theorem contains_map (names : List String) (name : String) : (names.map ρ).contains (ρ name) = names.contains name := by
  rw [Bool.eq_iff_iff, List.contains_iff_mem, List.contains_iff_mem]
  exact List.mem_map_of_injective ρ.injective

/-- What keeps equality keeps first occurrences. -/
theorem distinct_map {α β : Type} [BEq α] [BEq β] {f : α → β} (hf : ∀ x y, (f x == f y) = (x == y)) (xs : List α) :
    distinct (xs.map f) = (distinct xs).map f := by
  suffices h : ∀ seen, distinctFrom (seen.map f) (xs.map f) = (distinctFrom seen xs).map f from h []
  induction xs with
  | nil => exact fun _ => rfl
  | cons x xs ih =>
    intro seen
    have hany : ((seen.map f).any (· == f x)) = seen.any (· == x) := by simp [List.any_map, Function.comp_def, hf]
    rw [List.map_cons, distinctFrom, distinctFrom, hany]
    split
    · exact ih seen
    · exact congrArg _ (ih (x :: seen))

theorem distinct_names (names : List String) : distinct (names.map ρ) = (distinct names).map ρ :=
  distinct_map beq_map names

/-! ## Fields -/

namespace Fields

variable {α β : Type} {f : α → β}

theorem length_rename (ρ : String → String) (fields : Fields α) : (fields.rename ρ f).length = fields.length :=
  List.length_map _

theorem names_rename (ρ : String → String) (fields : Fields α) : (fields.rename ρ f).names = fields.names.map ρ := by
  simp [names, rename]

theorem values_rename (ρ : String → String) (fields : Fields α) : (fields.rename ρ f).values = fields.values.map f := by
  simp [values, rename]

theorem insert_rename {ρ : String → String} (hρ : ρ.Injective) (fields : Fields α) (name : String) (value : α) :
    (fields.rename ρ f).insert (ρ name) (f value) = (fields.insert name value).rename ρ f := by
  induction fields with
  | nil => rfl
  | cons e rest ih =>
    obtain ⟨old, kept⟩ := e
    by_cases h : old = name
    · simp [insert, rename, h]
    · have hne : ρ old ≠ ρ name := fun he => h (hρ he)
      simp only [rename] at ih
      simp [insert, rename, h, hne, ih]

theorem extend_rename {ρ : String → String} (hρ : ρ.Injective) (fields upper : Fields α) :
    (fields.rename ρ f).extend (upper.rename ρ f) = (fields.extend upper).rename ρ f := by
  induction upper generalizing fields with
  | nil => rfl
  | cons e upper ih =>
    obtain ⟨name, value⟩ := e
    have hinsert := insert_rename (f := f) hρ fields name value
    simp only [extend, rename] at ih hinsert ⊢
    rw [List.map_cons, List.foldl_cons, List.foldl_cons, hinsert]
    exact ih (fields.insert name value)

theorem ofList_rename {ρ : String → String} (hρ : ρ.Injective) (entries : List (String × α)) :
    ofList (Fields.rename ρ f entries) = (ofList entries).rename ρ f :=
  extend_rename hρ [] entries

theorem has_rename (fields : Fields α) (name : String) : (fields.rename ρ f).has (ρ name) = fields.has name := by
  rw [has, get?_rename ρ.injective, Option.isSome_map, has]

theorem without_rename (fields : Fields α) (hidden : List String) :
    (fields.rename ρ f).without (hidden.map ρ) = (fields.without hidden).rename ρ f := by
  simp only [without, rename, List.filter_map, Function.comp_def, contains_map]

end Fields

/-- **A context under other names.** -/
def Context.rename (ρ : String → String) (context : Context) : Context := Fields.rename ρ (Node.rename ρ) context

/-! ## References -/

namespace Kind

variable {α β : Type}

theorem parts_relabel (ρ : String → String) (f : α → β) (kind : Kind α) : (kind.relabel ρ f).parts = kind.parts.map f := by
  cases kind <;> simp [parts, relabel, map, Parameter.parts, List.flatMap_map, List.map_flatMap]

theorem children_relabel (f : α → β) (kind : Kind α) : (kind.relabel ρ f).children = kind.children.map f := by
  cases kind <;>
    simp [children, parts, relabel, map, Parameter.parts, List.flatMap_map, List.map_flatMap]

theorem declared_relabel (f : α → β) (kind : Kind α) : (kind.relabel ρ f).declared = kind.declared.map ρ := by
  cases kind <;> simp [declared, relabel, map, Function.comp_def]

end Kind

namespace Node

theorem children_rename (n : Node) : (n.rename ρ).children = n.children.map (rename ρ) := by
  rw [children, kind_rename, Kind.children_relabel, children]

theorem referencesUnder_rename (hidden : List String) (n : Node) :
    (n.rename ρ).referencesUnder (hidden.map ρ) = (n.referencesUnder hidden).map ρ := by
  induction n using Node.induction_on_parts generalizing hidden with
  | node n ih =>
    have hchildren : distinct ((n.rename ρ).children.flatMap
          (referencesUnder (hidden.map ρ ++ (n.rename ρ).kind.declared))) =
        (distinct (n.children.flatMap (referencesUnder (hidden ++ n.kind.declared)))).map ρ := by
      rw [children_rename, kind_rename, Kind.declared_relabel, ← List.map_append, ← distinct_names, List.map_flatMap,
        List.flatMap_map]
      exact congrArg distinct (List.flatMap_congr fun c hc => ih c (Kind.mem_parts_of_mem_children hc) _)
    rw [referencesUnder_eq, referencesUnder_eq]
    obtain ⟨kind, modifiers, annotations⟩ := n
    rw [rename_mk] at hchildren ⊢
    cases kind with
    | ref name =>
      dsimp only [Kind.relabel]
      rw [contains_map]
      split <;> rfl
    | _ => exact hchildren

theorem references_rename (n : Node) : (n.rename ρ).references = n.references.map ρ := n.referencesUnder_rename []

theorem exposed_rename (n : Node) : (n.rename ρ).exposed = n.exposed.map ρ := by
  induction n using Node.induction_on_parts with
  | node n ih =>
    have hchildren : (n.rename ρ).children.flatMap exposed = (n.children.flatMap exposed).map ρ := by
      rw [children_rename, List.map_flatMap, List.flatMap_map]
      exact List.flatMap_congr fun c hc => ih c (Kind.mem_parts_of_mem_children hc)
    rw [exposed_eq, exposed_eq]
    obtain ⟨kind, modifiers, annotations⟩ := n
    rw [rename_mk] at hchildren ⊢
    cases kind <;> first | rfl | exact hchildren

/-! ## Substitution -/

theorem inherit_rename (n origin : Node) : (n.inherit origin).rename ρ = (n.rename ρ).inherit (origin.rename ρ) := by
  rw [rename_eq, rename_eq ρ n, inherit, inherit, modifiers_rename, annotations_rename]
  rfl

theorem boundKey_rename (n : Node) : (n.rename ρ).boundKey = n.boundKey.map ρ := by
  unfold boundKey
  rw [kind_rename]
  cases n.kind <;> rfl

/-- Replacing the parts of a renamed kind is renaming it with its parts replaced. -/
theorem rebuild_map_rename {n : Node} {f g : Node → Node} (h : ∀ c ∈ n.kind.parts, g (c.rename ρ) = (f c).rename ρ) :
    (n.rename ρ).rebuild ((n.rename ρ).kind.map g) = (n.rebuild (n.kind.map f)).rename ρ := by
  obtain ⟨kind, modifiers, annotations⟩ := n
  rw [rename_mk]
  refine Eq.trans ?_ (rename_mk ρ _ _ _).symm
  rw [Kind.relabel_map]
  refine congrArg (Node.mk · modifiers annotations) ?_
  rw [Kind.map_relabel]
  exact Kind.relabel_congr (fun _ _ => rfl) h

/-- **Substitution under other names.** -/
theorem substitute_rename (bindings : Fields Node) (n : Node) :
    (n.rename ρ).substitute (bindings.rename ρ (rename ρ)) = (n.substitute bindings).rename ρ := by
  induction n using Node.induction_on_parts generalizing bindings with
  | node n ih =>
    have hall := rebuild_map_rename (ρ := ρ) fun c hc => ih c hc bindings
    rw [substitute_eq, substitute_eq]
    obtain ⟨kind, modifiers, annotations⟩ := n
    rw [rename_mk] at hall ⊢
    cases kind with
    | ref name =>
      dsimp only [Kind.relabel]
      rw [Fields.get?_rename ρ.injective]
      cases bindings.get? name with
      | none =>
        dsimp only [Option.map_none]
        exact (rename_mk ρ (.ref name) modifiers annotations).symm
      | some bound => exact ((inherit_rename _ _).trans (congrArg _ (rename_mk ρ _ _ _))).symm
    | cyclic definitions root => exact (rename_mk ρ _ _ _).symm
    | generic parameters body =>
      have hinner := rebuild_map_rename (ρ := ρ) fun c hc => ih c hc (bindings.without (parameters.map (·.name)))
      rw [rename_mk] at hinner
      rw [← Fields.without_rename] at hinner
      simpa only [Kind.relabel, List.map_map, Function.comp_def] using hinner
    | deferred operator operands options =>
      cases operands with
      | nil => cases operator <;> exact hall
      | cons key rest =>
        cases operator
        case mapped =>
          have hkey := ih key List.mem_cons_self bindings
          have hrest : (rest.map (rename ρ)).map
                (substitute ((bindings.rename ρ (rename ρ)).without (key.rename ρ).boundKey)) =
              (rest.map (substitute (bindings.without key.boundKey))).map (rename ρ) := by
            rw [boundKey_rename, Fields.without_rename, List.map_map, List.map_map]
            exact List.map_congr_left fun c hc => ih c (List.mem_cons_of_mem _ hc) _
          refine Eq.trans ?_ (rename_mk ρ _ _ _).symm
          exact congrArg (Node.mk · modifiers annotations)
            (congrArg₂ (fun k r => Kind.deferred Operator.mapped (k :: r) options) hkey hrest)
        all_goals exact hall
    | _ => exact hall

end Node

/-! ## Chains and cycles -/

theorem foldlM_rename {f g : List String → String → Option (List String)} {names : List String}
    (h : ∀ cleared, ∀ name ∈ names, g (cleared.map ρ) (ρ name) = (f cleared name).map (List.map ρ))
    (cleared : List String) :
    (names.map ρ).foldlM g (cleared.map ρ) = (names.foldlM f cleared).map (List.map ρ) := by
  induction names generalizing cleared with
  | nil => rfl
  | cons name names ih =>
    rw [List.map_cons, List.foldlM_cons, List.foldlM_cons, h cleared name List.mem_cons_self]
    cases f cleared name with
    | none => rfl
    | some cleared => exact ih (fun c x hx => h c x (List.mem_cons_of_mem _ hx)) cleared

theorem follow_rename (context : Context) (fuel : Nat) (path cleared : List String) (name : String) :
    (context.rename ρ).follow fuel (path.map ρ) (cleared.map ρ) (ρ name) =
      (context.follow fuel path cleared name).map (List.map ρ) := by
  induction fuel generalizing path cleared name with
  | zero =>
    rw [Context.follow, Context.follow, contains_map]
    split <;> rfl
  | succ fuel ih =>
    have hget : (context.rename ρ).get? (ρ name) = (context.get? name).map (Node.rename ρ) :=
      Fields.get?_rename ρ.injective _ _
    rw [Context.follow, Context.follow, contains_map, contains_map, hget]
    split
    · rfl
    · split
      · rfl
      · cases context.get? name with
        | none => rfl
        | some target =>
          dsimp only [Option.map_some]
          rw [Node.exposed_rename, ← List.map_cons, foldlM_rename fun cleared next _ => ih (name :: path) cleared next,
            Option.map_map, Option.map_map]
          rfl

/-- **What leads back leads back under other names.** -/
theorem leadsBack_rename (path : List String) (context : Context) (n : Node) :
    leadsBack (path.map ρ) (context.rename ρ) (n.rename ρ) = leadsBack path context n := by
  have hlength : (context.rename ρ).length = context.length := Fields.length_rename ρ context
  have hfollow : ∀ cleared, ∀ name ∈ n.exposed,
      (context.rename ρ).follow context.length (path.map ρ) (cleared.map ρ) (ρ name) =
        (context.follow context.length path cleared name).map (List.map ρ) :=
    fun cleared name _ => follow_rename context context.length path cleared name
  have hfold := foldlM_rename hfollow []
  rw [leadsBack, leadsBack, Node.exposed_rename, hlength]
  rw [List.map_nil] at hfold
  rw [hfold, Option.isNone_map]

theorem isCyclic_rename (context : Context) (name : String) :
    isCyclic (context.rename ρ) (ρ name) = isCyclic context name := by
  have hget : (context.rename ρ).get? (ρ name) = (context.get? name).map (Node.rename ρ) :=
    Fields.get?_rename ρ.injective _ _
  rw [isCyclic, isCyclic, hget]
  cases context.get? name with
  | none => rfl
  | some n => exact leadsBack_rename [name] context n

/-- Where a chain ends, under other names. -/
def Target.rename (ρ : String → String) : Target → Target
  | .generic name parameters body =>
    .generic (ρ name) (parameters.map fun p => ⟨ρ p.name, p.constraint.rename ρ, p.default.rename ρ⟩) (body.rename ρ)
  | .concrete n => .concrete (n.rename ρ)
  | .unresolved => .unresolved

theorem chaseFor_rename (context : Context) (fuel : Nat) (name : String) :
    (context.rename ρ).chaseFor fuel (ρ name) = (context.chaseFor fuel name).rename ρ := by
  induction fuel generalizing name with
  | zero => rfl
  | succ fuel ih =>
    have hget : (context.rename ρ).get? (ρ name) = (context.get? name).map (Node.rename ρ) :=
      Fields.get?_rename ρ.injective _ _
    rw [Context.chaseFor, Context.chaseFor, hget]
    cases context.get? name with
    | none => rfl
    | some n =>
      obtain ⟨kind, modifiers, annotations⟩ := n
      dsimp only [Option.map_some]
      rw [Node.rename_mk]
      cases kind with
      | ref next => exact ih next
      | generic parameters body => rfl
      | _ => exact congrArg Target.concrete (Node.rename_mk ρ _ _ _).symm

theorem chase_rename (context : Context) (name : String) :
    chase (context.rename ρ) (ρ name) = (chase context name).rename ρ := by
  have hlength : (context.rename ρ).length = context.length := Fields.length_rename ρ context
  rw [chase, chase, hlength, chaseFor_rename]

/-! ## The reference graph -/

namespace ReferenceGraph

def rename (ρ : String → String) (graph : ReferenceGraph) : ReferenceGraph :=
  ⟨graph.names.map ρ, graph.edges.rename ρ (List.map ρ)⟩

theorem ofContext_rename (context : Context) : ofContext (context.rename ρ) = (ofContext context).rename ρ := by
  have hedges : Fields.mapValues Node.references (context.rename ρ) =
      (Fields.mapValues Node.references context).rename ρ (List.map ρ) := by
    simp [Fields.mapValues, Fields.rename, Context.rename, Node.references_rename]
  have hnames : Fields.names (context.rename ρ) = (Fields.names context).map ρ := Fields.names_rename ρ context
  simp only [ofContext, rename, hedges, hnames, Fields.values_rename, ← List.map_flatten, ← List.map_append,
    distinct_names]

variable (graph : ReferenceGraph)

theorem successors_rename (name : String) :
    (graph.rename ρ).successors (ρ name) = (graph.successors name).map ρ := by
  rw [successors, rename, Fields.get?_rename ρ.injective, successors]
  cases graph.edges.get? name <;> rfl

theorem edgeCount_rename : (graph.rename ρ).edgeCount = graph.edgeCount := by
  rw [edgeCount, rename, Fields.values_rename, ← List.map_flatten, List.length_map, edgeCount]

theorem search_rename (steps : Nat) (visited stack : List String) :
    (graph.rename ρ).search steps (visited.map ρ) (stack.map ρ) = (graph.search steps visited stack).map ρ := by
  induction steps generalizing visited stack with
  | zero => rfl
  | succ steps ih =>
    cases stack with
    | nil => rfl
    | cons name stack =>
      rw [List.map_cons, search, search, contains_map]
      split
      · exact ih visited stack
      · have hpushed := ih (name :: visited) ((graph.successors name).reverse ++ stack)
        rwa [List.map_append, List.map_reverse, List.map_cons, ← successors_rename] at hpushed

theorem sorted_rename (names : List String) : (graph.rename ρ).sorted (names.map ρ) = (graph.sorted names).map ρ := by
  simp only [sorted, rename, List.filter_map, Function.comp_def, contains_map]

theorem closure_rename (name : String) : (graph.rename ρ).closure (ρ name) = (graph.closure name).map ρ := by
  have hsearch := graph.search_rename (ρ := ρ) (graph.edgeCount + 1) [] [name]
  rw [List.map_singleton, List.map_nil] at hsearch
  rw [closure, closure, show (graph.rename ρ).names = graph.names.map ρ from rfl, contains_map, edgeCount_rename]
  split
  · rw [hsearch, sorted_rename]
  · rfl

end ReferenceGraph
end Schemata
