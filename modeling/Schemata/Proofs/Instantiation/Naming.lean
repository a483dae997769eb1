import Schemata.Instantiation.Bundle
import Schemata.Instantiation.Call
import Schemata.Proofs.Reference.Renaming
/-!
# Outcomes under other names

- `Outcome.rename` gives other names to what an instantiation ends with, be it a result or an error.
- `Evaluator.Renames ρ e e'` says that `e'` does under other names what `e` does.
- Bundles and modules are packed under other names alike (`package_rename`, `assemble_rename`).
-/
namespace Schemata

variable {ρ : Equiv.Perm String} {α β γ δ : Type}

/-! ## Names made up from names -/

/-- **A permutation under which made-up names follow the names that they are made of**: those of bundles that operators
leave, and that of a generic without a name. -/
structure Consistent (ρ : Equiv.Perm String) : Prop where
  bundle : ∀ (operator : Operator) (root : String),
    ρ (operator.word ++ "<" ++ root ++ ">") = operator.word ++ "<" ++ ρ root ++ ">"
  anonymous : ρ anonymous = anonymous

/-! ## Outcomes -/

def MissingName.rename (ρ : String → String) : MissingName → MissingName
  | .definition name => .definition (ρ name)
  | .member name => .member (ρ name)
  | .root name => .root (ρ name)

def InstantiationError.rename (ρ : String → String) : InstantiationError → InstantiationError
  | .constraintViolation parameter constraint received =>
    .constraintViolation (ρ parameter) (constraint.rename ρ) (received.rename ρ)
  | .structuralMismatch operator expected received => .structuralMismatch operator expected (received.rename ρ)
  | .invalidArity operator expected received => .invalidArity operator expected received
  | .depthExceeded limit => .depthExceeded limit
  | .callDepthExceeded limit callstack => .callDepthExceeded limit (callstack.map ρ)
  | .missing name => .missing (name.rename ρ)

namespace Outcome

/-- **An outcome under other names**, with another result. -/
def rename (ρ : String → String) (f : α → β) : Outcome α → Outcome β
  | .done result => .done (f result)
  | .failed error => .failed (error.rename ρ)
  | .exhausted => .exhausted

theorem bind_rename {x : Outcome α} {x' : Outcome β} {g : α → Outcome γ} {g' : β → Outcome δ} {f : α → β} {h : γ → δ}
    (hx : x' = x.rename ρ f) (hg : ∀ a, x = .done a → g' (f a) = (g a).rename ρ h) :
    x' >>= g' = (x >>= g).rename ρ h := by
  subst hx
  cases x with
  | done a => exact hg a rfl
  | failed e => rfl
  | exhausted => rfl

theorem mapM_rename {f : α → β} {g : α → Outcome γ} {g' : β → Outcome δ} {h : γ → δ} {xs : List α}
    (hg : ∀ x ∈ xs, g' (f x) = (g x).rename ρ h) : (xs.map f).mapM g' = (xs.mapM g).rename ρ (List.map h) := by
  induction xs with
  | nil => rfl
  | cons x xs ih =>
    rw [List.forall_mem_cons] at hg
    rw [List.map_cons, List.mapM_cons, List.mapM_cons]
    exact bind_rename hg.1 fun y _ => bind_rename (ih hg.2) fun ys _ => rfl

end Outcome

/-! ## Traversals -/

theorem fields_mapM_rename {r : String → String} {f : α → β} {g : α → Outcome γ} {g' : β → Outcome δ} {h : γ → δ}
    {fields : List (String × α)} (hg : ∀ c ∈ fields.map Prod.snd, g' (f c) = (g c).rename ρ h) :
    ((fields.map fun e : String × α => (r e.1, f e.2)).mapM fun e : String × β => do return (e.1, ← g' e.2)) =
      (fields.mapM fun e : String × α => do return (e.1, ← g e.2)).rename ρ (List.map fun e : String × γ => (r e.1, h e.2)) := by
  refine Outcome.mapM_rename fun e he => ?_
  exact Outcome.bind_rename (hg e.2 (List.mem_map_of_mem (f := Prod.snd) he)) fun _ _ => rfl

/-- **A traversal under other names.** -/
theorem Kind.traverse_relabel {f : α → β} {g : α → Outcome γ} {g' : β → Outcome δ} {h : γ → δ} {kind : Kind α}
    (hg : ∀ c ∈ kind.parts, g' (f c) = (g c).rename ρ h) :
    (kind.relabel ρ f).traverse g' = (kind.traverse g).rename ρ (relabel ρ h) := by
  cases kind with
  | primitive p | literal l | ref name => rfl
  | array item | wrapper w item => exact Outcome.bind_rename (hg item List.mem_cons_self) fun _ _ => rfl
  | tuple xs | union xs | intersect xs | deferred o xs a | templatePattern xs =>
    exact Outcome.bind_rename (Outcome.mapM_rename hg) fun _ _ => rfl
  | object properties => exact Outcome.bind_rename (fields_mapM_rename (r := id) hg) fun _ _ => rfl
  | cyclic definitions root => exact Outcome.bind_rename (fields_mapM_rename hg) fun _ _ => rfl
  | function xs x | constructor xs x =>
    exact Outcome.bind_rename (Outcome.mapM_rename fun c hc => hg c (List.mem_append_left _ hc)) fun _ _ =>
      Outcome.bind_rename (hg x (List.mem_append_right _ List.mem_cons_self)) fun _ _ => rfl
  | dictionary x y =>
    exact Outcome.bind_rename (hg x List.mem_cons_self) fun _ _ =>
      Outcome.bind_rename (hg y (List.mem_cons_of_mem _ List.mem_cons_self)) fun _ _ => rfl
  | parameter p =>
    exact Outcome.bind_rename (hg p.constraint List.mem_cons_self) fun _ _ =>
      Outcome.bind_rename (hg p.default (List.mem_cons_of_mem _ List.mem_cons_self)) fun _ _ => rfl
  | generic parameters body =>
    refine Outcome.bind_rename (Outcome.mapM_rename (h := fun p => ⟨ρ p.name, h p.constraint, h p.default⟩)
      fun p hp => ?_) fun _ _ => Outcome.bind_rename (hg body (List.mem_append_right _ List.mem_cons_self)) fun _ _ => rfl
    have hp' : ∀ c ∈ p.parts, g' (f c) = (g c).rename ρ h := fun c hc =>
      hg c (List.mem_append_left _ (List.mem_flatMap.2 ⟨p, hp, hc⟩))
    exact Outcome.bind_rename (hp' p.constraint List.mem_cons_self) fun _ _ =>
      Outcome.bind_rename (hp' p.default (List.mem_cons_of_mem _ List.mem_cons_self)) fun _ _ => rfl
  | call x xs =>
    exact Outcome.bind_rename (hg x List.mem_cons_self) fun _ _ =>
      Outcome.bind_rename (Outcome.mapM_rename fun c hc => hg c (List.mem_cons_of_mem _ hc)) fun _ _ => rfl

/-! ## States and evaluators -/

def Frame.rename (ρ : String → String) (frame : Frame) : Frame :=
  ⟨ρ frame.name, frame.arguments.map (Node.rename ρ)⟩

/-- **A state under other names.** -/
def State.rename (ρ : String → String) (s : State) : State where
  frames := s.frames.map (Frame.rename ρ)
  declared := s.declared.map ρ
  depth := s.depth

@[simp] theorem State.frames_rename (ρ : String → String) (s : State) :
    (s.rename ρ).frames = s.frames.map (Frame.rename ρ) := rfl

@[simp] theorem State.declared_rename (ρ : String → String) (s : State) :
    (s.rename ρ).declared = s.declared.map ρ := rfl

@[simp] theorem State.depth_rename (ρ : String → String) (s : State) : (s.rename ρ).depth = s.depth := rfl

/-- **`evaluate'` does under other names what `evaluate` does.** -/
def Evaluator.Renames (ρ : String → String) (evaluate evaluate' : Evaluator) : Prop :=
  ∀ context s n, evaluate' (context.rename ρ) (s.rename ρ) (n.rename ρ) = (evaluate context s n).rename ρ (Node.rename ρ)

/-! ## Bundles and modules -/

theorem Context.get?_rename (context : Context) (name : String) :
    (context.rename ρ).get? (ρ name) = (context.get? name).map (Node.rename ρ) :=
  Fields.get?_rename ρ.injective context name

theorem candidatesOf_rename (scope : Context) (names : List String) :
    candidatesOf (scope.rename ρ) (names.map ρ) = (candidatesOf scope names).map ρ := by
  rw [candidatesOf, List.filter_map, candidatesOf]
  exact congrArg (List.map ρ) (List.filter_congr fun name _ => isCyclic_rename scope name)

section
variable {evaluate evaluate' : Evaluator} (h : evaluate.Renames ρ evaluate')
include h

/-- **A bundle is packed under other names.** -/
theorem package_rename (scope : Context) (graph : ReferenceGraph) (candidates : List String) (name : String) :
    package evaluate' (scope.rename ρ) (graph.rename ρ) (candidates.map ρ) (ρ name) =
      (package evaluate scope graph candidates name).rename ρ (Node.rename ρ) := by
  let members := name :: (graph.closure name).filter fun member => member != name && candidates.contains member
  have hmembers : ρ name :: ((graph.rename ρ).closure (ρ name)).filter
      (fun member => member != ρ name && (candidates.map ρ).contains member) = members.map ρ := by
    rw [graph.closure_rename, List.filter_map, List.map_cons]
    refine congrArg _ (congrArg (List.map ρ) (List.filter_congr fun member _ => ?_))
    rw [Function.comp, contains_map, bne_map]
  have hhidden : Fields.without (scope.rename ρ) (members.map ρ) = Context.rename ρ (Fields.without scope members) :=
    Fields.without_rename scope members
  simp only [package, hmembers, hhidden]
  refine Outcome.bind_rename (Outcome.mapM_rename (h := fun e => (ρ e.1, e.2.rename ρ)) fun member _ => ?_) fun _ _ => ?_
  · rw [scope.get?_rename]
    cases scope.get? member with
    | none => rfl
    | some body => exact Outcome.bind_rename (h _ .initial body) fun _ _ => rfl
  · exact congrArg Outcome.done (Node.rename_of ρ (.cyclic _ name)).symm

/-- **A module is assembled under other names.** -/
theorem assemble_rename (scope : Context) (names : List String) :
    assemble evaluate' (scope.rename ρ) (names.map ρ) = (assemble evaluate scope names).rename ρ (Context.rename ρ) := by
  simp only [assemble, candidatesOf_rename, ReferenceGraph.ofContext_rename]
  refine Outcome.mapM_rename fun name _ => ?_
  rw [scope.get?_rename]
  cases scope.get? name with
  | none => rfl
  | some n =>
    dsimp only [Option.map_some]
    rw [contains_map]
    split
    · exact Outcome.bind_rename (package_rename h scope _ _ name) fun _ _ => rfl
    · exact Outcome.bind_rename (h scope .initial n) fun _ _ => rfl

theorem packageDefinition_rename (context : Context) (name : String) (n : Node) :
    packageDefinition evaluate' (context.rename ρ) (ρ name) (n.rename ρ) =
      (packageDefinition evaluate context name n).rename ρ (Node.rename ρ) := by
  have hscope : Fields.insert (context.rename ρ) (ρ name) (n.rename ρ) = Context.rename ρ (context.insert name n) :=
    Fields.insert_rename ρ.injective context name n
  have hnames : Fields.names (Context.rename ρ (context.insert name n)) = (context.insert name n).names.map ρ :=
    Fields.names_rename ρ _
  simp only [packageDefinition, hscope, hnames, ReferenceGraph.ofContext_rename, candidatesOf_rename]
  exact package_rename h _ _ _ name

end
end Schemata
