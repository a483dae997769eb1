import Schemata.Instantiation.Run
import Schemata.Proofs.Instantiation.Concrete
/-!
# Free names and substitution

Substitution stops where a bound name is hidden, but it does not rename the binders that it goes through: a name that is free
in what takes the place of a reference is bound from then on by the binders around that place.

- `Node.free`: the names of the references that nothing in a node binds, outside of bundles.
- `Node.captured`: the names that substitution brings under a binder of theirs.
- `free_substitute`: the free names after substitution are those expected, except for captured ones.
- `captured_of_closed`: nothing is captured where all that is bound is closed.
-/
namespace Schemata

/-! ## Free names -/

/-- **The open parts of a form, with the names that it binds for each**: a generic its parameters for all of them, the key of a
mapped type its name for the other operands. -/
def Kind.scopedParts : Kind Node → List (List String × Node)
  | .deferred .mapped (key :: rest) _ => ([], key) :: rest.map fun c => (key.boundKey, c)
  | kind => kind.children.map fun c => (kind.declared, c)

/-- A part of a form under a substitution: the names for which nothing is put there, and the names bound for it afterwards. -/
structure Scope where
  hidden : List String
  binders : List String
  part : Node

/-- **The open parts of a form under a substitution.**  These are the same names, unless what takes the place of a key is a
binder. -/
def Kind.scopes (bindings : Fields Node) : Kind Node → List Scope
  | .deferred .mapped (key :: rest) _ =>
    ⟨[], [], key⟩ :: rest.map fun c => ⟨key.boundKey, (key.substitute bindings).boundKey, c⟩
  | kind => kind.children.map fun c => ⟨kind.declared, kind.declared, c⟩

namespace Kind

variable {kind : Kind Node} {bindings : Fields Node}

theorem scopedParts_eq_map (bindings : Fields Node) (kind : Kind Node) :
    kind.scopedParts = (kind.scopes bindings).map fun e => (e.hidden, e.part) := by
  unfold scopedParts scopes
  split
  · rw [List.map_cons, List.map_map]
    rfl
  · rw [List.map_map]
    rfl

theorem mem_children_of_mem_scopes {e : Scope} (h : e ∈ kind.scopes bindings) : e.part ∈ kind.children := by
  unfold scopes at h
  split at h
  · rcases List.mem_cons.1 h with rfl | h
    · exact List.mem_cons_self
    · obtain ⟨c, hc, rfl⟩ := List.mem_map.1 h
      exact List.mem_cons_of_mem _ hc
  · obtain ⟨c, hc, rfl⟩ := List.mem_map.1 h
    exact hc

/-- What is hidden is bound afterwards: a key that is a binder stays one. -/
theorem binders_of_hidden {e : Scope} (h : e ∈ kind.scopes bindings) : ∀ x ∈ e.hidden, x ∈ e.binders := by
  unfold scopes at h
  split at h
  · rename_i key rest options
    rcases List.mem_cons.1 h with rfl | h
    · exact fun _ hx => hx
    · obtain ⟨c, -, rfl⟩ := List.mem_map.1 h
      intro x hx
      rw [Node.boundKey] at hx
      split at hx
      · rename_i p hk
        rw [Node.substitute_eq, hk]
        exact hx
      · cases hx
  · obtain ⟨c, -, rfl⟩ := List.mem_map.1 h
    exact fun _ hx => hx

theorem scopes_of_children (hmapped : ∀ key rest options, kind ≠ .deferred .mapped (key :: rest) options)
    (bindings : Fields Node) : kind.scopes bindings = kind.children.map fun c => ⟨kind.declared, kind.declared, c⟩ := by
  unfold scopes
  split
  · exact absurd rfl (hmapped _ _ _)
  · rfl

theorem children_map {α β : Type} (f : α → β) (kind : Kind α) : (kind.map f).children = kind.children.map f := by
  cases kind <;> simp [children, parts, map, Parameter.parts, List.flatMap_map, List.map_flatMap]

theorem declared_map {α β : Type} (f : α → β) (kind : Kind α) : (kind.map f).declared = kind.declared :=
  declared_eq_of_shape (shape_map f kind)

end Kind

namespace Node

variable {bindings : Fields Node} {n : Node} {x : String}

theorem size_lt_of_mem_scopes {e : Scope} (h : e ∈ n.kind.scopes bindings) : e.part.size < n.size :=
  size_lt_of_mem_children (Kind.mem_children_of_mem_scopes h)

theorem size_lt_of_mem_scopedParts {e : List String × Node} (h : e ∈ n.kind.scopedParts) : e.2.size < n.size := by
  rw [Kind.scopedParts_eq_map []] at h
  obtain ⟨e, he, rfl⟩ := List.mem_map.1 h
  exact size_lt_of_mem_scopes he

/-- **The free names of a node**: those of its references outside of bundles that no generic and no key around them binds. -/
def free (n : Node) : List String :=
  match n.kind with
  | .ref name => [name]
  | _ => n.kind.scopedParts.attach.flatMap fun ⟨e, _⟩ => e.2.free.filter fun x => !e.1.contains x
termination_by n.size
decreasing_by exact size_lt_of_mem_scopedParts ‹_›

theorem free_eq (n : Node) : n.free =
    match n.kind with
    | .ref name => [name]
    | _ => n.kind.scopedParts.flatMap fun e => e.2.free.filter fun x => !e.1.contains x := by
  rw [free]
  split
  · rfl
  · rw [List.flatMap_def, List.flatMap_def]
    exact congrArg List.flatten (Kind.map_attach n.kind.scopedParts fun e => e.2.free.filter fun x => !e.1.contains x)

theorem free_of_kind {m : Node} (h : m.kind = n.kind) : m.free = n.free := by rw [free_eq, free_eq n, h]

theorem mem_free_iff_scopedParts (href : ∀ name, n.kind ≠ .ref name) :
    x ∈ n.free ↔ ∃ e ∈ n.kind.scopedParts, x ∈ e.2.free ∧ x ∉ e.1 := by
  rw [free_eq]
  split
  · exact absurd ‹_› (href _)
  · simp

theorem mem_free_iff (href : ∀ name, n.kind ≠ .ref name) (bindings : Fields Node) :
    x ∈ n.free ↔ ∃ e ∈ n.kind.scopes bindings, x ∈ e.part.free ∧ x ∉ e.hidden := by
  rw [mem_free_iff_scopedParts href, Kind.scopedParts_eq_map bindings]
  simp

end Node

/-- The names that are free in what takes the place of a reference. -/
def Fields.standsFor (bindings : Fields Node) (name : String) : List String :=
  match bindings.get? name with
  | some bound => bound.free
  | none => [name]

/-- The names that are free in what takes the place of the references of a part. -/
def Scope.brought (bindings : Fields Node) (e : Scope) : List String :=
  (e.part.free.filter fun y => !e.hidden.contains y).flatMap (Fields.standsFor bindings)

theorem Scope.mem_brought_iff {bindings : Fields Node} {e : Scope} {x : String} :
    x ∈ e.brought bindings ↔ ∃ y ∈ e.part.free, y ∉ e.hidden ∧ x ∈ Fields.standsFor bindings y := by
  simp [brought, and_assoc]

theorem Fields.standsFor_without {bindings : Fields Node} {hidden : List String} {name : String} (h : name ∉ hidden) :
    Fields.standsFor (bindings.without hidden) name = Fields.standsFor bindings name := by
  rw [standsFor, standsFor, get?_without, if_neg h]

theorem Fields.exists_standsFor_iff {bindings : Fields Node} {names : List String} {x : String} :
    (∃ y ∈ names, x ∈ Fields.standsFor bindings y) ↔
      (x ∈ names ∧ bindings.get? x = none) ∨ ∃ y bound, y ∈ names ∧ bindings.get? y = some bound ∧ x ∈ bound.free := by
  constructor
  · rintro ⟨y, hy, hx⟩
    rw [standsFor] at hx
    split at hx
    · rename_i bound hbound
      exact .inr ⟨y, bound, hy, hbound, hx⟩
    · rename_i hnone
      cases List.mem_singleton.1 hx
      exact .inl ⟨hy, hnone⟩
  · rintro (⟨hx, hnone⟩ | ⟨y, bound, hy, hbound, hx⟩)
    · exact ⟨x, hx, by rw [standsFor, hnone]; exact List.mem_singleton_self x⟩
    · exact ⟨y, hy, by rw [standsFor, hbound]; exact hx⟩

namespace Node

variable {bindings : Fields Node} {n : Node} {x : String}

/-! ## Substitution part by part -/

theorem substitute_of_children (href : ∀ name, n.kind ≠ .ref name)
    (hcyclic : ∀ definitions root, n.kind ≠ .cyclic definitions root)
    (hmapped : ∀ key rest options, n.kind ≠ .deferred .mapped (key :: rest) options) (bindings : Fields Node) :
    n.substitute bindings = n.rebuild (n.kind.map (substitute (bindings.without n.kind.declared))) := by
  rw [substitute_eq]
  split
  · exact absurd ‹_› (href _)
  · exact absurd ‹_› (hcyclic _ _)
  · rename_i parameters body hk
    rw [hk]
    rfl
  · exact absurd ‹_› (hmapped _ _ _)
  · rename_i hgeneric _
    have hdeclared : n.kind.declared = [] := by
      cases hk : n.kind with
      | generic parameters body => exact absurd hk (hgeneric parameters body)
      | _ => rfl
    rw [hdeclared, Fields.without_nil]

theorem substitute_ne_ref (href : ∀ name, n.kind ≠ .ref name) (bindings : Fields Node) :
    ∀ name, (n.substitute bindings).kind ≠ .ref name := by
  have hmap : ∀ (f : Node → Node) name, n.kind.map f ≠ .ref name := fun f name hk => by
    cases hkind : n.kind with
    | ref name => exact href name hkind
    | _ =>
      rw [hkind] at hk
      cases hk
  rw [substitute_eq]
  split
  · exact absurd ‹_› (href _)
  · exact href
  · exact hmap _
  · exact fun _ hk => nomatch hk
  · exact hmap _

/-- **What is substituted in each part**, and what is bound for it then. -/
theorem scopedParts_substitute (href : ∀ name, n.kind ≠ .ref name) (bindings : Fields Node) :
    (n.substitute bindings).kind.scopedParts =
      (n.kind.scopes bindings).map fun e => (e.binders, e.part.substitute (bindings.without e.hidden)) := by
  by_cases hmapped : ∃ key rest options, n.kind = .deferred .mapped (key :: rest) options
  · obtain ⟨key, rest, options, hk⟩ := hmapped
    rw [substitute_eq, hk]
    simp only [rebuild, Kind.scopedParts, Kind.scopes, List.map_cons, List.map_map, Fields.without_nil]
    rfl
  · push Not at hmapped
    by_cases hcyclic : ∃ definitions root, n.kind = .cyclic definitions root
    · obtain ⟨definitions, root, hk⟩ := hcyclic
      rw [substitute_eq, hk]
      simp only [hk]
      rfl
    · push Not at hcyclic
      have hkept : ∀ key rest options,
          n.kind.map (substitute (bindings.without n.kind.declared)) ≠ .deferred .mapped (key :: rest) options := by
        intro key rest options hk
        cases hkind : n.kind with
        | deferred operator operands options' =>
          rw [hkind] at hk
          cases operands with
          | nil => cases hk
          | cons => cases hk; exact hmapped _ _ _ hkind
        | _ =>
          rw [hkind] at hk
          cases hk
      rw [substitute_of_children href hcyclic hmapped, Kind.scopedParts_eq_map bindings, Kind.scopes_of_children hmapped]
      simp only [rebuild, Kind.scopes_of_children hkept, Kind.children_map, Kind.declared_map, List.map_map]
      rfl

/-! ## Captured names -/

/-- **The names that substitution captures**: they are free in what takes the place of a reference, but bound around it. -/
def captured (bindings : Fields Node) (n : Node) : List String :=
  (n.kind.scopes bindings).attach.flatMap fun ⟨e, _⟩ =>
    (e.brought bindings).filter e.binders.contains ++ e.part.captured (bindings.without e.hidden)
termination_by n.size
decreasing_by exact size_lt_of_mem_scopes ‹_›

theorem mem_captured_iff : x ∈ n.captured bindings ↔ ∃ e ∈ n.kind.scopes bindings,
    x ∈ e.brought bindings ∧ x ∈ e.binders ∨ x ∈ e.part.captured (bindings.without e.hidden) := by
  rw [captured]
  simp

/-- **What is free after substitution** is free in the node and not bound, or free in what a free name is bound to.  Of these
names only captured ones may be bound. -/
theorem free_substitute_standsFor (bindings : Fields Node) (n : Node) (x : String) :
    (x ∈ (n.substitute bindings).free → ∃ y ∈ n.free, x ∈ Fields.standsFor bindings y) ∧
      (x ∉ n.captured bindings → (∃ y ∈ n.free, x ∈ Fields.standsFor bindings y) → x ∈ (n.substitute bindings).free) := by
  induction hsize : n.size using Nat.strong_induction_on generalizing n bindings with
  | _ size ih =>
    by_cases href : ∃ name, n.kind = .ref name
    · obtain ⟨name, hk⟩ := href
      have hfree : n.free = [name] := by rw [free_eq, hk]
      have hsubstitute : (n.substitute bindings).free = Fields.standsFor bindings name := by
        rw [substitute_eq, hk, Fields.standsFor]
        dsimp only
        cases bindings.get? name with
        | none => exact hfree
        | some bound => exact free_of_kind rfl
      rw [hsubstitute, hfree]
      simp
    · push Not at href
      have hafter : x ∈ (n.substitute bindings).free ↔ ∃ e ∈ n.kind.scopes bindings,
          x ∈ (e.part.substitute (bindings.without e.hidden)).free ∧ x ∉ e.binders := by
        rw [mem_free_iff_scopedParts (substitute_ne_ref href bindings), scopedParts_substitute href]
        simp
      replace ih := fun e (he : e ∈ n.kind.scopes bindings) =>
        ih e.part.size (hsize ▸ size_lt_of_mem_scopes he) (bindings.without e.hidden) e.part rfl
      rw [hafter]
      constructor
      · rintro ⟨e, he, hx, hbinders⟩
        obtain ⟨y, hy, hstands⟩ := (ih e he).1 hx
        have hhidden : y ∉ e.hidden := fun hhidden => by
          -- A hidden name stands for itself, and is bound afterwards too.
          rw [Fields.standsFor, Fields.get?_without, if_pos hhidden] at hstands
          cases List.mem_singleton.1 hstands
          exact hbinders (Kind.binders_of_hidden he x hhidden)
        exact ⟨y, (mem_free_iff href bindings).2 ⟨e, he, hy, hhidden⟩, Fields.standsFor_without hhidden ▸ hstands⟩
      · rintro hcaptured ⟨y, hy, hstands⟩
        obtain ⟨e, he, hy, hhidden⟩ := (mem_free_iff href bindings).1 hy
        rw [mem_captured_iff] at hcaptured
        refine ⟨e, he, (ih e he).2 (fun hbelow => hcaptured ⟨e, he, .inr hbelow⟩) ⟨y, hy, ?_⟩, fun hbinders => ?_⟩
        · rwa [Fields.standsFor_without hhidden]
        · exact hcaptured ⟨e, he, .inl ⟨Scope.mem_brought_iff.2 ⟨y, hy, hhidden, hstands⟩, hbinders⟩⟩

/-! ## Closed nodes are not captured -/

/-- A key stays the binder that it is where no binder is bound. -/
theorem boundKey_substitute (hkeys : ∀ y bound, bindings.get? y = some bound → bound.boundKey = []) (n : Node) :
    (n.substitute bindings).boundKey = n.boundKey := by
  obtain ⟨kind, modifiers, annotations⟩ := n
  rw [substitute_eq]
  cases kind with
  | ref name =>
    dsimp only
    cases hname : bindings.get? name with
    | none => rfl
    | some bound => exact hkeys name bound hname
  | deferred operator operands options => cases operator <;> cases operands <;> rfl
  | _ => rfl

theorem hidden_of_binders (hkeys : ∀ y bound, bindings.get? y = some bound → bound.boundKey = []) {kind : Kind Node}
    {e : Scope} (he : e ∈ kind.scopes bindings) : ∀ x ∈ e.binders, x ∈ e.hidden := by
  unfold Kind.scopes at he
  split at he
  · rcases List.mem_cons.1 he with rfl | he
    · exact fun _ hx => hx
    · obtain ⟨c, -, rfl⟩ := List.mem_map.1 he
      exact fun _ hx => boundKey_substitute hkeys _ ▸ hx
  · obtain ⟨c, -, rfl⟩ := List.mem_map.1 he
    exact fun _ hx => hx

theorem free_of_isConcrete (hn : n.isConcrete = true) : n.free = [] ∧ n.boundKey = [] := by
  induction n using induction_on_parts with
  | node n ih =>
    have hform := hn
    rw [isConcrete_eq] at hform
    have href : ∀ name, n.kind ≠ .ref name := fun name hk => by
      rw [hk] at hform
      cases hform
    refine ⟨List.eq_nil_iff_forall_not_mem.2 fun x hx => ?_, ?_⟩
    · obtain ⟨e, he, hx, -⟩ := (mem_free_iff href []).1 hx
      have hpart := Kind.mem_children_of_mem_scopes he
      rcases isConcrete_cases hn with ⟨definitions, root, hk⟩ | ⟨-, -, -, hparts⟩
      · rw [hk] at hpart
        cases hpart
      · have hmem := Kind.mem_parts_of_mem_children hpart
        rw [(ih e.part hmem (hparts e.part hmem)).1] at hx
        cases hx
    · rw [boundKey]
      split
      · rename_i hk
        rw [hk] at hform
        cases hform
      · rfl

/-- **Nothing is captured where all that is bound is closed** and binds nothing as a key. -/
theorem captured_of_closed (hclosed : ∀ y bound, bindings.get? y = some bound → bound.free = [] ∧ bound.boundKey = [])
    (n : Node) : n.captured bindings = [] := by
  induction n using induction_on_parts generalizing bindings with
  | node n ih =>
    refine List.eq_nil_iff_forall_not_mem.2 fun x hx => ?_
    obtain ⟨e, he, ⟨hbrought, hbinders⟩ | hbelow⟩ := mem_captured_iff.1 hx
    · obtain ⟨y, -, hhidden, hstands⟩ := Scope.mem_brought_iff.1 hbrought
      rw [Fields.standsFor] at hstands
      split at hstands
      · rename_i bound hbound
        rw [(hclosed y bound hbound).1] at hstands
        cases hstands
      · cases List.mem_singleton.1 hstands
        exact hhidden (hidden_of_binders (fun y bound h => (hclosed y bound h).2) he x hbinders)
    · rw [ih e.part (Kind.mem_parts_of_mem_children (Kind.mem_children_of_mem_scopes he))] at hbelow
      · cases hbelow
      · intro y bound hbound
        rw [Fields.get?_without] at hbound
        split at hbound
        · cases hbound
        · exact hclosed y bound hbound

/-! ## The law -/

/-- **What is free after substitution**: the free names that are not bound, together with what is free in what the bound ones
stand for.  Nothing else is free, and of these names all are that no binder captures. -/
theorem free_substitute (bindings : Fields Node) (n : Node) (x : String) :
    (x ∈ (n.substitute bindings).free →
      (x ∈ n.free ∧ bindings.get? x = none) ∨ ∃ y bound, y ∈ n.free ∧ bindings.get? y = some bound ∧ x ∈ bound.free) ∧
    (x ∉ n.captured bindings → (x ∈ (n.substitute bindings).free ↔
      (x ∈ n.free ∧ bindings.get? x = none) ∨ ∃ y bound, y ∈ n.free ∧ bindings.get? y = some bound ∧ x ∈ bound.free)) := by
  rw [← Fields.exists_standsFor_iff]
  obtain ⟨honly, hall⟩ := free_substitute_standsFor bindings n x
  exact ⟨honly, fun hcaptured => ⟨honly, hall hcaptured⟩⟩

/-- The key of a mapped type and the parameter of a generic around references, and a name that is hidden. -/
theorem free_substitute_hidden :
    let n : Node := .object [("m", .mapped ⟨"K", .reference "T", .never⟩ (.tuple [.reference "K", .reference "X"]) none),
      ("g", .generic [⟨"T", .unknown, .reference "X"⟩] (.call (.reference "F") [.reference "T"]))]
    let bindings : Fields Node := [("T", .keyOf (.reference "Z")), ("X", .array (.reference "W"))]
    "Z" ∉ n.captured bindings ∧ "W" ∉ n.captured bindings ∧ "F" ∉ n.captured bindings ∧
      ∀ x ∈ ["Z", "W", "F"], x ∈ (n.substitute bindings).free := by
  intro n bindings
  have hz : "Z" ∉ n.captured bindings := by decide +kernel
  have hw : "W" ∉ n.captured bindings := by decide +kernel
  have hf : "F" ∉ n.captured bindings := by decide +kernel
  refine ⟨hz, hw, hf, ?_⟩
  rw [List.forall_mem_cons, List.forall_mem_cons, List.forall_mem_singleton]
  refine ⟨((free_substitute bindings n "Z").2 hz).2 (.inr ⟨"T", _, by decide +kernel, rfl, by decide +kernel⟩),
    ((free_substitute bindings n "W").2 hw).2 (.inr ⟨"X", _, by decide +kernel, rfl, by decide +kernel⟩),
    ((free_substitute bindings n "F").2 hf).2 (.inl ⟨by decide +kernel, rfl⟩)⟩

/-- **Where concrete nodes are bound, their names are gone and nothing else changes.** -/
theorem free_substitute_of_isConcrete (hconcrete : ∀ y bound, bindings.get? y = some bound → bound.isConcrete = true)
    (n : Node) (x : String) : x ∈ (n.substitute bindings).free ↔ x ∈ n.free ∧ bindings.get? x = none := by
  have hclosed : ∀ y bound, bindings.get? y = some bound → bound.free = [] ∧ bound.boundKey = [] :=
    fun y bound h => free_of_isConcrete (hconcrete y bound h)
  obtain ⟨honly, hall⟩ := free_substitute_standsFor bindings n x
  rw [Fields.exists_standsFor_iff] at honly hall
  rw [captured_of_closed hclosed] at hall
  refine ⟨fun hx => (honly hx).resolve_right ?_, fun hx => hall List.not_mem_nil (.inl hx)⟩
  rintro ⟨y, bound, -, hbound, hx⟩
  rw [(hclosed y bound hbound).1] at hx
  cases hx

/-- **A binder captures what is put under it**: the key of a mapped type, or the parameter of a generic.  A call whose argument
is a reference to a name that the context does not bind loses it so. -/
theorem substitution_captures :
    let mapping : Node := .mapped ⟨"K", .text "a", .text "a"⟩ (.reference "T") none
    let generic : Node := .generic [⟨"K", .unknown, .unknown⟩] (.array (.reference "T"))
    let bindings : Fields Node := [("T", .reference "K")]
    bindings.get? "T" = some (.reference "K") ∧ "K" ∈ (Node.reference "K").free ∧
      (∀ n ∈ [mapping, generic], "T" ∈ n.free ∧ "K" ∉ (n.substitute bindings).free) ∧
      instantiate {} [("F", .generic [⟨"T", .unknown, .unknown⟩] mapping)] (.call (.reference "F") [.reference "K"]) =
        .done (.object [("a", .text "a")]) := by
  refine ⟨rfl, by decide +kernel, by decide +kernel, by with_unfolding_all rfl⟩

end Node
end Schemata
