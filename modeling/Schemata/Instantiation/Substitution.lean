import Schemata.Node.Basic
/-!
# Substitution

`n.substitute bindings` puts bound nodes in the place of free references, all at once.  A generic hides its parameters
in its constraints, defaults and body; the key of a mapped type hides its name in the other operands; a bundle is
closed.
-/
namespace Schemata
namespace Node

/-- The name that a node binds as the key of a mapped type. -/
def boundKey (n : Node) : List String :=
  match n.kind with
  | .parameter p => [p.name]
  | _ => []

/-- **Replaces free references by what they are bound to.**  What replaces a reference inherits its flags and
annotations. -/
def substitute (bindings : Fields Node) (n : Node) : Node :=
  match _h : n.kind with
  | .ref name =>
    match bindings.get? name with
    | some bound => bound.inherit n
    | none => n
  | .cyclic .. => n
  | .generic parameters _ =>
    let inner := bindings.without (parameters.map (·.name))
    n.rebuild (n.kind.mapParts fun c _ => c.substitute inner)
  | .deferred .mapped (key :: rest) options =>
    let inner := bindings.without key.boundKey
    n.rebuild (.deferred .mapped (key.substitute bindings :: rest.attach.map fun ⟨c, _⟩ => c.substitute inner) options)
  | _ => n.rebuild (n.kind.mapParts fun c _ => c.substitute bindings)
termination_by n.size
decreasing_by
  all_goals apply size_lt_of_mem_parts
  · assumption
  · simp [_h, Kind.parts]
  · rw [_h]; exact List.mem_cons_of_mem _ ‹_›
  · assumption

theorem substitute_eq (bindings : Fields Node) (n : Node) : n.substitute bindings =
    match n.kind with
    | .ref name =>
      match bindings.get? name with
      | some bound => bound.inherit n
      | none => n
    | .cyclic .. => n
    | .generic parameters _ => n.rebuild (n.kind.map (substitute (bindings.without (parameters.map (·.name)))))
    | .deferred .mapped (key :: rest) options =>
      n.rebuild (.deferred .mapped
        (key.substitute bindings :: rest.map (substitute (bindings.without key.boundKey))) options)
    | _ => n.rebuild (n.kind.map (substitute bindings)) := by
  rw [substitute]; split <;> simp_all [Kind.mapParts_eq_map]

end Node
end Schemata
