import Schemata.Node.References
/-!
# Cycles among definitions

Resolving a reference may lead back to a name that is being resolved.

- `leadsBack path context n` says whether following the references of `n`, reached through the names of `path`, meets
  a name of the path again.  Generics and bundles end a path.
- `isCyclic` asks this of a definition and its own name.
- `chase` follows references until they land on something else.
-/
namespace Schemata

/-! ## Walking references -/

/-- **Follows one name.**  `none` means that a name of the path is met again; otherwise the result is `cleared`, the
names known to lead nowhere back, and what was learnt on the way.  Each step down binds one more name of the context
to the path, so the number of names bounds the depth. -/
def Context.follow (context : Context) : Nat → List String → List String → String → Option (List String)
  | 0, path, cleared, name => if path.contains name then none else some cleared
  | fuel + 1, path, cleared, name =>
    if path.contains name then none
    else if cleared.contains name then some cleared
    else
      match context.get? name with
      | none => some cleared
      | some target =>
        (target.exposed.foldlM (follow context fuel (name :: path)) cleared).map (name :: ·)

/-- **Whether the references of a node lead back** to a name on the path. -/
def leadsBack (path : List String) (context : Context) (n : Node) : Bool :=
  (n.exposed.foldlM (context.follow context.length path) []).isNone

/-- Whether the definition of a name leads back to it, or to a name on the way. -/
def isCyclic (context : Context) (name : String) : Bool :=
  match context.get? name with
  | some n => leadsBack [name] context n
  | none => false

/-! ## Chasing a target -/

/-- Where a chain of references ends. -/
inductive Target where
  /-- At a generic, under the name it is defined by. -/
  | generic (name : String) (parameters : List (Parameter Node)) (body : Node)
  /-- At a definition of another form. -/
  | concrete (n : Node)
  /-- At an unbound name, or nowhere. -/
  | unresolved

/-- Follows at most `fuel` references. -/
def Context.chaseFor (context : Context) : Nat → String → Target
  | 0, _ => .unresolved
  | fuel + 1, name =>
    match context.get? name with
    | none => .unresolved
    | some n =>
      match n.kind with
      | .ref next => chaseFor context fuel next
      | .generic parameters body => .generic name parameters body
      | _ => .concrete n

/-- **Follows a chain of references** to its end.  A chain longer than the context repeats a name and has no end. -/
def chase (context : Context) (name : String) : Target := context.chaseFor context.length name

end Schemata
