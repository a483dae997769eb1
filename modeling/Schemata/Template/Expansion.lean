import Schemata.Node.Display
import Schemata.Distinct
/-!
# Expansion of templates

A template is a list of fragments, each of which stands for some texts.  `expand limit fragments` lists all texts of a
template in the order of the choices, first fragment first.

- A fragment that is not known yet makes the template `unresolved`, whatever else it holds.
- Otherwise a fragment with infinitely many texts makes it `unbounded`, and so does a product above the limit.
-/
namespace Schemata

/-- The texts that a template stands for. -/
inductive Expansion where
  /-- All texts, in order. -/
  | finite (values : List String)
  /-- Infinitely many, or more than the limit. -/
  | unbounded
  /-- Some fragment is not known yet. -/
  | unresolved
  deriving DecidableEq

namespace Expansion

/-- The texts, when they are listed. -/
def values? : Expansion → Option (List String)
  | .finite values => some values
  | _ => none

/-- **Joins what several parts stand for**, when all of it is listed. -/
def join (f : List (List String) → Expansion) (parts : List Expansion) : Expansion :=
  if parts.contains .unresolved then .unresolved
  else if parts.contains .unbounded then .unbounded
  else f (parts.filterMap values?)

/-- One more fragment: every text so far followed by every text of the fragment, unless that is too many. -/
def append? (limit : Nat) (texts values : List String) : Option (List String) :=
  if limit < texts.length * values.length then none else some (texts.flatMap fun t => values.map (t ++ ·))

def product (limit : Nat) (parts : List (List String)) : Expansion :=
  match parts.foldlM (append? limit) [""] with
  | some texts => .finite texts
  | none => .unbounded

end Expansion

mutual
def Node.texts (limit : Nat) : Node → Expansion
  | ⟨.literal l, _, _⟩ => .finite [l.toKey]
  | ⟨.primitive .boolean, _, _⟩ => .finite ["true", "false"]
  | ⟨.primitive .never, _, _⟩ => .finite []
  | ⟨.primitive .null, _, _⟩ => .finite ["null"]
  | ⟨.primitive .undefined, _, _⟩ => .finite ["undefined"]
  | ⟨.union variants, _, _⟩ => Expansion.join (fun parts => .finite (distinct parts.flatten)) (textsEach limit variants)
  | ⟨.templatePattern fragments, _, _⟩ => Expansion.join (Expansion.product limit) (textsEach limit fragments)
  | ⟨.ref _, _, _⟩ | ⟨.call .., _, _⟩ | ⟨.deferred .., _, _⟩ | ⟨.parameter _, _, _⟩ => .unresolved
  | _ => .unbounded

def textsEach (limit : Nat) : List Node → List Expansion
  | [] => []
  | n :: ns => n.texts limit :: textsEach limit ns
end

/-- **The texts of a template**, `limit` at most. -/
def expand (limit : Nat) (fragments : List Node) : Expansion :=
  Expansion.join (Expansion.product limit) (textsEach limit fragments)

end Schemata
