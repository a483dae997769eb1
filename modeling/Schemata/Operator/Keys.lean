import Schemata.Operator.Properties
import Schemata.Template.Expansion
/-!
# Keys

A key operand denotes names (`literalKeys`) or a space of keys, finite or not (`keySpace`); the other way round, a type
has a domain of keys (`keyDomain`).  Choosing properties and building records start from keys.
-/
namespace Schemata

/-! ## Names -/

mutual
/-- **The names that a key operand denotes.** -/
def literalKeys (s : Setting) : Node → Outcome (Option (List String))
  | ⟨.literal l, _, _⟩ => pure (some [l.toKey])
  | ⟨.primitive .never, _, _⟩ => pure (some [])
  | ⟨.union variants, _, _⟩ => literalKeysAll s variants
  | n =>
    match n.kind with
    | .templatePattern fragments =>
      match expand s.templateLimit fragments with
      | .finite names => pure (some names)
      | .unresolved => pure none
      | .unbounded => s.mismatch .finiteKeys n
    | _ => if n.isUnresolved then pure none else s.mismatch .literalKeys n

/-- The names that key operands denote, one after the other. -/
def literalKeysAll (s : Setting) : List Node → Outcome (Option (List String))
  | [] => pure (some [])
  | n :: ns => do
    match ← literalKeys s n with
    | none => pure none
    | some names => return (← literalKeysAll s ns).map (names ++ ·)
end

/-- Keeps the properties whose names are, or are not, among the keys. -/
def selectProperties (s : Setting) (keep : Bool) : List Node → Outcome (Option Node)
  | [subject, keys] => do
    match ← literalKeys s keys with
    | none => pure none
    | some names => changeProperties s (fun properties => properties.filter fun e => names.contains e.1 == keep) subject
  | operands => s.wrongArity (.exactly 2) operands

/-! ## Domains -/

mutual
/-- The branches of a node as a union, flags aside, without `never`. -/
def branchesOpened : Node → List Node
  | ⟨.union variants, _, _⟩ => branchesOpenedAll variants
  | ⟨.primitive .never, _, _⟩ => []
  | n => [n]

def branchesOpenedAll : List Node → List Node
  | [] => []
  | n :: ns => branchesOpened n ++ branchesOpenedAll ns
end

/-- The keys that every domain has, in the order of the first. -/
def commonKeys : List Node → Node
  | [] => .never
  | first :: rest =>
    let others := rest.map branchesOpened
    .unionOf ((branchesOpened first).filter fun key => others.all fun other => other.any (· == key))

def keysLeaf (n : Node) : Outcome (Option Node) :=
  match n.kind with
  | .primitive .any | .primitive .never => pure (some (.union [.string, .number, .symbol]))
  | .dictionary key _ => pure (some key)
  | .array _ | .tuple _ true => pure (some .number)
  | .tuple items false => pure (some (.unionOf ((List.range items.length).map Node.natural)))
  | _ =>
    match collapse n with
    | .properties properties => pure (some (.unionOf (properties.names.map Node.text)))
    | .unresolved => pure none
    | .notObject => pure (some .never)

/-- **The domain of keys**: of a union, the keys common to all variants. -/
def keyDomain (s : Setting) : List Node → Outcome (Option Node)
  | [subject] => s.openSubject commonKeys keysLeaf subject
  | operands => s.wrongArity (.exactly 1) operands

/-! ## Key spaces -/

/-- The keys that a key operand stands for. -/
inductive KeySpace where
  | finite (keys : List Literal)
  | unbounded
  | unresolved

namespace KeySpace

/-- Both key spaces together; what is not known yet wins over what has no end. -/
def join : KeySpace → KeySpace → KeySpace
  | .unresolved, _ | _, .unresolved => .unresolved
  | .unbounded, _ | _, .unbounded => .unbounded
  | .finite keys, .finite more => .finite (keys ++ more)

def once : KeySpace → KeySpace
  | .finite keys => .finite (distinct keys)
  | space => space

end KeySpace

mutual
/-- The key space of an operand, with repetitions. -/
def keysOf (limit : Nat) : Node → KeySpace
  | ⟨.literal l, _, _⟩ => .finite [l]
  | ⟨.primitive .never, _, _⟩ => .finite []
  | ⟨.union variants, _, _⟩ => keysOfAll limit variants
  | ⟨.templatePattern fragments, _, _⟩ =>
    match expand limit fragments with
    | .finite names => .finite (names.map Literal.string)
    | .unbounded => .unbounded
    | .unresolved => .unresolved
  | n => if n.isUnresolved then .unresolved else .unbounded

/-- The key space of several operands, with repetitions. -/
def keysOfAll (limit : Nat) : List Node → KeySpace
  | [] => .finite []
  | n :: ns => (keysOf limit n).join (keysOfAll limit ns)
end

/-- **The key space of an operand.** -/
def keySpace (limit : Nat) (n : Node) : KeySpace := (keysOf limit n).once

/-- **A type for every key**: an object for finitely many, else a dictionary. -/
def recordOf (s : Setting) : List Node → Outcome (Option Node)
  | [key, value] =>
    match keySpace s.templateLimit key with
    | .finite keys => pure (some (.object (keys.map fun l => (l.toKey, value))))
    | .unbounded => pure (some (.dictionary key value))
    | .unresolved => pure none
  | operands => s.wrongArity (.exactly 2) operands

end Schemata
