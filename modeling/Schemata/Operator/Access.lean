import Schemata.Operator.Keys
/-!
# Access by key

Access goes through unions of keys and of subjects, and through bundles.  Arrays and tuples are accessed by numbers,
dictionaries by anything, objects by the names that the key denotes.  An index of a tuple is a machine word of 64 bits.
-/
namespace Schemata

def isNumericKey (key : Node) : Bool :=
  match key.kind with
  | .primitive .number | .primitive .integer | .literal (.number _) => true
  | _ => false

/-- The type of an item of a tuple; a rest item stands for its own items. -/
def elementType (isRest : Bool) (item : Node) : Node :=
  match item.kind, isRest with
  | .array inner, true => inner
  | _, _ => item.bare

def elementTypes (rest : Bool) : List Node → List Node
  | [] => []
  | [item] => [elementType rest item]
  | item :: items => elementType false item :: elementTypes rest items

/-- The index that a key asks for.  Numbers past the greatest machine word ask for that word. -/
def Node.index? (key : Node) : Option UInt64 :=
  match key.kind with
  | .literal (.number x) => x.toNat?.map UInt64.ofNatClamp
  | _ => none

/-- Whether the successor of an index is no machine word. -/
def isLastIndex (index : UInt64) : Bool := index + 1 == 0

/-- The type at an index of a tuple; past a rest item, that of the rest.  The successor of the last index is `0`. -/
def elementAt? (items : List Node) (rest : Bool) (index : UInt64) : Option Node :=
  if rest && items.length ≤ (index + 1).toNat then items.getLast?.map (elementType true)
  else items[index.toNat]?.map (elementType false)

def tupleAccess (s : Setting) (items : List Node) (rest : Bool) (key : Node) : Outcome (Option Node) :=
  match key.index? with
  | some index =>
    match elementAt? items rest index with
    | some n => pure (some n)
    | none => s.mismatch (if rest && isLastIndex index then .wordIndex else .tupleIndex) key
  | none =>
    if isNumericKey key then pure (some (.unionOf (elementTypes rest items))) else s.mismatch .numericIndex key

/-- The types of the named properties; every name has to be one. -/
def propertyTypes (s : Setting) (properties : Fields Node) (key : Node) : List String → Outcome (List Node)
  | [] => pure []
  | name :: names =>
    match properties.get? name with
    | some n => return n.bare :: (← propertyTypes s properties key names)
    | none => s.mismatch .subjectKey key

/-- Access to an object or to an intersection of objects. -/
def propertyAccess (s : Setting) (n key : Node) : Outcome (Option Node) :=
  match collapse n with
  | .properties properties => do
    match ← literalKeys s key with
    | none => pure none
    | some names => return some (.unionOf (← propertyTypes s properties key names))
  | .unresolved => pure none
  | .notObject => s.mismatch .indexableType n

def indexLeaf (s : Setting) (key n : Node) : Outcome (Option Node) :=
  match n.kind with
  | .primitive .any => pure (some .any)
  | .primitive .never => pure (some .never)
  | .dictionary _ value => pure (some value)
  | .array item => if isNumericKey key then pure (some item) else propertyAccess s n key
  | .tuple items rest => tupleAccess s items rest key
  | _ => propertyAccess s n key

mutual
def indexBy (s : Setting) (subject : Node) : Node → Outcome (Option Node)
  | ⟨.union keys, _, _⟩ => do return (← indexByEach s subject keys).map Node.unionOf
  | key =>
    if key.isUnresolved then pure none
    else s.openSubject Node.unionOf (indexLeaf s key) subject

def indexByEach (s : Setting) (subject : Node) : List Node → Outcome (Option (List Node))
  | [] => pure (some [])
  | key :: keys => do
    match ← indexBy s subject key with
    | none => pure none
    | some n => return (← indexByEach s subject keys).map (n :: ·)
end

/-- **Access by key.** -/
def indexAccess (s : Setting) : List Node → Outcome (Option Node)
  | [subject, key] => indexBy s subject key
  | operands => s.wrongArity (.exactly 2) operands

end Schemata
