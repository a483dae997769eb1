import Schemata.Node.Build
import Schemata.Node.Display
import Schemata.Proofs.Number.Text
import Schemata.Proofs.Text.Quoted
import Schemata.Proofs.Text.Reader
/-!
# Reading type notation

Type notation writes no brackets around composite parts: the arrays of a union and a union that ends in an array look the
same.  It can be read where each part binds at least as tightly as its place asks for, and where names are no other words.

- `Kind.level`: how loosely a form binds.
- `Notation.atom`, `Notation.atLevel`, `Notation.read`: readers of nodes.
- `Node.isLegible`: nodes that have a reading.

What does not show cannot be read.  The definitions of a bundle are looked up by its root, and whether a name before angle
brackets is the target of a call or the beginning of the name of an expansion is told by `called`.
-/
namespace Schemata

/-! ## Words and names -/

namespace Notation

/-- Characters of words: all but those that the notation sets around them. -/
def isWordChar (c : Char) : Bool :=
  !([' ', ',', '<', '>', '[', ']', '(', ')', '\x7b', '\x7d', '"', '\x60', '?', ':'].contains c)

/-- Whether characters are one word.  A point begins the mark of a rest item. -/
def isWord (cs : List Char) : Bool := !cs.isEmpty && cs.head? != some '.' && cs.all isWordChar

/-- What belongs to angle brackets that are open, up to the one that closes the outermost; the arrow of a signature closes
none.  `depth` more are open inside. -/
def closing : Nat → Bool → List Char → Option (List Char × List Char)
  | _, _, [] => none
  | depth, arrow, c :: cs =>
    if c = '>' ∧ arrow = false then
      if depth = 0 then some ([c], cs) else prepend c (closing (depth - 1) false cs)
    else prepend c (closing (if c = '<' then depth + 1 else depth) (c = '=') cs)

/-- A name: a word, or a word and what angle brackets after it hold. -/
def name : Reader String := fun cs =>
  match (cs.dropWhile isWordChar).dropPrefix? ['<'] with
  | some more => (closing 0 false more).map fun (inner, rest) =>
    (String.ofList (cs.takeWhile isWordChar ++ '<' :: inner), rest)
  | none => some (String.ofList (cs.takeWhile isWordChar), cs.dropWhile isWordChar)

def isName (text : String) : Bool := name text.toList == some (text, [])

def primitives : List Primitive :=
  [.any, .unknown, .never, .string, .number, .integer, .boolean, .bigInt, .null, .undefined, .void, .symbol]

/-- What a word means that is no name. -/
def meaning? (word : String) : Option (Kind Node) :=
  match Number.ofText? word with
  | some x => if x.toKey = word then some (.literal (.number x)) else none
  | none =>
    if word = "true" then some (.literal (.boolean true))
    else if word = "false" then some (.literal (.boolean false))
    else (primitives.find? (·.word = word)).map .primitive

/-- Words that begin something else than a name. -/
def isReserved (word : String) : Bool := (meaning? word).isSome || word == "cyclic" || word == "new"

def wrapper? (word : String) : Option Wrapper := [.promise, .iterator, .asyncIterator].find? (·.word = word)

def operator? (word : String) : Option Operator :=
  [.pick, .omit, .allOptional, .allRequired, .allReadonly, .allWritable, .keyOf, .index, .evaluate, .exclude, .extract,
    .awaited, .capitalize, .uncapitalize, .uppercase, .lowercase, .returnType, .parameters, .constructorParameters,
    .instanceType, .nonNullable, .record, .mapped, .conditional, .templateLiteral, .interface, .inlineModule].find?
    (·.word = word)

/-- Whether a word before angle brackets is the name of a generic. -/
def isGenericName (word : String) : Bool := (wrapper? word).isNone && (operator? word).isNone

/-! ## Readers -/

abbrev comma : List Char := [',', ' ']

/-- A value behind a mark, or another one where the mark does not stand. -/
def optional {α : Type} (mark : List Char) (item : Reader α) (x : α) : Reader α := fun cs =>
  match cs.dropPrefix? mark with
  | some rest => item rest
  | none => some (x, cs)

/-- What stands behind a comma. -/
def behindComma {α : Type} (item : Reader α) : Reader α := fun cs => (cs.dropPrefix? comma).bind item

section
variable (item : Reader Node) (count : Nat)

/-- An item of a tuple, and whether it is marked as the rest. -/
def element : Reader (Bool × Node) := fun cs =>
  match item cs with
  | some (n, rest) => some ((false, n), rest)
  | none => do
    let (n, rest) ← item (← cs.dropPrefix? "...".toList)
    return ((true, n), rest)

def property : Reader (String × Node) := fun cs => do
  let (readonly, cs) ← optional "readonly ".toList (fun cs => some (true, cs)) false cs
  let (optional, rest) ← optional ['?'] (fun cs => some (true, cs)) false (cs.dropWhile isWordChar)
  let (n, rest) ← item (← rest.dropPrefix? ": ".toList)
  return ((String.ofList (cs.takeWhile isWordChar), n.withModifiers { optional, readonly }), rest)

def parameter : Reader (Parameter Node) := fun cs => do
  let word := cs.takeWhile isWordChar
  if word.isEmpty then none
  let (constraint, rest) ← optional " extends ".toList item .unknown (cs.dropWhile isWordChar)
  let (default, rest) ← optional " = ".toList item constraint rest
  return (⟨String.ofList word, constraint, default⟩, rest)

/-- What stands in braces: properties, or else the types of keys and of values. -/
def braces : Reader Node := fun cs =>
  match cs.dropPrefix? ['\x7d'] with
  | some rest => some (.of (.object []), rest)
  | none => do
    let cs ← cs.dropPrefix? [' ']
    match Reader.separated comma (property item) count cs with
    | some (properties, rest) => return (.of (.object properties), ← rest.dropPrefix? " \x7d".toList)
    | none =>
      let (key, rest) ← item (← cs.dropPrefix? "[key: ".toList)
      let (value, rest) ← item (← rest.dropPrefix? "]: ".toList)
      return (.dictionary key value, ← rest.dropPrefix? " \x7d".toList)

def items (close : Char) : Reader (List Node) := Reader.enclosed close (Reader.separated comma item count)

def signature (make : List Node → Node → Node) : Reader Node := fun cs => do
  let (parameters, rest) ← items item count ')' cs
  let (result, rest) ← item (← rest.dropPrefix? " => ".toList)
  return (make parameters result, rest)

def generic : Reader Node := fun cs => do
  let (parameters, rest) ← Reader.enclosed '>' (Reader.separated comma (parameter item) count) cs
  let (body, rest) ← item (← rest.dropPrefix? [' '])
  return (.generic parameters body, rest)

/-- Characters of the texts of a template. -/
def isTemplateChar (c : Char) : Bool := c != '\x60' && c != '$'

/-- The pieces of a template up to its end, at most as many as the first argument says. -/
def fragments : Nat → Reader (List Node)
  | 0, _ => none
  | left + 1, cs =>
    match cs.dropPrefix? ['\x60'], cs.dropPrefix? "$\x7b".toList with
    | some rest, _ => some ([], rest)
    | none, some rest => do
      let (n, rest) ← item rest
      let (ns, rest) ← fragments left (← rest.dropPrefix? ['\x7d'])
      return (n :: ns, rest)
    | none, none => do
      let text := cs.takeWhile isTemplateChar
      if text.isEmpty then none
      let (ns, rest) ← fragments left (cs.dropWhile isTemplateChar)
      return (.text (String.ofList text) :: ns, rest)

variable (called : String → Bool) (bundled : String → Fields Node)

/-- What stands in angle brackets after a word. -/
def headed (word : String) : Reader Node := fun cs =>
  match wrapper? word, operator? word with
  | some w, _ => do
    let (n, rest) ← item cs
    return (.wrapper w n, ← rest.dropPrefix? ['>'])
  | none, some .mapped => do
    let (key, rest) ← parameter item cs
    let (rest, cs) ← Reader.enclosed '>' (behindComma (Reader.separated comma item count)) rest
    return (.deferred .mapped (.parameter key :: rest), cs)
  | none, some operator => (items item count '>' cs).map fun (operands, rest) => (.deferred operator operands, rest)
  | none, none =>
    if called word then (items item count '>' cs).map fun (arguments, rest) => (.call (.reference word) arguments, rest)
    else (closing 0 false cs).map fun (inner, rest) => (.reference (word ++ String.ofList ('<' :: inner)), rest)

/-- What begins with a word. -/
def worded : Reader Node := fun cs =>
  let word := cs.takeWhile isWordChar
  let rest := cs.dropWhile isWordChar
  if !isWord word then none
  else
    match rest.dropPrefix? ['<'] with
    | some more => headed item count called (String.ofList word) more
    | none =>
      if String.ofList word = "cyclic" then do
        let (root, rest) ← name (← rest.dropPrefix? [' '])
        return (.cyclic (bundled root) root, rest)
      else if String.ofList word = "new" then do signature item count .constructor (← rest.dropPrefix? " (".toList)
      else some (.of ((meaning? (String.ofList word)).getD (.ref (String.ofList word))), rest)

/-- **A form without an operator** before or after it. -/
def atom : Reader Node
  | [] => none
  | c :: cs =>
    if c = '"' then (unquote? none cs).map fun (text, rest) => (.text (String.ofList text), rest)
    else if c = '[' then (Reader.enclosed ']' (Reader.separated comma (element item) count) cs).map fun (xs, rest) =>
      (.of (.tuple (xs.map Prod.snd) (xs.any Prod.fst)), rest)
    else if c = '\x7b' then braces item count cs
    else if c = '(' then signature item count .function cs
    else if c = '<' then generic item count cs
    else if c = '\x60' then (fragments item (count + 1) cs).map fun (ns, rest) => (.templatePattern ns, rest)
    else worded item count called bundled (c :: cs)

end

/-- An item and the brackets after it that make it an array. -/
def suffixed : Node → List Char → Node × List Char
  | n, '[' :: ']' :: cs => suffixed (.array n) cs
  | n, cs => (n, cs)

def arrays (atom : Reader Node) : Reader Node := fun cs => (atom cs).map fun (n, rest) => suffixed n rest

/-- What an operator joins, or the only part. -/
def joined (separator : List Char) (make : List Node → Node) (item : Reader Node) (count : Nat) : Reader Node := fun cs =>
  (Reader.separated separator item count cs).map fun (ns, rest) =>
    (match ns with
      | [n] => n
      | ns => make ns, rest)

/-- **What binds at least as tightly as a level says.** -/
def atLevel (atom : Reader Node) (count : Nat) : Nat → Reader Node
  | 0 => atom
  | 1 => arrays atom
  | 2 => joined " & ".toList .intersect (arrays atom) count
  | _ => joined " | ".toList .union (joined " & ".toList .intersect (arrays atom) count) count

/-- **Reads a form** with at most `fuel` forms inside of each other and next to each other. -/
def read (called : String → Bool) (bundled : String → Fields Node) : Nat → Reader Node
  | 0 => fun _ => none
  | fuel + 1 => atom (atLevel (read called bundled fuel) fuel 4) fuel called bundled

end Notation

/-! ## What can be read -/

open Notation

/-- **How loosely a form binds**: not at all, as an array, as an intersection, as a union, or up to the end of its place.
Parameters stand in lists of their own. -/
def Kind.level {α : Type} : Kind α → Nat
  | .array _ => 1
  | .intersect _ => 2
  | .union _ => 3
  | .function .. | .constructor .. | .generic .. => 4
  | .parameter _ => 5
  | _ => 0

namespace Node

/-- Whether a part shows without flags where forms up to a level can stand. -/
def suits (level : Nat) (n : Node) : Bool := n.modifiers == .plain && n.kind.level ≤ level

/-- A default may be left out, if it shows as the constraint does. -/
def suitsParameter (p : Parameter Node) : Bool :=
  !p.name.isEmpty && p.name.toList.all isWordChar && p.constraint.suits 4 && p.default.suits 4 &&
    (!(p.default == p.constraint) || p.default.display == p.constraint.display)

/-- Whether pieces can be told apart in a template; with `true` after a text. -/
def suitsTemplate : Bool → List Node → Bool
  | _, [] => true
  | afterText, n :: ns =>
    match n.kind with
    | .literal (.string text) =>
      !afterText && n.modifiers == .plain && !text.isEmpty && text.toList.all isTemplateChar && suitsTemplate true ns
    | .literal _ => false
    | _ => n.suits 4 && suitsTemplate false ns

end Node

/-- **Whether the parts of a form suit their places**, and its names are none of the other words. -/
def Kind.isLegible (called : String → Bool) : Kind Node → Bool
  | .primitive _ | .literal _ => true
  | .array item => item.suits 1
  | .tuple items rest => items.all (·.suits 4) && !(rest && items.isEmpty)
  | .object properties => properties.all fun e => e.1.toList.all isWordChar && e.2.kind.level ≤ 4
  | .union variants => 2 ≤ variants.length && variants.all (·.suits 2)
  | .intersect members => 2 ≤ members.length && members.all (·.suits 1)
  | .function parameters result | .constructor parameters result => parameters.all (·.suits 4) && result.suits 4
  | .wrapper _ item => item.suits 4
  | .dictionary key value => key.suits 4 && value.suits 4
  | .ref text =>
    let word := text.toList.takeWhile isWordChar
    isName text && isWord word &&
      (if word = text.toList then !isReserved text else isGenericName (String.ofList word) && !called (String.ofList word))
  | .parameter p => Node.suitsParameter p
  | .generic parameters body => parameters.all Node.suitsParameter && body.suits 4
  | .call target arguments =>
    (match target.kind with
      | .ref word => target.modifiers == .plain && isWord word.toList && isGenericName word && called word
      | _ => false) && arguments.all (·.suits 4)
  | .deferred .mapped operands options =>
    options.isEmpty && match operands with
      | key :: rest =>
        key.modifiers == .plain && key.kind.level == 5 && rest.all (·.suits 4)
      | [] => false
  | .deferred _ operands options => options.isEmpty && operands.all (·.suits 4)
  | .cyclic _ root => isName root
  | .templatePattern fragments => Node.suitsTemplate false fragments

namespace Node

/-- **Whether a node can be read from its type notation**: nothing of it is hidden but the definitions of bundles, and all
its parts suit their places. -/
def isLegible (called : String → Bool) (n : Node) : Bool :=
  n.annotations.isEmpty && n.kind.isLegible called && n.children.attach.all fun ⟨c, _⟩ => c.isLegible called
termination_by n.size
decreasing_by exact size_lt_of_mem_children ‹_›

theorem isLegible_iff {called : String → Bool} {n : Node} : n.isLegible called = true ↔
    n.annotations = [] ∧ n.kind.isLegible called = true ∧ ∀ c ∈ n.children, c.isLegible called = true := by
  rw [isLegible]
  simp [and_assoc]

/-- The bundles that a node shows by their roots. -/
def bundlesShown (n : Node) : List (String × Fields Node) :=
  match n.kind with
  | .cyclic definitions root => [(root, definitions)]
  | _ => n.children.attach.flatMap fun ⟨c, _⟩ => c.bundlesShown
termination_by n.size
decreasing_by exact size_lt_of_mem_children ‹_›

end Node
end Schemata
