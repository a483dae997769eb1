import Schemata.Json.Document
/-!
# Documents and their tokens

A document is read back from its tokens, whatever it holds: members may repeat their names, and strings may have no text.

- `Document.tokens`: the tokens of a document.

Main statement: `Document.ofTokens?_tokens`.
-/
namespace Schemata
namespace Document

mutual
/-- **The tokens of a document.** -/
def tokens : Document → List Token
  | .null => [.null]
  | .boolean b => [.boolean b]
  | .number n => [.number n]
  | .string s => [.string s]
  | .array [] => [.openArray, .closeArray]
  | .array (d :: ds) => .openArray :: (d.tokens ++ itemTokens ds)
  | .object [] => [.openObject, .closeObject]
  | .object ((s, d) :: rest) => .openObject :: .string s :: .colon :: (d.tokens ++ memberTokens rest)

/-- The tokens of further items and of the end of an array. -/
def itemTokens : List Document → List Token
  | [] => [.closeArray]
  | d :: ds => .comma :: (d.tokens ++ itemTokens ds)

/-- The tokens of further members and of the end of an object. -/
def memberTokens : List (Option String × Document) → List Token
  | [] => [.closeObject]
  | (s, d) :: rest => .comma :: .string s :: .colon :: (d.tokens ++ memberTokens rest)
end

namespace Reading

/-- Some tokens are fed one by one. -/
def feedAll? (r : Reading) (tokens : List Token) : Option Reading := tokens.foldlM feed? r

theorem feedAll?_cons {r : Reading} {token : Token} {tokens : List Token} :
    r.feedAll? (token :: tokens) = (r.feed? token).bind (feedAll? · tokens) := List.foldlM_cons

theorem feedAll?_append {r next : Reading} {tokens : List Token} (h : r.feedAll? tokens = some next)
    (more : List Token) : r.feedAll? (tokens ++ more) = next.feedAll? more := by
  rw [feedAll?, List.foldlM_append, ← feedAll?, h]
  rfl

/-- A document does not begin with the end of an array, so that the first item of one is read like any other. -/
theorem feedAll?_firstItem (around : List Open) (d : Document) (more : List Token) :
    (firstItem around).feedAll? (d.tokens ++ more) = (value (.item [] :: around)).feedAll? (d.tokens ++ more) := by
  cases d with
  | array items => cases items <;> rw [tokens] <;> rfl
  | object members => cases members <;> rw [tokens] <;> rfl
  | _ =>
    rw [tokens]
    rfl

mutual
/-- **The tokens of a document lead from before it to after it.** -/
theorem feedAll?_tokens (around : List Open) : ∀ d : Document, (value around).feedAll? d.tokens = some (after around d)
  | .null | .boolean _ | .number _ | .string _ | .array [] | .object [] => by rw [tokens]; rfl
  | .array (d :: ds) => by
    have hd := feedAll?_tokens (.item [] :: around) d
    have hds := feedAll?_itemTokens around [] d ds
    rw [tokens, feedAll?_cons]
    show (firstItem around).feedAll? (d.tokens ++ itemTokens ds) = _
    rw [feedAll?_firstItem, feedAll?_append hd, hds]
    rfl
  | .object ((s, d) :: rest) => by
    have hd := feedAll?_tokens (.member [] s :: around) d
    have hrest := feedAll?_memberTokens around [] s d rest
    rw [tokens, feedAll?_cons]
    show (value (.member [] s :: around)).feedAll? (d.tokens ++ memberTokens rest) = _
    rw [feedAll?_append hd, hrest]
    rfl

/-- Further items are added, and the array is closed. -/
theorem feedAll?_itemTokens (around : List Open) (items : List Document) (last : Document) :
    ∀ ds : List Document, (after (.item items :: around) last).feedAll? (itemTokens ds) =
      some (after around (.array ((last :: items).reverse ++ ds)))
  | [] => by
    rw [itemTokens, List.append_nil]
    rfl
  | d :: ds => by
    have hd := feedAll?_tokens (.item (last :: items) :: around) d
    have hds := feedAll?_itemTokens around (last :: items) d ds
    rw [itemTokens, feedAll?_cons]
    show (value (.item (last :: items) :: around)).feedAll? (d.tokens ++ itemTokens ds) = _
    rw [feedAll?_append hd, hds, List.reverse_cons, List.append_assoc]
    rfl

/-- Further members are added, and the object is closed. -/
theorem feedAll?_memberTokens (around : List Open) (members : List (Option String × Document)) (name : Option String)
    (last : Document) : ∀ rest : List (Option String × Document),
      (after (.member members name :: around) last).feedAll? (memberTokens rest) =
        some (after around (.object (((name, last) :: members).reverse ++ rest)))
  | [] => by
    rw [memberTokens, List.append_nil]
    rfl
  | (s, d) :: rest => by
    have hd := feedAll?_tokens (.member ((name, last) :: members) s :: around) d
    have hrest := feedAll?_memberTokens around ((name, last) :: members) s d rest
    rw [memberTokens, feedAll?_cons]
    show (value (.member ((name, last) :: members) s :: around)).feedAll? (d.tokens ++ memberTokens rest) = _
    rw [feedAll?_append hd, hrest, List.reverse_cons, List.append_assoc]
    rfl
end

end Reading

/-- **A document is read back from its tokens.** -/
theorem ofTokens?_tokens (d : Document) : ofTokens? d.tokens = some d := by
  rw [ofTokens?, ← Reading.feedAll?, Reading.feedAll?_tokens]
  rfl

end Document
end Schemata
