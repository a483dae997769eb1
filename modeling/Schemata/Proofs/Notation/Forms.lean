import Schemata.Proofs.Node.Parts
import Schemata.Proofs.Notation.Words
/-!
# Forms are read

Each form of a node is read from its type notation, as long as its parts are.

- `Node.chars`: the characters of a node in type notation.
- `Notation.gets_literal`, `gets_tuple`, `gets_object` and so on: one statement for each form without an operator.
-/
namespace Schemata

open List (Forall₂)

namespace Node

open Notation

/-- The characters of a node in type notation. -/
def chars (n : Node) : List Char := n.display.toList

theorem displayAll_eq (ns : List Node) : displayAll ns = ns.map display := by
  induction ns with
  | nil => rfl
  | cons n ns ih => rw [displayAll, ih, List.map_cons]

theorem displayProperties_eq (properties : List (String × Node)) : displayProperties properties =
    properties.map fun e => displayName e.1 e.2.modifiers ++ ": " ++ e.2.display := by
  induction properties with
  | nil => rfl
  | cons e properties ih => rw [displayProperties, ih, List.map_cons]

theorem displayParameters_eq (ps : List (Parameter Node)) : displayParameters ps = ps.map displayParameter := by
  induction ps with
  | nil => rfl
  | cons p ps ih => rw [displayParameters, ih, List.map_cons]

/-- The items of a tuple with the mark of a rest item. -/
def marked (rest : Bool) : List Node → List (Bool × Node)
  | [] => []
  | [n] => [(rest, n)]
  | n :: ns => (false, n) :: marked rest ns

theorem displayItems_eq (rest : Bool) (ns : List Node) :
    displayItems rest ns = (marked rest ns).map fun e => (if e.1 then "..." else "") ++ e.2.display := by
  fun_induction marked with
  | case1 => rfl
  | case2 n => rfl
  | case3 n ns hns ih => simp [displayItems, ih]

theorem map_snd_marked (rest : Bool) (ns : List Node) : (marked rest ns).map Prod.snd = ns := by
  fun_induction marked with
  | case1 => rfl
  | case2 n => rfl
  | case3 n ns hns ih => rw [List.map_cons, ih]

theorem any_fst_marked (rest : Bool) (ns : List Node) : (marked rest ns).any Prod.fst = (rest && !ns.isEmpty) := by
  fun_induction marked with
  | case1 => cases rest <;> rfl
  | case2 n => cases rest <;> rfl
  | case3 n ns hns ih =>
    have hsome : ns.isEmpty = false := by simpa using hns
    rw [List.any_cons, ih, hsome]
    rfl

theorem toList_intercalate_displayAll (separator : String) (ns : List Node) :
    (separator.intercalate (displayAll ns)).toList = separator.toList.intercalate (ns.map chars) := by
  rw [String.toList_intercalate, displayAll_eq, List.map_map]
  rfl

theorem chars_eq (n : Node) : n.chars = (displayKind n.kind).toList := by
  obtain ⟨k, f, a⟩ := n
  simp only [chars, display]

theorem eq_of_suits {n : Node} (h : n.suits level = true) : n.bare = n ∧ n.kind.level ≤ level := by
  obtain ⟨k, f, a⟩ := n
  simp only [suits, Bool.and_eq_true, beq_iff_eq, decide_eq_true_eq] at h
  obtain ⟨rfl, hlevel⟩ := h
  exact ⟨rfl, hlevel⟩

end Node

namespace Notation

open Node (chars)

variable {called : String → Bool} {bundled : String → Fields Node} {ns : List Node} {close : Char}

/-! ## Lists -/

theorem stops_comma (s : List Char) : Stops 4 (comma ++ s) := stops_cons (by simp) (' ' :: s)

variable {item : Reader Node} {count : Nat} {after : List Char → Prop}

theorem forall₂_gets (h : ∀ n ∈ ns, item.Gets n.chars n after) : Forall₂ (item.Gets · · after) (ns.map chars) ns :=
  List.forall₂_map_left_iff.2 (List.forall₂_same.2 h)

/-- Marks at which no form begins. -/
def Barren (item : Reader Node) : Prop := ∀ c ∈ ['.', ']', ')', '>'], ∀ s, item (c :: s) = none

theorem gets_items (hbarren : Barren item) (hclose : close ∈ [')', '>']) (h : ∀ n ∈ ns, item.Gets n.chars n (Stops 4))
    (hcount : ns.length ≤ count) :
    (items item count close).Gets (comma.intercalate (ns.map chars) ++ [close]) ns fun _ => True := by
  have hmark : close ∈ [',', ']', ')', '>', '\x7d'] ∧ close ∈ ['.', ']', ')', '>'] ∧ ',' ≠ close := by
    simp only [List.mem_cons, List.not_mem_nil, or_false] at hclose
    rcases hclose with rfl | rfl <;> decide
  refine Reader.gets_enclosed_separated (forall₂_gets h) hcount stops_comma (fun s => ⟨stops_cons hmark.1 s, ?_⟩)
    (hbarren close hmark.2.1)
  refine dropPrefix?_eq_none ?_
  rintro _ ⟨⟩
  exact hmark.2.2.symm

/-! ## Forms -/

theorem atom_quotes (cs : List Char) : atom item count called bundled ('"' :: cs) =
    (unquote? none cs).map fun (text, rest) => (.text (String.ofList text), rest) := rfl

theorem atom_brackets (cs : List Char) : atom item count called bundled ('[' :: cs) =
    (Reader.enclosed ']' (Reader.separated comma (element item) count) cs).map fun (xs, rest) =>
      (.of (.tuple (xs.map Prod.snd) (xs.any Prod.fst)), rest) := rfl

theorem atom_braces (cs : List Char) : atom item count called bundled ('\x7b' :: cs) = braces item count cs := rfl

theorem atom_parentheses (cs : List Char) :
    atom item count called bundled ('(' :: cs) = signature item count .function cs := rfl

theorem atom_angles (cs : List Char) : atom item count called bundled ('<' :: cs) = generic item count cs := rfl

theorem atom_template (cs : List Char) : atom item count called bundled ('\x60' :: cs) =
    (fragments item (count + 1) cs).map fun (ns, rest) => (.templatePattern ns, rest) := rfl

/-- **Literals are read from their texts.** -/
theorem gets_literal (l : Literal) : (atom item count called bundled).Gets l.display.toList (.literal l) (Stops 0) := by
  cases l with
  | string text =>
    intro s _
    have hchars : (quoted text).toList ++ s = '"' :: (text.toList.flatMap quoteChar ++ '"' :: s) := by simp [quoted]
    rw [Literal.display, hchars, atom_quotes, unquote?_quoted, Option.map_some]
    dsimp only
    rw [String.ofList_toList]
    rfl
  | number x => exact gets_meaning (isWord_toKey x) (meaning?_toKey x)
  | boolean b => exact gets_meaning (by cases b <;> decide) (meaning?_truth b)

theorem gets_primitive (p : Primitive) : (atom item count called bundled).Gets p.word.toList (.primitive p) (Stops 0) :=
  gets_meaning (isWord_word p) (meaning?_word p)

theorem gets_element (hbarren : Barren item) {e : Bool × Node} (h : item.Gets e.2.chars e.2 (Stops 4)) :
    (element item).Gets ((if e.1 then "..." else "").toList ++ e.2.chars) e (Stops 4) := by
  obtain ⟨rest, n⟩ := e
  intro s hs
  cases rest with
  | false => simp [element, h s hs]
  | true =>
    have hnone : item ("...".toList ++ (n.chars ++ s)) = none := hbarren '.' (by decide) _
    simp only [element, if_true, List.append_assoc, hnone, dropPrefix?_append, Option.bind_eq_bind, Option.bind_some, h s hs]
    rfl

theorem gets_tuple (hbarren : Barren item) {rest : Bool} (hrest : (rest && ns.isEmpty) = false)
    (h : ∀ n ∈ ns, item.Gets n.chars n (Stops 4)) (hcount : ns.length ≤ count) :
    (atom item count called bundled).Gets (Node.displayKind (.tuple ns rest)).toList (.of (.tuple ns rest)) (Stops 0) := by
  have hitems : Forall₂ ((element item).Gets · · (Stops 4))
      ((Node.marked rest ns).map fun e => (if e.1 then "..." else "").toList ++ e.2.chars) (Node.marked rest ns) := by
    refine List.forall₂_map_left_iff.2 (List.forall₂_same.2 fun e he => gets_element hbarren (h e.2 ?_))
    rw [← Node.map_snd_marked rest ns]
    exact List.mem_map_of_mem he
  have hlength : (Node.marked rest ns).length = ns.length := by
    rw [← List.length_map (f := Prod.snd), Node.map_snd_marked]
  have hread := Reader.gets_enclosed_separated hitems (hlength ▸ hcount) stops_comma
    (fun s => ⟨stops_cons (c := ']') (by decide) s, dropPrefix?_eq_none (by rintro _ ⟨⟩; decide)⟩) fun s => by
      have hnone : item (']' :: s) = none := hbarren ']' (by decide) s
      have hmark : (']' :: s).dropPrefix? "...".toList = none := dropPrefix?_eq_none (by rintro _ ⟨⟩; decide)
      simp only [element, hnone, hmark]
      rfl
  intro s _
  have hchars : (Node.displayKind (.tuple ns rest)).toList ++ s = '[' :: (comma.intercalate
      ((Node.marked rest ns).map fun e => (if e.1 then "..." else "").toList ++ e.2.chars) ++ [']'] ++ s) := by
    have hshown : Node.displayKind (.tuple ns rest) = "[" ++ ", ".intercalate (Node.displayItems rest ns) ++ "]" := rfl
    simp [hshown, Node.displayItems_eq, String.toList_intercalate, chars, Function.comp_def]
  have hflag : (Node.marked rest ns).any Prod.fst = rest := by
    rw [Node.any_fst_marked]
    revert hrest
    cases rest <;> cases ns.isEmpty <;> simp
  rw [hchars, atom_brackets, hread s trivial, Option.map_some]
  dsimp only
  rw [Node.map_snd_marked, hflag]

/-- A name of word characters does not begin with a word that a blank follows. -/
theorem dropPrefix?_blank {name rest mark : List Char} (hname : ∀ c ∈ name, isWordChar c = true)
    (hrest : ∀ c ∈ rest.head?, isWordChar c = false ∧ c ≠ ' ') (hmark : ∀ c ∈ mark, isWordChar c = true) :
    (name ++ rest).dropPrefix? (mark ++ [' ']) = none := by
  cases hdrop : (name ++ rest).dropPrefix? (mark ++ [' ']) with
  | none => rfl
  | some more =>
    have heq := congrArg (List.dropWhile isWordChar) (eq_append_of_dropPrefix? hdrop)
    have hblank : ∀ c ∈ ([' '] ++ more).head?, isWordChar c = false := by
      rintro _ ⟨⟩
      decide
    rw [dropWhile_append_eq hname fun c hc => (hrest c hc).1, List.append_assoc, dropWhile_append_eq hmark hblank] at heq
    exact absurd rfl (hrest ' ' (heq ▸ rfl)).2

theorem optional_append {α : Type} {item : Reader α} {x : α} {mark : List Char} (rest : List Char) :
    optional mark item x (mark ++ rest) = item rest := by
  simp only [optional, dropPrefix?_append]

theorem optional_of_none {α : Type} {item : Reader α} {x : α} {mark cs : List Char} (h : cs.dropPrefix? mark = none) :
    optional mark item x cs = some (x, cs) := by
  simp only [optional, h]

theorem gets_property {name : String} (hname : ∀ c ∈ name.toList, isWordChar c = true) (n : Node)
    (h : item.Gets n.chars n.bare (Stops 4)) :
    (property item).Gets ((Node.displayName name n.modifiers).toList ++ ": ".toList ++ n.chars) (name, n) (Stops 4) := by
  obtain ⟨kind, ⟨optional, readonly⟩, annotations⟩ := n
  intro s hs
  generalize htext : (⟨kind, ⟨optional, readonly⟩, annotations⟩ : Node).chars = text at h ⊢
  -- The colon comes after the name, with a question mark before it or not.
  have hname' : ∀ c ∈ ((if optional then "?" else "").toList ++ (": ".toList ++ (text ++ s))).head?,
      isWordChar c = false ∧ c ≠ ' ' := by
    cases optional <;> (rintro _ ⟨⟩; decide)
  have hflag : Notation.optional ['?'] (fun cs => some (true, cs)) false
      ((if optional then "?" else "").toList ++ (": ".toList ++ (text ++ s))) =
        some (optional, ": ".toList ++ (text ++ s)) := by
    cases optional with
    | true => exact optional_append _
    | false => exact optional_of_none (dropPrefix?_eq_none (by rintro _ ⟨⟩; decide))
  have hreadonly : Notation.optional "readonly ".toList (fun cs => some (true, cs)) false
      ((if readonly then "readonly " else "").toList ++ (name.toList ++ ((if optional then "?" else "").toList ++
        (": ".toList ++ (text ++ s))))) =
      some (readonly, name.toList ++ ((if optional then "?" else "").toList ++ (": ".toList ++ (text ++ s)))) := by
    cases readonly with
    | true => exact optional_append _
    | false =>
      have hword : "readonly".toList.all isWordChar = true := by decide
      exact optional_of_none (dropPrefix?_blank hname hname' (List.all_eq_true.1 hword))
  simp only [Node.displayName, String.toList_append, List.append_assoc, property, hreadonly, Option.bind_eq_bind,
    Option.bind_some, takeWhile_append_eq hname fun c hc => (hname' c hc).1,
    dropWhile_append_eq hname fun c hc => (hname' c hc).1, hflag, dropPrefix?_append, h s hs, String.ofList_toList]
  rfl

theorem gets_object {properties : List (String × Node)}
    (hnames : ∀ e ∈ properties, ∀ c ∈ e.1.toList, isWordChar c = true)
    (h : ∀ e ∈ properties, item.Gets e.2.chars e.2.bare (Stops 4)) (hcount : properties.length ≤ count) :
    (atom item count called bundled).Gets (Node.displayKind (.object properties)).toList (.of (.object properties))
      (Stops 0) := by
  intro s _
  cases properties with
  | nil =>
    have hshown : Node.displayKind (.object []) = "\x7b\x7d" := rfl
    simp [hshown, atom_braces, braces, List.dropPrefix?]
  | cons e es =>
    generalize hproperties : e :: es = properties at *
    have hread := Reader.gets_separated
      (List.forall₂_map_left_iff.2 (List.forall₂_same.2 fun e he => gets_property (hnames e he) e.2 (h e he)))
      (hproperties ▸ List.cons_ne_nil e es) hcount stops_comma (" \x7d".toList ++ s)
      ⟨stops_blank (by decide) s, dropPrefix?_eq_none (by rintro _ ⟨⟩; decide)⟩
    have hchars : (Node.displayKind (.object properties)).toList ++ s = '\x7b' :: ([' '] ++
        (comma.intercalate (properties.map fun e =>
          (Node.displayName e.1 e.2.modifiers).toList ++ ": ".toList ++ e.2.chars) ++ (" \x7d".toList ++ s))) := by
      subst hproperties
      have hshown : Node.displayKind (.object (e :: es)) =
          "\x7b " ++ ", ".intercalate (Node.displayProperties (e :: es)) ++ " \x7d" := rfl
      simp only [hshown, Node.displayProperties_eq, String.toList_append, String.toList_intercalate, List.map_map,
        Function.comp_def, chars, List.append_assoc]
      rfl
    rw [hchars, atom_braces, braces, dropPrefix?_eq_none (by rintro _ ⟨⟩; decide)]
    simp only [dropPrefix?_append, Option.bind_eq_bind, Option.bind_some, hread]
    rfl

theorem gets_dictionary {key value : Node} (hkey : item.Gets key.chars key (Stops 4))
    (hvalue : item.Gets value.chars value (Stops 4)) :
    (atom item count called bundled).Gets (Node.displayKind (.dictionary key value)).toList (.dictionary key value)
      (Stops 0) := by
  intro s _
  have hchars : (Node.displayKind (.dictionary key value)).toList ++ s = '\x7b' :: ([' '] ++ ("[key: ".toList ++
      (key.chars ++ ("]: ".toList ++ (value.chars ++ (" \x7d".toList ++ s)))))) := by
    have hshown : Node.displayKind (.dictionary key value) =
        "\x7b [key: " ++ key.display ++ "]: " ++ value.display ++ " \x7d" := rfl
    simp only [hshown, String.toList_append, chars, List.append_assoc]
    rfl
  have hnone : Reader.separated comma (property item) count ("[key: ".toList ++ (key.chars ++
      ("]: ".toList ++ (value.chars ++ (" \x7d".toList ++ s))))) = none := Reader.separated_eq_none rfl
  have hkey := hkey ("]: ".toList ++ (value.chars ++ (" \x7d".toList ++ s))) (stops_cons (c := ']') (by decide) _)
  have hvalue := hvalue (" \x7d".toList ++ s) (stops_blank (c := '\x7d') (by decide) _)
  rw [hchars, atom_braces, braces, dropPrefix?_eq_none (by rintro _ ⟨⟩; decide)]
  simp only [dropPrefix?_append, Option.bind_eq_bind, Option.bind_some, hnone, hkey, hvalue]
  rfl

theorem gets_signature (hbarren : Barren item) {make : List Node → Node → Node} {result : Node}
    (h : ∀ n ∈ ns, item.Gets n.chars n (Stops 4)) (hresult : item.Gets result.chars result (Stops 4))
    (hcount : ns.length ≤ count) :
    (signature item count make).Gets (comma.intercalate (ns.map chars) ++ [')'] ++ " => ".toList ++ result.chars)
      (make ns result) (Stops 4) := by
  intro s hs
  have hread := gets_items hbarren (by decide : ')' ∈ [')', '>']) h hcount (" => ".toList ++ (result.chars ++ s)) trivial
  simp only [List.append_assoc] at hread ⊢
  simp only [signature, hread, dropPrefix?_append, Option.bind_eq_bind, Option.bind_some, hresult s hs]
  rfl

theorem gets_function (hbarren : Barren item) {result : Node} (h : ∀ n ∈ ns, item.Gets n.chars n (Stops 4))
    (hresult : item.Gets result.chars result (Stops 4)) (hcount : ns.length ≤ count) :
    (atom item count called bundled).Gets (Node.displayKind (.function ns result)).toList (.function ns result)
      (Stops 4) := by
  intro s hs
  have hchars : (Node.displayKind (.function ns result)).toList ++ s =
      '(' :: (comma.intercalate (ns.map chars) ++ [')'] ++ " => ".toList ++ result.chars ++ s) := by
    have hshown : Node.displayKind (.function ns result) =
        "(" ++ ", ".intercalate (Node.displayAll ns) ++ ") => " ++ result.display := rfl
    simp only [hshown, String.toList_append, Node.toList_intercalate_displayAll, chars, List.append_assoc]
    rfl
  rw [hchars, atom_parentheses, gets_signature hbarren h hresult hcount s hs]

theorem gets_constructor (hbarren : Barren item) {result : Node} (h : ∀ n ∈ ns, item.Gets n.chars n (Stops 4))
    (hresult : item.Gets result.chars result (Stops 4)) (hcount : ns.length ≤ count) :
    (atom item count called bundled).Gets (Node.displayKind (.constructor ns result)).toList (.constructor ns result)
      (Stops 4) := by
  intro s hs
  have hchars : (Node.displayKind (.constructor ns result)).toList ++ s = "new".toList ++ (" (".toList ++
      (comma.intercalate (ns.map chars) ++ [')'] ++ " => ".toList ++ result.chars ++ s)) := by
    have hshown : Node.displayKind (.constructor ns result) =
        "new (" ++ ", ".intercalate (Node.displayAll ns) ++ ") => " ++ result.display := rfl
    simp only [hshown, String.toList_append, Node.toList_intercalate_displayAll, chars, List.append_assoc]
    rfl
  have hstop : Stops 4 (" (".toList ++ (comma.intercalate (ns.map chars) ++ [')'] ++ " => ".toList ++ result.chars ++ s)) :=
    stops_blank (c := '(') (by decide) _
  rw [hchars, atom_stop (by decide) hstop, if_neg (by decide), if_pos rfl, dropPrefix?_append]
  exact gets_signature hbarren h hresult hcount s hs

/-- What can follow a parameter. -/
def EndsParameter (s : List Char) : Prop := ∀ c ∈ s.head?, c = ',' ∨ c = '>'

theorem EndsParameter.stops {s : List Char} (h : EndsParameter s) : Stops 4 s := by
  cases s with
  | nil => exact stops_nil
  | cons c s => exact stops_cons (by rcases h c rfl with rfl | rfl <;> decide) s

theorem EndsParameter.ne_blank {s : List Char} (h : EndsParameter s) : ∀ c ∈ s.head?, c ≠ ' ' := by
  intro c hc
  rcases h c hc with rfl | rfl <;> decide

theorem dropPrefix?_extends (rest : List Char) : (" = ".toList ++ rest).dropPrefix? " extends ".toList = none := by
  simp [List.dropPrefix?]

/-- The characters of the constraint of a parameter; `unknown` is left out. -/
def constraintChars (constraint : Node) : List Char :=
  (if constraint.isPrimitive .unknown then "" else " extends " ++ constraint.display).toList

/-- The characters of the default of a parameter; what equals the constraint is left out. -/
def defaultChars (constraint default : Node) : List Char :=
  (if default == constraint then "" else " = " ++ default.display).toList

theorem stops_default (constraint default : Node) {s : List Char} (hs : EndsParameter s) :
    Stops 4 (defaultChars constraint default ++ s) ∧
      (defaultChars constraint default ++ s).dropPrefix? " extends ".toList = none := by
  unfold defaultChars
  split
  · exact ⟨hs.stops, dropPrefix?_eq_none hs.ne_blank⟩
  · rw [String.toList_append, List.append_assoc]
    exact ⟨stops_blank (c := '=') (by decide) _, dropPrefix?_extends _⟩

theorem optional_default {constraint default : Node} {s : List Char}
    (hconstraint : item.Gets constraint.chars constraint (Stops 4)) (hdefault : item.Gets default.chars default (Stops 4))
    (hshown : (default == constraint) = true → default.display = constraint.display) (hs : EndsParameter s) :
    optional " = ".toList item constraint (defaultChars constraint default ++ s) = some (default, s) := by
  unfold defaultChars
  split
  · -- What looks the same is read as the same.
    have hchars : default.chars = constraint.chars := congrArg String.toList (hshown ‹_›)
    have heq : default = constraint := by
      have h := hdefault [] stops_nil
      rw [hchars, hconstraint [] stops_nil] at h
      exact (Prod.mk.inj (Option.some.inj h)).1.symm
    rw [heq]
    exact optional_of_none (dropPrefix?_eq_none hs.ne_blank)
  · rw [String.toList_append, List.append_assoc, optional_append]
    exact hdefault s hs.stops

theorem optional_constraint {constraint : Node} {s : List Char} (hsuits : constraint.suits 4 = true)
    (hannotations : constraint.annotations = []) (hconstraint : item.Gets constraint.chars constraint (Stops 4))
    (hs : Stops 4 s) (hextends : s.dropPrefix? " extends ".toList = none) :
    optional " extends ".toList item .unknown (constraintChars constraint ++ s) = some (constraint, s) := by
  unfold constraintChars
  split
  · have hunknown : constraint = .unknown := by
      obtain ⟨kind, modifiers, annotations⟩ := constraint
      obtain rfl : annotations = [] := hannotations
      obtain rfl : kind = .primitive .unknown := Node.isPrimitive_iff.1 ‹_›
      obtain rfl : modifiers = .plain := by simpa [Node.suits, Kind.level] using hsuits
      rfl
    rw [hunknown]
    exact optional_of_none hextends
  · rw [String.toList_append, List.append_assoc, optional_append]
    exact hconstraint s hs

theorem head?_constraintChars (constraint : Node) {s : List Char} (hs : Stops 4 s) :
    ∀ c ∈ (constraintChars constraint ++ s).head?, isWordChar c = false := by
  unfold constraintChars
  split
  · exact fun c hc => (not_isWordChar_of_stops hs c hc).1
  · rw [String.toList_append]
    rintro _ ⟨⟩
    decide

theorem gets_parameter {p : Parameter Node} (hp : Node.suitsParameter p = true)
    (hannotations : p.constraint.annotations = [])
    (hconstraint : item.Gets p.constraint.chars p.constraint (Stops 4))
    (hdefault : item.Gets p.default.chars p.default (Stops 4)) :
    (parameter item).Gets (Node.displayParameter p).toList p EndsParameter := by
  obtain ⟨name, constraint, default⟩ := p
  simp only [Node.suitsParameter, Bool.and_eq_true, Bool.or_eq_true, Bool.not_eq_true', beq_iff_eq,
    List.all_eq_true] at hp
  obtain ⟨⟨⟨⟨hsome, hname⟩, hsuits⟩, -⟩, hshown⟩ := hp
  intro s hs
  obtain ⟨hstops, hextends⟩ := stops_default constraint default hs
  have hlast := optional_default hconstraint hdefault (fun h => hshown.resolve_left (by simp [h])) hs
  have hfirst := optional_constraint hsuits hannotations hconstraint hstops hextends
  have hend := head?_constraintChars constraint hstops
  have hword : name.toList.isEmpty = false := by simpa [String.isEmpty_iff] using hsome
  have hchars : (Node.displayParameter ⟨name, constraint, default⟩).toList ++ s =
      name.toList ++ (constraintChars constraint ++ (defaultChars constraint default ++ s)) := by
    simp only [Node.displayParameter, constraintChars, defaultChars, String.toList_append, List.append_assoc]
  simp only [hchars, parameter, takeWhile_append_eq hname hend, dropWhile_append_eq hname hend, hword, hfirst, hlast,
    Option.bind_eq_bind, Option.bind_some, String.ofList_toList]
  rfl

theorem gets_generic {ps : List (Parameter Node)} {body : Node}
    (h : ∀ p ∈ ps, (parameter item).Gets (Node.displayParameter p).toList p EndsParameter)
    (hbody : item.Gets body.chars body (Stops 4)) (hcount : ps.length ≤ count) :
    (atom item count called bundled).Gets (Node.displayKind (.generic ps body)).toList (.generic ps body) (Stops 4) := by
  intro s hs
  have hread := Reader.gets_enclosed_separated (List.forall₂_map_left_iff.2 (List.forall₂_same.2 h)) hcount
    (fun s => (by rintro _ ⟨⟩; exact .inl rfl : EndsParameter (comma ++ s)))
    (fun s => ⟨(by rintro _ ⟨⟩; exact .inr rfl : EndsParameter ('>' :: s)), dropPrefix?_eq_none (by rintro _ ⟨⟩; decide)⟩)
    (fun s => rfl) ([' '] ++ (body.chars ++ s)) trivial
  have hchars : (Node.displayKind (.generic ps body)).toList ++ s =
      '<' :: (comma.intercalate (ps.map fun p => (Node.displayParameter p).toList) ++ ['>'] ++
        ([' '] ++ (body.chars ++ s))) := by
    have hshown : Node.displayKind (.generic ps body) =
        "<" ++ ", ".intercalate (Node.displayParameters ps) ++ "> " ++ body.display := rfl
    simp only [hshown, Node.displayParameters_eq, String.toList_append, String.toList_intercalate, List.map_map,
      List.append_assoc]
    rfl
  rw [hchars, atom_angles, generic]
  simp only [hread, dropPrefix?_append, Option.bind_eq_bind, Option.bind_some, hbody s hs]
  rfl

theorem wrapper?_word (w : Wrapper) : wrapper? w.word = some w := by cases w <;> decide

theorem operator?_word (o : Operator) : operator? o.word = some o := by cases o <;> decide

theorem wrapper?_operator_word (o : Operator) : wrapper? o.word = none := by cases o <;> decide

theorem gets_wrapper {w : Wrapper} {n : Node} (h : item.Gets n.chars n (Stops 4)) :
    (atom item count called bundled).Gets (Node.displayKind (.wrapper w n)).toList (.wrapper w n) (Stops 0) := by
  intro s _
  have hchars : (Node.displayKind (.wrapper w n)).toList ++ s = w.word.toList ++ '<' :: (n.chars ++ (['>'] ++ s)) := by
    have hshown : Node.displayKind (.wrapper w n) = w.word ++ "<" ++ n.display ++ ">" := rfl
    simp only [hshown, String.toList_append, chars, List.append_assoc]
    rfl
  have hclose : Stops 4 (['>'] ++ s) := stops_cons (c := '>') (by decide) s
  rw [hchars, atom_open (by cases w <;> decide), headed, wrapper?_word]
  simp only [h _ hclose, dropPrefix?_append, Option.bind_eq_bind, Option.bind_some]
  rfl

/-- **References are read** where they are a name that is no other word, or the name of an expansion. -/
theorem gets_reference {text : String} (h : (Kind.ref text : Kind Node).isLegible called = true) :
    (atom item count called bundled).Gets text.toList (.reference text) (Stops 0) := by
  intro s hs
  simp only [Kind.isLegible, Bool.and_eq_true] at h
  obtain ⟨⟨hname, hword⟩, hkind⟩ := h
  by_cases hplain : text.toList.takeWhile isWordChar = text.toList
  · rw [hplain] at hword
    rw [if_pos hplain] at hkind
    simp only [isReserved, Bool.not_eq_true', Bool.or_eq_false_iff, beq_eq_false_iff_ne, Option.isSome_eq_false_iff,
      Option.isNone_iff_eq_none] at hkind
    obtain ⟨⟨hmeaning, hcyclic⟩, hnew⟩ := hkind
    simp only [atom_stop hword hs, hcyclic, hnew, if_false, hmeaning, Option.getD_none]
    rfl
  · rw [if_neg hplain, Bool.and_eq_true, Bool.not_eq_true', isGenericName, Bool.and_eq_true, Option.isNone_iff_eq_none,
      Option.isNone_iff_eq_none] at hkind
    obtain ⟨⟨hwrapper, hoperator⟩, hcalled⟩ := hkind
    rw [isName, beq_iff_eq, name] at hname
    split at hname
    · rename_i more hopen
      obtain ⟨⟨inner, left⟩, hclosing, heq⟩ := Option.map_eq_some_iff.1 hname
      obtain ⟨htext, rfl⟩ := Prod.mk.inj heq
      have hchars : text.toList ++ s =
          (String.ofList (text.toList.takeWhile isWordChar)).toList ++ '<' :: (more ++ s) := by
        rw [String.toList_ofList, ← List.cons_append, ← List.append_assoc, ← List.singleton_append,
          ← eq_append_of_dropPrefix? hopen, List.takeWhile_append_dropWhile]
      rw [hchars, atom_open (by rwa [String.toList_ofList]), headed, hwrapper, hoperator]
      simp only [hcalled, Bool.false_eq_true, if_false, closing_append hclosing, Option.map_some, List.nil_append,
        ← String.ofList_append, htext]
    · have htext := congrArg String.toList (Prod.mk.inj (Option.some.inj hname)).1
      rw [String.toList_ofList] at htext
      exact absurd htext hplain

/-- **Calls are read** where the target is a name that `called` knows. -/
theorem gets_call (hbarren : Barren item) {target : Node} (hkind : (Kind.call target ns).isLegible called = true)
    (htarget : target.annotations = []) (h : ∀ n ∈ ns, n.suits 4 = true → item.Gets n.chars n (Stops 4))
    (hcount : ns.length ≤ count) :
    (atom item count called bundled).Gets (Node.displayKind (.call target ns)).toList (.call target ns) (Stops 0) := by
  simp only [Kind.isLegible, Bool.and_eq_true, List.all_eq_true] at hkind
  obtain ⟨hname, harguments⟩ := hkind
  obtain ⟨kind, modifiers, annotations⟩ := target
  obtain rfl : annotations = [] := htarget
  cases kind with
  | ref word =>
    simp only [Bool.and_eq_true, beq_iff_eq, isGenericName, Option.isNone_iff_eq_none] at hname
    obtain ⟨⟨⟨rfl, hword⟩, hwrapper, hoperator⟩, hcalled⟩ := hname
    intro s _
    have hchars : (Node.displayKind (.call ⟨.ref word, .plain, []⟩ ns)).toList ++ s =
        word.toList ++ '<' :: (comma.intercalate (ns.map chars) ++ ['>'] ++ s) := by
      have hshown : Node.displayKind (.call ⟨.ref word, .plain, []⟩ ns) =
          word ++ "<" ++ ", ".intercalate (Node.displayAll ns) ++ ">" := rfl
      simp only [hshown, String.toList_append, Node.toList_intercalate_displayAll, List.append_assoc]
      rfl
    have hread := gets_items hbarren (by decide : '>' ∈ [')', '>']) (fun n hn => h n hn (harguments n hn)) hcount s trivial
    rw [hchars, atom_open hword, headed, hwrapper, hoperator]
    simp only [hcalled, if_true, hread, Option.map_some]
    rfl
  | _ => cases hname

theorem gets_operator (hbarren : Barren item) {operator : Operator} (hmapped : operator ≠ .mapped)
    (h : ∀ n ∈ ns, item.Gets n.chars n (Stops 4)) (hcount : ns.length ≤ count) :
    (atom item count called bundled).Gets (Node.displayKind (.deferred operator ns [])).toList (.deferred operator ns)
      (Stops 0) := by
  intro s _
  have hchars : (Node.displayKind (.deferred operator ns [])).toList ++ s =
      operator.word.toList ++ '<' :: (comma.intercalate (ns.map chars) ++ ['>'] ++ s) := by
    have hshown : Node.displayKind (.deferred operator ns []) =
        operator.word ++ "<" ++ ", ".intercalate (Node.displayAll ns) ++ ">" := rfl
    simp only [hshown, String.toList_append, Node.toList_intercalate_displayAll, List.append_assoc]
    rfl
  rw [hchars, atom_open (by cases operator <;> decide), headed, wrapper?_operator_word, operator?_word]
  have hread := gets_items hbarren (by decide : '>' ∈ [')', '>']) h hcount s trivial
  cases operator <;> first | exact absurd rfl hmapped | simp only [hread, Option.map_some]

/-- The characters of nodes behind a comma, if there are any. -/
def charsBehind (ns : List Node) : List Char := if ns = [] then [] else comma ++ comma.intercalate (ns.map chars)

theorem intercalate_chars_cons (n : Node) (ns : List Node) :
    comma.intercalate ((n :: ns).map chars) = n.chars ++ charsBehind ns := by
  cases ns with
  | nil => rw [List.map_cons, List.map_nil, List.intercalate_singleton, charsBehind, if_pos rfl, List.append_nil]
  | cons m ns =>
    rw [List.map_cons, List.map_cons, List.intercalate_cons_cons, charsBehind, if_neg (List.cons_ne_nil _ _),
      List.append_assoc, List.map_cons]

theorem endsParameter_charsBehind (ns : List Node) (s : List Char) : EndsParameter (charsBehind ns ++ ['>'] ++ s) := by
  unfold charsBehind
  split
  · rintro _ ⟨⟩
    exact .inr rfl
  · rintro _ ⟨⟩
    exact .inl rfl

theorem gets_behindComma (h : ∀ n ∈ ns, item.Gets n.chars n (Stops 4)) (hcount : ns.length ≤ count) :
    (Reader.enclosed '>' (behindComma (Reader.separated comma item count))).Gets (charsBehind ns ++ ['>']) ns
      fun _ => True := by
  unfold charsBehind
  split
  · rename_i hnil
    rw [hnil]
    exact Reader.gets_enclosed_nil fun s => by rw [behindComma, dropPrefix?_eq_none (by rintro _ ⟨⟩; decide)]; rfl
  · rename_i hsome
    have hread : (behindComma (Reader.separated comma item count)).Gets (comma ++ comma.intercalate (ns.map chars)) ns
        fun s => Stops 4 s ∧ s.dropPrefix? comma = none := by
      intro s hs
      rw [List.append_assoc, behindComma, dropPrefix?_append]
      exact Reader.gets_separated (forall₂_gets h) hsome hcount stops_comma s hs
    exact Reader.gets_enclosed hread fun s =>
      ⟨stops_cons (by decide) s, dropPrefix?_eq_none (by rintro _ ⟨⟩; decide)⟩

theorem gets_mapped {key : Parameter Node}
    (hkey : (parameter item).Gets (Node.displayParameter key).toList key EndsParameter)
    (h : ∀ n ∈ ns, item.Gets n.chars n (Stops 4)) (hcount : ns.length ≤ count) :
    (atom item count called bundled).Gets (Node.displayKind (.deferred .mapped (.parameter key :: ns) [])).toList
      (.deferred .mapped (.parameter key :: ns)) (Stops 0) := by
  intro s _
  have hchars : (Node.displayKind (.deferred .mapped (.parameter key :: ns) [])).toList ++ s =
      Operator.mapped.word.toList ++ '<' :: ((Node.displayParameter key).toList ++ (charsBehind ns ++ ['>'] ++ s)) := by
    have hshown : Node.displayKind (.deferred .mapped (.parameter key :: ns) []) =
        Operator.mapped.word ++ "<" ++ ", ".intercalate (Node.displayAll (.parameter key :: ns)) ++ ">" := rfl
    have hkeyChars : (Node.parameter key).chars = (Node.displayParameter key).toList := Node.chars_eq _
    have hall : ", ".toList.intercalate ((Node.parameter key :: ns).map chars) =
        (Node.displayParameter key).toList ++ charsBehind ns := (intercalate_chars_cons _ ns).trans (by rw [hkeyChars])
    simp only [hshown, String.toList_append, Node.toList_intercalate_displayAll, hall, List.append_assoc]
    rfl
  have hbehind := gets_behindComma h hcount s trivial
  rw [hchars, atom_open (by decide), headed, wrapper?_operator_word, operator?_word]
  simp only [hkey _ (endsParameter_charsBehind ns s), hbehind, Option.bind_eq_bind, Option.bind_some]
  rfl

/-- **Operators are read** where no options are hidden; the key of a mapped type is a parameter. -/
theorem gets_deferred (hbarren : Barren item) {operator : Operator} {options : Annotations}
    (hkind : (Kind.deferred operator ns options).isLegible called = true) (hannotations : ∀ n ∈ ns, n.annotations = [])
    (hkey : ∀ p, ⟨.parameter p, .plain, []⟩ ∈ ns → (parameter item).Gets (Node.displayParameter p).toList p EndsParameter)
    (h : ∀ n ∈ ns, n.suits 4 = true → item.Gets n.chars n (Stops 4)) (hcount : ns.length ≤ count) :
    (atom item count called bundled).Gets (Node.displayKind (.deferred operator ns options)).toList
      (.of (.deferred operator ns options)) (Stops 0) := by
  by_cases hmapped : operator = .mapped
  · subst hmapped
    simp only [Kind.isLegible, Bool.and_eq_true, List.isEmpty_iff] at hkind
    obtain ⟨rfl, hkind⟩ := hkind
    cases ns with
    | nil => cases hkind
    | cons key ns =>
      simp only [Bool.and_eq_true, beq_iff_eq, List.all_eq_true] at hkind
      obtain ⟨⟨hmodifiers, hlevel⟩, hsuits⟩ := hkind
      have hnone := hannotations key List.mem_cons_self
      obtain ⟨kind, modifiers, annotations⟩ := key
      dsimp only at hmodifiers hlevel hnone
      subst hmodifiers hnone
      cases kind with
      | parameter p =>
        exact gets_mapped (hkey p List.mem_cons_self)
          (fun n hn => h n (List.mem_cons_of_mem _ hn) (hsuits n hn)) (Nat.le_of_succ_le hcount)
      | _ => cases hlevel
  · have hoperands : options = [] ∧ ∀ n ∈ ns, n.suits 4 = true := by
      cases operator <;> first | exact absurd rfl hmapped | simpa [Kind.isLegible, List.isEmpty_iff] using hkind
    obtain ⟨rfl, hsuits⟩ := hoperands
    exact gets_operator hbarren hmapped (fun n hn => h n hn (hsuits n hn)) hcount

theorem gets_cyclic {root : String} (hroot : isName root = true) :
    (atom item count called bundled).Gets ("cyclic ".toList ++ root.toList) (.cyclic (bundled root) root) (Stops 0) := by
  intro s hs
  have hchars : "cyclic ".toList ++ root.toList ++ s = "cyclic".toList ++ ([' '] ++ (root.toList ++ s)) := rfl
  have hstop : Stops 0 ([' '] ++ (root.toList ++ s)) := stops_zero (by rintro _ ⟨⟩; decide)
  rw [hchars, atom_stop (by decide) hstop, if_pos rfl]
  simp only [dropPrefix?_append, Option.bind_eq_bind, Option.bind_some, gets_name hroot s hs]
  rfl

/-! ## Templates -/

/-- The characters of the pieces of a template. -/
def fragmentChars (ns : List Node) : List Char := (Node.displayFragments ns).flatMap String.toList

theorem fragmentChars_cons (n : Node) (ns : List Node) : fragmentChars (n :: ns) =
    (match n.literal? with
      | some l => l.toKey
      | none => "$\x7b" ++ n.display ++ "\x7d").toList ++ fragmentChars ns := by
  rw [fragmentChars, Node.displayFragments, List.flatMap_cons]
  rfl

/-- After a text, another piece or the end stands. -/
theorem stops_template {ns : List Node} (h : Node.suitsTemplate true ns = true) (s : List Char) :
    ∀ c ∈ (fragmentChars ns ++ '\x60' :: s).head?, isTemplateChar c = false := by
  cases ns with
  | nil =>
    rintro _ ⟨⟩
    decide
  | cons n ns =>
    have hliteral : n.literal? = none := by
      rw [Node.suitsTemplate] at h
      unfold Node.literal?
      split at h <;> simp_all
    rw [fragmentChars_cons, hliteral, String.toList_append, String.toList_append]
    rintro _ ⟨⟩
    decide

/-- A text goes up to the next piece. -/
theorem fragments_text {left : Nat} {text : String} {s : List Char} (hsome : text.toList.isEmpty = false)
    (htext : ∀ c ∈ text.toList, isTemplateChar c = true) (hend : ∀ c ∈ s.head?, isTemplateChar c = false) :
    fragments item (left + 1) (text.toList ++ s) =
      (fragments item left s).map fun (ns, rest) => (.text text :: ns, rest) := by
  have hhead : ∀ {c : Char}, isTemplateChar c = false → ∀ d ∈ (text.toList ++ s).head?, d ≠ c := by
    obtain ⟨c, cs, hcs⟩ := List.exists_cons_of_ne_nil (List.isEmpty_eq_false_iff.1 hsome)
    rw [hcs] at htext ⊢
    rintro _ hmark _ ⟨⟩ rfl
    rw [htext _ List.mem_cons_self] at hmark
    cases hmark
  have hmark : (text.toList ++ s).dropPrefix? ['\x60'] = none := dropPrefix?_eq_none (hhead (by decide))
  have hdollar : (text.toList ++ s).dropPrefix? "$\x7b".toList = none := dropPrefix?_eq_none (hhead (by decide))
  simp only [fragments, hmark, hdollar, takeWhile_append_eq htext hend, dropWhile_append_eq htext hend, hsome,
    String.ofList_toList]
  cases fragments item left s <;> rfl

/-- Any other form stands in braces. -/
theorem fragments_braces {left : Nat} {n : Node} (h : item.Gets n.chars n (Stops 4)) (s : List Char) :
    fragments item (left + 1) ("$\x7b".toList ++ (n.chars ++ (['\x7d'] ++ s))) =
      (fragments item left s).map fun (ns, rest) => (n :: ns, rest) := by
  have hitem := h (['\x7d'] ++ s) (stops_cons (by decide) s)
  have hmark : ("$\x7b".toList ++ (n.chars ++ (['\x7d'] ++ s))).dropPrefix? ['\x60'] = none :=
    dropPrefix?_eq_none (by rintro _ ⟨⟩; decide)
  simp only [fragments, hmark, dropPrefix?_append, hitem, Option.bind_eq_bind, Option.bind_some]
  cases fragments item left s <;> rfl

theorem gets_fragments {left : Nat} {afterText : Bool} (hsuits : Node.suitsTemplate afterText ns = true)
    (hannotations : ∀ n ∈ ns, n.annotations = [])
    (h : ∀ n ∈ ns, n.suits 4 = true → item.Gets n.chars n (Stops 4)) (hleft : ns.length < left) :
    (fragments item left).Gets (fragmentChars ns ++ ['\x60']) ns fun _ => True := by
  intro s _
  induction ns generalizing afterText left with
  | nil =>
    obtain ⟨left, rfl⟩ := Nat.exists_eq_succ_of_ne_zero (Nat.ne_zero_of_lt hleft)
    have hend : (fragmentChars [] ++ ['\x60'] ++ s).dropPrefix? ['\x60'] = some s := dropPrefix?_append ['\x60'] s
    rw [fragments, hend]
  | cons n ns ih =>
    obtain ⟨left, rfl⟩ := Nat.exists_eq_succ_of_ne_zero (Nat.ne_zero_of_lt hleft)
    have hrest : ∀ {afterText}, Node.suitsTemplate afterText ns = true →
        fragments item left (fragmentChars ns ++ (['\x60'] ++ s)) = some (ns, s) := fun hsuits =>
      List.append_assoc _ _ s ▸ ih hsuits (fun n hn => hannotations n (List.mem_cons_of_mem _ hn))
        (fun n hn => h n (List.mem_cons_of_mem _ hn)) (Nat.lt_of_succ_lt_succ hleft)
    rw [Node.suitsTemplate] at hsuits
    rw [fragmentChars_cons, List.append_assoc, List.append_assoc]
    split at hsuits
    · rename_i text hk
      simp only [Bool.and_eq_true, beq_iff_eq, Bool.not_eq_true', List.all_eq_true] at hsuits
      obtain ⟨⟨⟨⟨-, hplain⟩, hsome⟩, htext⟩, hsuits⟩ := hsuits
      obtain rfl : n = .text text := by
        obtain ⟨kind, modifiers, annotations⟩ := n
        obtain rfl : kind = .literal (.string text) := hk
        obtain rfl : modifiers = .plain := hplain
        obtain rfl : annotations = [] := hannotations _ List.mem_cons_self
        rfl
      have hstop : ∀ c ∈ (fragmentChars ns ++ (['\x60'] ++ s)).head?, isTemplateChar c = false := stops_template hsuits s
      have hread : fragments item (left + 1) _ = _ := fragments_text (by simpa [String.isEmpty_iff] using hsome) htext hstop
      rw [hrest hsuits] at hread
      exact hread
    · cases hsuits
    · rename_i hstring hliteral
      rw [Bool.and_eq_true] at hsuits
      have hnone : n.literal? = none := by
        unfold Node.literal?
        split
        · rename_i l hk
          exact absurd hk (hliteral l)
        · rfl
      have hread : fragments item (left + 1) _ = _ :=
        fragments_braces (h n List.mem_cons_self hsuits.1) (fragmentChars ns ++ (['\x60'] ++ s))
      rw [hrest hsuits.2] at hread
      rw [hnone, String.toList_append, String.toList_append, List.append_assoc, List.append_assoc]
      exact hread

theorem gets_templatePattern (hsuits : Node.suitsTemplate false ns = true) (hannotations : ∀ n ∈ ns, n.annotations = [])
    (h : ∀ n ∈ ns, n.suits 4 = true → item.Gets n.chars n (Stops 4)) (hcount : ns.length ≤ count) :
    (atom item count called bundled).Gets (Node.displayKind (.templatePattern ns)).toList (.templatePattern ns)
      (Stops 0) := by
  intro s _
  have hchars : (Node.displayKind (.templatePattern ns)).toList ++ s = '\x60' :: (fragmentChars ns ++ ['\x60'] ++ s) := by
    have hshown : Node.displayKind (.templatePattern ns) =
        "\x60" ++ String.join (Node.displayFragments ns) ++ "\x60" := rfl
    simp only [hshown, String.toList_append, String.toList_join, List.append_assoc]
    rfl
  rw [hchars, atom_template, gets_fragments hsuits hannotations h (Nat.lt_succ_of_le hcount) s trivial]
  rfl

end Notation
end Schemata
