import Schemata.Proofs.Comparison.Steps
import Schemata.Proofs.Node.Leaves
import Schemata.Proofs.Reference.Renaming
import Schemata.Proofs.Template.RegularExpression
/-!
# The two forms of a template

A template of fragments with finitely many texts becomes a union of literals, or a pattern when the texts are too many.

- `Node.Spells` says which texts are values of a fragment, `IsConcatenation` which are values of several in order.
- `lists_expand`: what `expand` lists are the concatenations.
- `matches_ofFragments`: so are the texts of the pattern.

Main statement: whichever form the limit chooses, a literal fits the template if and only if it is a concatenation of
one value of each fragment, and the regular expression of the pattern finds the same texts
(`fits_template_iff_concatenation`).
-/
namespace Schemata

open List (Forall₂)

/-! ## Values of fragments -/

/-- The forms with finitely many texts; a union has at least one variant. -/
def Kind.isListed : Kind Node → Bool
  | .literal _ | .primitive .boolean | .primitive .null | .primitive .undefined | .primitive .never => true
  | .union variants => !variants.isEmpty
  | .templatePattern _ => true
  | _ => false

namespace Node

/-- **Whether a fragment has finitely many texts**: literals, `boolean`, `null`, `undefined` and `never`, their unions,
and patterns of such fragments. -/
def isListed (n : Node) : Bool := n.everywhere Kind.isListed

theorem isListed_iff {n : Node} : n.isListed = true ↔ n.kind.isListed = true ∧ ∀ c ∈ n.kind.parts, c.isListed = true :=
  everywhere_iff

mutual
/-- **Which texts are values of a fragment.** -/
def Spells : Node → String → Prop
  | ⟨.literal l, _, _⟩ => (· = l.toKey)
  | ⟨.primitive .boolean, _, _⟩ => fun s => s = "true" ∨ s = "false"
  | ⟨.primitive .null, _, _⟩ => (· = "null")
  | ⟨.primitive .undefined, _, _⟩ => (· = "undefined")
  | ⟨.union variants, _, _⟩ => SomeSpells variants
  | ⟨.templatePattern fragments, _, _⟩ => SpellInOrder fragments
  | _ => fun _ => False

def SomeSpells : List Node → String → Prop
  | [] => fun _ => False
  | n :: ns => fun s => Spells n s ∨ SomeSpells ns s

/-- A value of each fragment, one after the other. -/
def SpellInOrder : List Node → String → Prop
  | [] => (· = "")
  | n :: ns => fun s => ∃ front back, s = front ++ back ∧ Spells n front ∧ SpellInOrder ns back
end

/-- **A text put together from one value of each fragment**, in order. -/
def IsConcatenation (fragments : List Node) (text : String) : Prop :=
  ∃ values, Forall₂ Spells fragments values ∧ text = String.join values

theorem spellInOrder_iff {ns : List Node} {s : String} : SpellInOrder ns s ↔ IsConcatenation ns s := by
  induction ns generalizing s with
  | nil =>
    constructor
    · exact fun h => ⟨[], .nil, h⟩
    · rintro ⟨_, ⟨⟩, h⟩
      exact h
  | cons n ns ih =>
    constructor
    · rintro ⟨front, back, rfl, hfront, hback⟩
      obtain ⟨values, hvalues, rfl⟩ := ih.1 hback
      exact ⟨front :: values, .cons hfront hvalues, String.join_cons.symm⟩
    · rintro ⟨_, hvalues, rfl⟩
      cases hvalues with
      | @cons _ front _ values hfront hvalues =>
        exact ⟨front, String.join values, String.join_cons, hfront, ih.2 ⟨values, hvalues, rfl⟩⟩

end Node

/-! ## What is listed -/

namespace Expansion

/-- **An expansion of what has the texts of `L`**: the texts that it lists, if it does, are these. -/
def Lists (L : String → Prop) : Expansion → Prop
  | .finite values => ∀ s, s ∈ values ↔ L s
  | .unbounded => True
  | .unresolved => False

variable {limit : Nat} {ns : List Node}

/-- The values of each node, where all of them are listed. -/
theorem forall₂_lists (hns : ∀ n ∈ ns, (n.texts limit).Lists n.Spells)
    (hbounded : Expansion.unbounded ∉ ns.map (Node.texts limit)) :
    Forall₂ (fun values n => (finite values).Lists n.Spells) ((ns.map (Node.texts limit)).filterMap values?) ns := by
  induction ns with
  | nil => exact .nil
  | cons n ns ih =>
    rw [List.forall_mem_cons] at hns
    obtain ⟨hn, hns⟩ := hns
    rw [List.map_cons, List.mem_cons, not_or] at hbounded
    rw [List.map_cons]
    generalize n.texts limit = texts at hn hbounded
    cases texts with
    | finite values => exact .cons hn (ih hns hbounded.2)
    | unbounded => exact absurd rfl hbounded.1
    | unresolved => exact hn.elim

/-- Parts are joined where each of them is listed. -/
theorem lists_join {L : String → Prop} {f : List (List String) → Expansion}
    (hns : ∀ n ∈ ns, (n.texts limit).Lists n.Spells)
    (hf : ∀ lists, Forall₂ (fun values n => (finite values).Lists n.Spells) lists ns → (f lists).Lists L) :
    (join f (textsEach limit ns)).Lists L := by
  rw [textsEach_eq_map, join]
  split
  · rename_i h
    obtain ⟨n, hn, hnone⟩ := List.mem_map.1 (List.contains_iff_mem.1 h)
    have := hns n hn
    rw [hnone] at this
    exact this
  · split
    · trivial
    · rename_i h
      exact hf _ (forall₂_lists hns fun hmem => h (List.contains_iff_mem.2 hmem))

/-- A union has the values of its variants. -/
theorem lists_union {lists : List (List String)}
    (h : Forall₂ (fun values n => (finite values).Lists n.Spells) lists ns) :
    (finite (distinct lists.flatten)).Lists (Node.SomeSpells ns) := fun s => by
  rw [mem_distinct]
  induction h with
  | nil => simp [Node.SomeSpells]
  | cons hvalues _ ih => rw [List.flatten_cons, List.mem_append, hvalues s, ih, Node.SomeSpells]

/-- Each text so far goes on with each value of the next fragment. -/
theorem lists_product {lists : List (List String)}
    (h : Forall₂ (fun values n => (finite values).Lists n.Spells) lists ns) :
    (product limit lists).Lists (Node.SpellInOrder ns) := by
  have hfold : ∀ texts all : List String, lists.foldlM (append? limit) texts = some all →
      ∀ s, s ∈ all ↔ ∃ front ∈ texts, ∃ back, s = front ++ back ∧ Node.SpellInOrder ns back := by
    induction h with
    | nil =>
      rintro texts all h s
      cases h
      simp [Node.SpellInOrder]
    | @cons values n lists ns hvalues _ ih =>
      intro texts all h s
      rw [List.foldlM_cons] at h
      obtain ⟨more, hmore, h⟩ := Option.bind_eq_some_iff.1 h
      unfold append? at hmore
      split at hmore
      · cases hmore
      · cases hmore
        rw [ih _ _ h]
        simp only [List.mem_flatMap, List.mem_map, hvalues _]
        constructor
        · rintro ⟨_, ⟨front, hfront, value, hvalue, rfl⟩, back, rfl, hback⟩
          exact ⟨front, hfront, value ++ back, String.append_assoc, value, back, rfl, hvalue, hback⟩
        · rintro ⟨front, hfront, _, rfl, value, back, rfl, hvalue, hback⟩
          exact ⟨front ++ value, ⟨front, hfront, value, hvalue, rfl⟩, back, String.append_assoc.symm, hback⟩
  unfold product
  split
  · rename_i texts htexts
    intro s
    rw [hfold _ _ htexts]
    simp
  · trivial

end Expansion

open Expansion

/-- **What a fragment is expanded to are its values.** -/
theorem lists_texts (limit : Nat) {n : Node} (h : n.isListed = true) : (n.texts limit).Lists n.Spells := by
  induction n using Node.induction_on_parts with
  | node n ih =>
    obtain ⟨kind, modifiers, annotations⟩ := n
    obtain ⟨hkind, hparts⟩ := Node.isListed_iff.1 h
    have hlists : ∀ c ∈ kind.parts, (c.texts limit).Lists c.Spells := fun c hc => ih c hc (hparts c hc)
    cases kind with
    | literal l => exact fun s => List.mem_singleton
    | primitive p =>
      cases p <;> first | exact Bool.noConfusion hkind | exact fun s => by simp [Node.Spells]
    | union variants =>
      rw [Node.texts]
      exact lists_join hlists fun lists => lists_union
    | templatePattern fragments =>
      rw [Node.texts]
      exact lists_join hlists fun lists => lists_product
    | _ => cases hkind

/-- **What a template is expanded to are the concatenations.** -/
theorem lists_expand (limit : Nat) {fragments : List Node} (h : ∀ n ∈ fragments, n.isListed = true) :
    (expand limit fragments).Lists (Node.IsConcatenation fragments) := by
  have hlists : (expand limit fragments).Lists (Node.SpellInOrder fragments) :=
    lists_join (fun n hn => lists_texts limit (h n hn)) fun lists => lists_product
  exact (funext fun s => propext Node.spellInOrder_iff : Node.SpellInOrder fragments = _) ▸ hlists

/-! ## What a pattern matches -/

namespace Pattern

variable {ns : List Node}

theorem matchesAny_ofNodes (h : ∀ n ∈ ns, ∀ s : String, (ofNode n).Matches s.toList ↔ n.Spells s) (s : String) :
    MatchesAny (ofNodes ns) s.toList ↔ Node.SomeSpells ns s := by
  induction ns with
  | nil => rfl
  | cons n ns ih =>
    rw [List.forall_mem_cons] at h
    exact or_congr (h.1 s) (ih h.2)

theorem matchesAll_ofNodes (h : ∀ n ∈ ns, ∀ s : String, (ofNode n).Matches s.toList ↔ n.Spells s) (s : String) :
    MatchesAll (ofNodes ns) s.toList ↔ Node.SpellInOrder ns s := by
  induction ns generalizing s with
  | nil => exact String.toList_eq_nil_iff
  | cons n ns ih =>
    rw [List.forall_mem_cons] at h
    constructor
    · rintro ⟨front, back, happend, hfront, hback⟩
      refine ⟨.ofList front, .ofList back, ?_, (h.1 _).1 ?_, (ih h.2 _).1 ?_⟩
      · rw [← String.ofList_append, ← happend, String.ofList_toList]
      · rwa [String.toList_ofList]
      · rwa [String.toList_ofList]
    · rintro ⟨front, back, rfl, hfront, hback⟩
      exact ⟨front.toList, back.toList, String.toList_append, (h.1 front).2 hfront, (ih h.2 back).2 hback⟩

/-- **The texts of a fragment's pattern are its values.** -/
theorem matches_ofNode {n : Node} (h : n.isListed = true) (s : String) :
    (ofNode n).Matches s.toList ↔ n.Spells s := by
  induction n using Node.induction_on_parts generalizing s with
  | node n ih =>
    obtain ⟨kind, modifiers, annotations⟩ := n
    obtain ⟨hkind, hparts⟩ := Node.isListed_iff.1 h
    have hmatches : ∀ c ∈ kind.parts, ∀ s : String, (ofNode c).Matches s.toList ↔ c.Spells s :=
      fun c hc => ih c hc (hparts c hc)
    cases kind with
    | literal l => exact String.toList_inj
    | primitive p =>
      cases p <;> first | exact Bool.noConfusion hkind | exact String.toList_inj | skip
      case boolean =>
        change s.toList = "true".toList ∨ s.toList = "false".toList ∨ False ↔ s = "true" ∨ s = "false"
        rw [or_false, String.toList_inj, String.toList_inj]
      case never => exact Iff.rfl
    | union variants =>
      cases variants with
      | nil => cases hkind
      | cons v vs => exact matchesAny_ofNodes hmatches s
    | templatePattern fragments => exact matchesAll_ofNodes hmatches s
    | _ => cases hkind

/-- **The texts of a template's pattern are the concatenations.** -/
theorem matches_ofFragments {fragments : List Node} (h : ∀ n ∈ fragments, n.isListed = true) (s : String) :
    (ofFragments fragments).Matches s.toList ↔ Node.IsConcatenation fragments s :=
  (matchesAll_ofNodes (fun n hn => matches_ofNode (h n hn)) s).trans Node.spellInOrder_iff

end Pattern

/-! ## Literals against a template -/

section
variable {check : Comparison} {s : Surroundings} {text : String} {place : Place} {right : Placed}

/-- A text is compared with what is neither a bundle, a reference nor a primitive. -/
theorem fitsStep_of_text (hright : right.node.kind.isIndirect = false) (hprimitive : right.node.primitive? = none) :
    fitsStep check s ⟨.text text, place⟩ right =
      (Node.sameKind (.literal (.string text)) right.node.kind || fitsSets check s ⟨.text text, place⟩ right) := by
  have hnot : ∀ p, right.node.isPrimitive p = false := fun p => by rw [Node.isPrimitive, hprimitive]; rfl
  have hnever : (Node.text text).isNever = false := rfl
  have hany : (Node.text text).isPrimitive .any = false := rfl
  rw [fitsStep_of_direct rfl hright, hnever, hany, Node.isNever, hnot, hnot, hnot]
  simp only [Bool.or_false, Bool.not_false, Bool.true_and]
  rfl

theorem fitsStep_texts {other : String} {place' : Place} :
    fitsStep check s ⟨.text text, place⟩ ⟨.text other, place'⟩ = (text == other) := by
  have hsame : Node.sameKind (.literal (.string text)) (Node.text other).kind = (text == other) := by
    rw [Node.text, Node.literal, Node.of, Node.sameKind]
    rfl
  have hsets : fitsSets check s ⟨.text text, place⟩ ⟨.text other, place'⟩ = (text == other) := rfl
  rw [fitsStep_of_text rfl rfl, hsame, hsets, Bool.or_self]

end

theorem beq_texts (text other : String) : (Node.text text == Node.text other) = (text == other) := by
  change Node.sameAs _ _ = _
  rw [Node.text, Node.text, Node.literal, Node.literal, Node.of, Node.of, Node.sameAs, Node.sameKind]
  exact (Bool.and_true _).trans (Bool.and_true _)

theorem fits_eq_fitsStep (left right : Node) :
    left.fits right = fitsStep (compareWithin 255) {} ⟨left, .left, []⟩ ⟨right, .right, []⟩ := rfl

theorem fits_union_texts {text : String} {texts : List String} :
    (Node.text text).fits (.union (texts.map Node.text)) = true ↔ text ∈ texts := by
  have hsame : Node.sameKind (.literal (.string text)) (.union (texts.map Node.text)) = false := by
    simp only [Node.sameKind]
  rw [fits_eq_fitsStep, fitsStep_of_text rfl rfl, fitsSets_of_union_right rfl fun _ h => by cases h]
  change (Node.sameKind _ (.union (texts.map Node.text)) || (false || List.any _ _)) = true ↔ _
  rw [hsame, Bool.false_or, Bool.false_or, List.any_eq_true]
  simp only [Placed.mem_items, List.getElem?_map, Option.map_eq_some_iff]
  constructor
  · rintro ⟨_, ⟨i, _, ⟨other, hother, rfl⟩, rfl⟩, h⟩
    obtain rfl : text = other := eq_of_beq (fitsStep_texts.symm.trans h)
    exact List.mem_of_getElem? hother
  · intro h
    obtain ⟨i, hi⟩ := List.mem_iff_getElem?.1 h
    exact ⟨_, ⟨i, _, ⟨text, hi, rfl⟩, rfl⟩, fitsStep_texts.trans (beq_self_eq_true text)⟩

/-- A text fits a union of texts that it is one of. -/
theorem fits_unionOf_texts {text : String} {texts : List String} :
    (Node.text text).fits (.unionOf (texts.map Node.text)) = true ↔ text ∈ texts := by
  have hleaves : distinct (Node.leavesAll (texts.map Node.text)) = (distinct texts).map Node.text := by
    rw [Node.leavesAll_eq_flatMap, Node.flatMap_leaves fun n hn => by
      obtain ⟨_, -, rfl⟩ := List.mem_map.1 hn
      rfl]
    exact distinct_map beq_texts texts
  have hmem : text ∈ distinct texts ↔ text ∈ texts := mem_distinct
  rw [Node.unionOf, hleaves, ← hmem]
  generalize distinct texts = texts
  rcases texts with _ | ⟨first, _ | ⟨second, more⟩⟩
  · have hsame : Node.sameKind (.literal (.string text)) (.primitive .never) = false := by simp only [Node.sameKind]
    have hnever : (Node.text text).fits .never = false := by
      rw [fits_eq_fitsStep, fitsStep_of_direct rfl rfl]
      exact (congrArg (· || _ || _ || _ || _ || _) hsame).trans rfl
    simp [hnever]
  · have htexts : (Node.text text).fits (.text first) = (text == first) := fitsStep_texts
    rw [List.mem_singleton]
    exact (iff_of_eq (congrArg (· = true) htexts)).trans beq_iff_eq
  · exact @fits_union_texts text (first :: second :: more)

theorem fits_templatePattern {text : String} {fragments : List Node} :
    (Node.text text).fits (.templatePattern fragments) = (Pattern.ofFragments fragments).accepts text := by
  have hsame : Node.sameKind (.literal (.string text)) (.templatePattern fragments) = false := by
    simp only [Node.sameKind]
  rw [fits_eq_fitsStep, fitsStep_of_text rfl rfl]
  exact (congrArg (· || _) hsame).trans (Bool.false_or _)

/-- **The limit decides on the form of a template, never on its texts.** -/
theorem fits_template_iff_concatenation {s : Setting} (hs : s.operator = .templateLiteral) {fragments : List Node}
    (hfragments : ∀ n ∈ fragments, n.isListed = true)
    (husable : expand s.templateLimit fragments = .unbounded → (Pattern.ofFragments fragments).isUsable = true) :
    ∃ t, reduceEager s fragments = .done (some t) ∧ ∀ text,
      ((Node.text text).fits t = true ↔ Node.IsConcatenation fragments text) ∧
      ∀ word, RegularExpression.Finds word (Pattern.ofFragments fragments).source text ↔
        Node.IsConcatenation fragments text := by
  have hlists := lists_expand s.templateLimit hfragments
  have hfinds : ∀ text word, RegularExpression.Finds word (Pattern.ofFragments fragments).source text ↔
      Node.IsConcatenation fragments text := fun text word =>
    Pattern.source_finds.trans (Pattern.matches_ofFragments hfragments text)
  have hreduce : reduceEager s fragments = templateTexts s fragments := by rw [reduceEager, hs]
  rw [hreduce, templateTexts]
  cases hexpand : expand s.templateLimit fragments with
  | finite texts =>
    rw [hexpand] at hlists
    exact ⟨_, rfl, fun text => ⟨fits_unionOf_texts.trans (hlists text), hfinds text⟩⟩
  | unbounded =>
    refine ⟨_, rfl, fun text => ⟨?_, hfinds text⟩⟩
    rw [fits_templatePattern, Pattern.accepts_iff, Pattern.matches_ofFragments hfragments]
    exact and_iff_right (husable hexpand)
  | unresolved =>
    rw [hexpand] at hlists
    exact hlists.elim

/-- A template with special characters that is above its limit, and one of its texts. -/
theorem fits_template_special_characters :
    let fragments : List Node :=
      [.text "a.b", .union [.null, .text "x|y", .templatePattern [.boolean, .text "("]], .union [.never, .truth true]]
    let s : Setting := ⟨3, fun _ _ n => .done n, [], {}, .templateLiteral⟩
    (∀ n ∈ fragments, n.isListed = true) ∧ expand s.templateLimit fragments = .unbounded ∧
      (Pattern.ofFragments fragments).isUsable = true ∧ Node.IsConcatenation fragments "a.bfalse(true" ∧
      ∃ t, reduceEager s fragments = .done (some t) ∧ (Node.text "a.bfalse(true").fits t = true ∧
        RegularExpression.Finds Char.isAlphanum (Pattern.ofFragments fragments).source "a.bfalse(true" := by
  intro fragments s
  have hfragments : ∀ n ∈ fragments, n.isListed = true := by decide +kernel
  have husable : (Pattern.ofFragments fragments).isUsable = true := by decide +kernel
  have hconcatenation : Node.IsConcatenation fragments "a.bfalse(true" := by
    refine ⟨["a.b", "false(", "true"], .cons rfl (.cons ?_ (.cons (.inr (.inl rfl)) .nil)), rfl⟩
    exact .inr (.inr (.inl ⟨"false", "(", rfl, .inr rfl, "(", "", rfl, rfl, rfl⟩))
  obtain ⟨t, hreduce, hfits⟩ := fits_template_iff_concatenation (s := s) rfl hfragments fun _ => husable
  obtain ⟨hfits, hfinds⟩ := hfits "a.bfalse(true"
  exact ⟨hfragments, by decide +kernel, husable, hconcatenation, t, hreduce, hfits.2 hconcatenation,
    (hfinds _).2 hconcatenation⟩

end Schemata
