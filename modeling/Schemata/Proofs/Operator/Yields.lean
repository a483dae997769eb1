import Schemata.Proofs.Operator.Causes
import Schemata.Proofs.Operator.Held
import Schemata.Proofs.Operator.Opening
/-!
# What reducers yield

A reducer of concrete operands that does not wait is done with something, or an operand has not the form or the number
that it asks for.  Keys and templates do not wait, nor do the leaves that opening comes to where their properties are known.

- `Outcome.Ends checked good x`: the outcome is good, or has failed for an operand.  Where sums are checked, it has not
  stopped at the last index of a tuple.
- `Outcome.Yields checked good x`: a reducer is done with something good, or has failed for an operand.
- `Node.isOpen`: all that opening a node comes to is there to be seen.

Main statement: `openSubject_yields`.
-/
namespace Schemata

open Node

variable {checked : Bool} {α β : Type} {good : α → Prop} {better : β → Prop}

/-! ## Outcomes -/

namespace Outcome

/-- **An outcome is good**, or an operand has not the form or the number asked for. -/
def Ends (checked : Bool) (good : α → Prop) : Outcome α → Prop
  | .done a => good a
  | .failed e => OperandCause checked (some e)
  | .exhausted => False

/-- **A reducer is done with something good**, or an operand has not the form or the number asked for. -/
def Yields (checked : Bool) (good : α → Prop) (x : Outcome (Option α)) : Prop := x.Ends checked fun r => ∃ a, r = some a ∧ good a

theorem Ends.bind {x : Outcome α} {f : α → Outcome β} (hx : x.Ends checked good) (hf : ∀ a, good a → (f a).Ends checked better) :
    (x >>= f).Ends checked better := by
  cases x with
  | done a => exact hf a hx
  | failed e => exact hx
  | exhausted => exact hx

theorem yields_done {a : α} (h : good a) : (.done (some a) : Outcome (Option α)).Yields checked good := ⟨a, rfl, h⟩

theorem Yields.bind {x : Outcome (Option α)} {f : Option α → Outcome β} (hx : x.Yields checked good)
    (hf : ∀ a, good a → (f (some a)).Ends checked better) : (x >>= f).Ends checked better := by
  refine Ends.bind hx fun r hr => ?_
  obtain ⟨a, rfl, ha⟩ := hr
  exact hf a ha

theorem Yields.map {x : Outcome (Option α)} (hx : x.Yields checked good) {f : α → β} (hf : ∀ a, good a → better (f a)) :
    (x >>= fun r => .done (r.map f)).Yields checked better := by
  show Ends checked (fun r => ∃ b, r = some b ∧ better b) _
  exact hx.bind fun a ha => yields_done (hf a ha)

theorem yields_collect? {f : β → Outcome (Option α)} {xs : List β} (h : ∀ x ∈ xs, (f x).Yields checked good) :
    (collect? f xs).Yields checked fun ys => ∀ y ∈ ys, good y := by
  induction xs with
  | nil => exact yields_done fun _ hy => absurd hy List.not_mem_nil
  | cons x xs ih =>
    rw [List.forall_mem_cons] at h
    refine Yields.bind h.1 fun y hy => ?_
    exact (ih h.2).map fun ys hys => List.forall_mem_cons.2 ⟨hy, hys⟩

end Outcome

open Outcome

variable {s : Setting} {names : List String}

theorem isUnresolved_of_isConcrete {n : Node} (h : n.isConcrete = true) : n.isUnresolved = false := by
  rw [isConcrete_eq] at h
  unfold isUnresolved
  cases hk : n.kind <;> rw [hk] at h <;> first | rfl | cases h

/-! ## Keys -/

theorem Expansion.join_ne_unresolved {f : List (List String) → Expansion} (hf : ∀ xs, f xs ≠ .unresolved)
    {parts : List Expansion} (h : ∀ p ∈ parts, p ≠ .unresolved) : Expansion.join f parts ≠ .unresolved := by
  rw [join, if_neg fun hc => h _ (List.contains_iff_mem.1 hc) rfl]
  split
  · simp
  · exact hf _

theorem Expansion.product_ne_unresolved (limit : Nat) (parts : List (List String)) : product limit parts ≠ .unresolved := by
  rw [product]
  split <;> simp

theorem texts_ne_unresolved (limit : Nat) {n : Node} (h : n.isConcrete = true) : n.texts limit ≠ .unresolved := by
  induction n using Node.induction_on_parts with
  | node n ih =>
    obtain ⟨kind, modifiers, annotations⟩ := n
    cases kind with
    | union parts | templatePattern parts =>
      rw [isConcrete_eq] at h
      have hparts : ∀ p ∈ textsEach limit parts, p ≠ .unresolved := by
        rw [textsEach_eq_map, List.forall_mem_map]
        exact fun c hc => ih c hc (List.all_eq_true.1 h c hc)
      rw [Node.texts]
      refine Expansion.join_ne_unresolved ?_ hparts
      first | exact Expansion.product_ne_unresolved limit | simp
    | primitive p => cases p <;> simp [Node.texts]
    | ref | call | deferred | parameter =>
      rw [isConcrete_eq] at h
      cases h
    | _ => simp [Node.texts]

/-- **It is known what a concrete template stands for.** -/
theorem expand_ne_unresolved (limit : Nat) {fragments : List Node} (h : ∀ n ∈ fragments, n.isConcrete = true) :
    expand limit fragments ≠ .unresolved := by
  refine Expansion.join_ne_unresolved (Expansion.product_ne_unresolved limit) ?_
  rw [textsEach_eq_map, List.forall_mem_map]
  exact fun n hn => texts_ne_unresolved limit (h n hn)

theorem isConcrete_of_mem_parts {n c : Node} (h : n.isConcrete = true) (hc : c ∈ n.children) : c.isConcrete = true := by
  rw [isConcrete_eq] at h
  split at h
  all_goals first | cases h | exact List.all_eq_true.1 h c hc

theorem literalKeys_yields {n : Node} (h : n.isConcrete = true) : (literalKeys s n).Yields checked fun _ => True := by
  induction n using Node.induction_on_parts with
  | node n ih =>
    have hunresolved := isUnresolved_of_isConcrete h
    obtain ⟨kind, modifiers, annotations⟩ := n
    cases kind with
    | union variants =>
      have hparts : ∀ c ∈ variants, c.isConcrete = true := fun c hc => isConcrete_of_mem_parts h hc
      simp only [literalKeys]
      replace ih : ∀ c ∈ variants, _ := ih
      clear h hunresolved
      induction variants with
      | nil => exact yields_done trivial
      | cons n ns ihs =>
        rw [List.forall_mem_cons] at hparts ih
        exact Yields.bind (ih.1 hparts.1) fun _ _ => (ihs hparts.2 ih.2).map fun _ _ => trivial
    | literal l => exact yields_done trivial
    | primitive p =>
      cases p with
      | never => exact yields_done trivial
      | _ => exact trivial
    | templatePattern fragments =>
      have hknown := expand_ne_unresolved s.templateLimit fun c hc => isConcrete_of_mem_parts h hc
      simp only [literalKeys]
      split
      · exact yields_done trivial
      · rename_i hexpand
        exact absurd hexpand hknown
      · trivial
    | ref | call | deferred | parameter => cases hunresolved
    | _ => exact trivial

/-! ## Leaves of an opened node -/

/-- **Whether it is known what properties a node has**, if any. -/
def Node.isKnown (n : Node) : Bool :=
  match collapse n with
  | .unresolved => false
  | _ => true

theorem isKnown_iff {n : Node} : n.isKnown = true ↔ collapse n ≠ .unresolved := by
  rw [isKnown]
  cases collapse n <;> simp

theorem isUnresolved_of_isKnown {n : Node} (h : n.isKnown = true) : n.isUnresolved = false := by
  rw [isKnown_iff] at h
  obtain ⟨kind, modifiers, annotations⟩ := n
  cases kind <;> first | rfl | exact absurd rfl h

/-- **A leaf gives something held by the names** around it, for whatever is known there. -/
def LeafHolds (checked : Bool) (leaf : Node → Outcome (Option Node)) : Prop :=
  ∀ names n, n.HeldBy names → n.isKnown = true → (leaf n).Yields checked (HeldBy names)

theorem changeLeaf_holds {change : Fields Node → Fields Node}
    (hchange : ∀ names properties, (∀ e ∈ properties, e.2.HeldBy names) → ∀ e ∈ change properties, e.2.HeldBy names) :
    LeafHolds checked (changeLeaf s change) := by
  intro names n hn hknown
  rw [changeLeaf]
  split
  · exact yields_done hn
  · exact yields_done hn
  · split
    · rename_i hcollapse
      exact yields_done (heldBy_ofObject (hchange names _ (hn.collapse hcollapse)))
    · rename_i hcollapse
      exact absurd hcollapse (isKnown_iff.1 hknown)
    · trivial

theorem keysLeaf_holds : LeafHolds checked keysLeaf := by
  intro names n hn hknown
  have hnumber : (Node.number).HeldBy names := heldBy_primitive .number
  have hall : (Node.union [.string, .number, .symbol]).HeldBy names := by
    refine heldBy_union ?_
    simp only [List.forall_mem_cons]
    exact ⟨heldBy_primitive .string, hnumber, heldBy_primitive .symbol, fun _ hc => absurd hc List.not_mem_nil⟩
  unfold keysLeaf
  split
  · exact yields_done hall
  · exact yields_done hall
  · rename_i key value hk
    refine yields_done ((heldBy_iff_parts (by rw [hk]; rfl) (by rw [hk]; rfl)).1 hn key ?_)
    rw [hk]
    exact List.mem_cons_self
  · exact yields_done hnumber
  · exact yields_done hnumber
  · refine yields_done (heldBy_unionOf ?_)
    rw [List.forall_mem_map]
    exact fun index _ => heldBy_literal _
  · split
    · refine yields_done (heldBy_unionOf ?_)
      rw [List.forall_mem_map]
      exact fun name _ => heldBy_literal _
    · rename_i hcollapse
      exact absurd hcollapse (isKnown_iff.1 hknown)
    · exact yields_done (heldBy_primitive .never)

theorem evaluateLeaf_holds : LeafHolds checked evaluateLeaf := by
  intro names n hn hknown
  unfold evaluateLeaf
  split
  · split
    · rename_i hcollapse
      exact yields_done (heldBy_ofObject (hn.collapse hcollapse))
    · rename_i hcollapse
      exact absurd hcollapse (isKnown_iff.1 hknown)
    · exact yields_done hn
  · rw [isUnresolved_of_isKnown hknown]
    exact yields_done hn

theorem propertyTypes_ends {properties : Fields Node} (h : ∀ e ∈ properties, e.2.HeldBy names) (key : Node)
    (wanted : List String) : (propertyTypes s properties key wanted).Ends checked fun ns => ∀ n ∈ ns, n.HeldBy names := by
  induction wanted with
  | nil => exact fun _ hn => absurd hn List.not_mem_nil
  | cons name wanted ih =>
    rw [propertyTypes]
    cases hn : properties.get? name with
    | none => trivial
    | some n =>
      have hheld : n.bare.HeldBy names := (h _ (Fields.mem_of_get? hn)).of_kind rfl
      exact ih.bind fun ns hns => List.forall_mem_cons.2 ⟨hheld, hns⟩

section
variable {key : Node} (hkey : key.isConcrete = true)
include hkey

theorem propertyAccess_holds : LeafHolds checked fun n => propertyAccess s n key := by
  intro names n hn hknown
  show (propertyAccess s n key).Yields checked _
  rw [propertyAccess]
  split
  · rename_i properties hcollapse
    refine Yields.bind (literalKeys_yields hkey) fun wanted _ => ?_
    refine Ends.bind (propertyTypes_ends (hn.collapse hcollapse) key wanted) fun ns hns => ?_
    exact yields_done (heldBy_unionOf hns)
  · rename_i hcollapse
    exact absurd hcollapse (isKnown_iff.1 hknown)
  · trivial

variable (hlast : checked = true → key.index?.any isLastIndex = false)
include hlast

omit hkey in
theorem tupleAccess_yields {items : List Node} (h : ∀ item ∈ items, item.HeldBy names) (rest : Bool) :
    (tupleAccess s items rest key).Yields checked (HeldBy names) := by
  have hstops := stopsBy_tupleAccess (s := s) hlast items rest
  revert hstops
  rw [tupleAccess]
  split
  · split
    · rename_i hn
      exact fun _ => yields_done (heldBy_elementAt? h hn)
    · exact id
  · split
    · exact fun _ => yields_done (heldBy_unionOf (heldBy_elementTypes h rest))
    · exact id

theorem indexLeaf_holds : LeafHolds checked (indexLeaf s key) := by
  intro names n hn hknown
  have haccess : (propertyAccess s n key).Yields checked (HeldBy names) := propertyAccess_holds hkey names n hn hknown
  have hparts : ∀ {kind : Kind Node}, n.kind = kind → kind.isStructural = true → kind.isPlain = true →
      ∀ c ∈ kind.parts, c.HeldBy names := by
    rintro kind rfl hstructural hplain
    exact (heldBy_iff_parts hstructural hplain).1 hn
  unfold indexLeaf
  split
  · exact yields_done (heldBy_primitive .any)
  · exact yields_done (heldBy_primitive .never)
  · rename_i value hk
    exact yields_done (hparts hk rfl rfl value (by simp [Kind.parts]))
  · rename_i item hk
    split
    · exact yields_done (hparts hk rfl rfl item List.mem_cons_self)
    · exact haccess
  · rename_i items rest hk
    exact tupleAccess_yields hlast (hparts hk rfl rfl) rest
  · exact haccess

end

/-! ## Opened nodes -/

/-- **What an operator comes to can be seen**: where a node is opened it is known what properties there are, and all that
is applied or bound there refers to the bundle. -/
def Node.isOpen (n : Node) : Bool := n.shown.all fun m => m.isKnown && m.isAnchored

theorem isOpen_iff {n : Node} : n.isOpen = true ↔ ∀ m ∈ n.shown, m.isKnown = true ∧ m.isAnchored = true := by
  simp [isOpen]

/-- **Opening gives something held**, by induction on the tree: inside of a bundle by its definitions, outside of it by
the names around it. -/
theorem openNode_yields {join : List Node → Node} {leaf : Node → Outcome (Option Node)}
    (hjoin : ∀ names ns, (∀ n ∈ ns, n.HeldBy names) → (join ns).HeldBy names) (hleaf : LeafHolds checked leaf) {n : Node}
    (hsealed : n.isSealed = true) (hreferences : ∀ x ∈ n.references, x ∈ names) (hopen : n.isOpen = true) :
    (s.openNode join leaf leaf n).Yields checked (HeldBy names) := by
  induction n using Node.induction_on_parts generalizing names with
  | node n ih =>
    rw [isOpen_iff] at hopen
    have hself : n.shown = [n] → (leaf n).Yields checked (HeldBy names) := by
      intro hshown
      obtain ⟨hknown, hanchored⟩ := hopen n (hshown ▸ List.mem_singleton_self n)
      exact hleaf names n ⟨hanchored, hreferences, hsealed⟩ hknown
    rw [shown_eq] at hopen hself
    obtain ⟨kind, modifiers, annotations⟩ := n
    cases kind with
    | union variants =>
      simp only [Setting.openNode, Setting.openEach_eq_collect?]
      refine (yields_collect? fun c hc => ih c hc ((isSealed_iff.1 hsealed).2 c hc) (fun x hx => hreferences x ?_) ?_).map
        (hjoin names)
      · exact (mem_references_iff (by simp)).2 ⟨c, hc, hx, List.not_mem_nil⟩
      · exact isOpen_iff.2 fun m hm => hopen m (List.mem_flatMap.2 ⟨c, hc, hm⟩)
    | cyclic definitions root =>
      obtain ⟨⟨target, htarget⟩, hdefinitions⟩ := isSealed.bundle rfl hsealed
      simp only [Setting.openNode, Setting.openRoot_eq, htarget]
      simp only [htarget, Option.map_some, Option.getD_some] at hopen
      have hmem := Fields.mem_of_get? htarget
      have hopened := ih target (List.mem_map.2 ⟨_, hmem, rfl⟩) (hdefinitions _ hmem).1 (hdefinitions _ hmem).2
        (isOpen_iff.2 hopen)
      refine hopened.map fun result hresult => ?_
      exact (Setting.bundled_heldBy hdefinitions hresult).mono fun x hx => absurd hx List.not_mem_nil
    | _ => simpa only [Setting.openNode] using hself rfl

theorem namesShown_of_isOpen {n : Node} (h : n.isOpen = true) : n.namesShown = [] := by
  refine List.eq_nil_iff_forall_not_mem.2 fun name hname => ?_
  obtain ⟨m, hm, hk⟩ := mem_namesShown_iff.1 hname
  have hunresolved := isUnresolved_of_isKnown ((isOpen_iff.1 h) m hm).1
  rw [isUnresolved, hk] at hunresolved
  cases hunresolved

/-- **A subject that can be seen is opened** to something concrete. -/
theorem openSubject_yields {join : List Node → Node} {leaf : Node → Outcome (Option Node)}
    (hjoin : ∀ names ns, (∀ n ∈ ns, n.HeldBy names) → (join ns).HeldBy names) (hleaf : LeafHolds checked leaf) {n : Node}
    (hn : n.HeldBy []) (hopen : n.isOpen = true) : (s.openSubject join leaf n).Yields checked (HeldBy []) := by
  rw [Setting.openSubject_eq (by simp [namesShown_of_isOpen hopen])]
  exact openNode_yields hjoin hleaf hn.isSealed hn.references hopen

end Schemata
