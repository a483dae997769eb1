import Schemata.Proofs.Operator.OwnKeys
import Schemata.Proofs.Template.Expansion
/-!
# Choosing properties by their names

Picking and omitting part the properties of an object, or of an intersection of objects as it is evaluated: what a finite
operand of keys spells is on one side, everything else on the other, as it is and in order (`pick_omit_partition`).

- `lists_of_finite`: whatever a fragment is made of, the texts that it is expanded to are its values.
- `literalKeys_of_isKeySet`: the names that an operand denotes are the texts that it spells.
-/
namespace Schemata

open Expansion

/-! ## Finite operands -/

mutual
/-- **Whether an operand denotes finitely many keys**: a literal, `never`, a pattern that can be expanded, or a union of
such. -/
def Node.isKeySet (limit : Nat) : Node → Bool
  | ⟨.literal _, _, _⟩ | ⟨.primitive .never, _, _⟩ => true
  | ⟨.union variants, _, _⟩ => allKeySets limit variants
  | ⟨.templatePattern fragments, _, _⟩ => (expand limit fragments).values?.isSome
  | _ => false

def allKeySets (limit : Nat) : List Node → Bool
  | [] => true
  | n :: ns => n.isKeySet limit && allKeySets limit ns
end

/-- Where several parts are joined to a finite list, each of them is known. -/
theorem ne_unresolved_of_join {limit : Nat} {f : List (List String) → Expansion} {ns : List Node} {values : List String}
    (h : join f (textsEach limit ns) = .finite values) : ∀ n ∈ ns, n.texts limit ≠ .unresolved := by
  intro n hn hnone
  have hcontains : (textsEach limit ns).contains .unresolved = true := by
    rw [textsEach_eq_map, List.contains_iff_mem, ← hnone]
    exact List.mem_map_of_mem hn
  rw [join, if_pos hcontains] at h
  cases h

/-- **What is listed of several parts is what they have together.** -/
theorem lists_join_of_finite {limit : Nat} {L : String → Prop} {f : List (List String) → Expansion} {ns : List Node}
    (hns : ∀ n ∈ ns, ∀ values, n.texts limit = .finite values → (finite values).Lists n.Spells)
    (hf : ∀ lists, List.Forall₂ (fun values n => (finite values).Lists n.Spells) lists ns → (f lists).Lists L)
    {values : List String} (h : join f (textsEach limit ns) = .finite values) : (finite values).Lists L := by
  rw [← h]
  refine lists_join (fun n hn => ?_) hf
  cases htexts : n.texts limit with
  | finite values => exact hns n hn values htexts
  | unbounded => trivial
  | unresolved => exact absurd htexts (ne_unresolved_of_join h n hn)

/-- **The texts that a fragment is expanded to are its values**, whatever it is made of. -/
theorem lists_of_finite {limit : Nat} {n : Node} {values : List String} (h : n.texts limit = .finite values) :
    (finite values).Lists n.Spells := by
  induction n using Node.induction_on_parts generalizing values with
  | node n ih =>
    obtain ⟨kind, modifiers, annotations⟩ := n
    cases kind with
    | literal l =>
      cases h
      exact fun s => List.mem_singleton
    | primitive p =>
      cases p <;> first | cases h; exact fun s => by simp [Node.Spells] | cases h
    | union variants =>
      rw [Node.texts] at h
      exact lists_join_of_finite (fun c hc values => ih c hc) (fun lists => lists_union) h
    | templatePattern fragments =>
      rw [Node.texts] at h
      exact lists_join_of_finite (fun c hc values => ih c hc) (fun lists => lists_product) h
    | _ => cases h

mutual
/-- **The names that an operand denotes are the texts that it spells**, whatever operator they are for. -/
theorem literalKeys_of_isKeySet {limit : Nat} (n : Node) (h : n.isKeySet limit = true) :
    ∃ names, (∀ s : Setting, s.templateLimit = limit → literalKeys s n = .done (some names)) ∧
      ∀ name, name ∈ names ↔ n.Spells name := by
  unfold Node.isKeySet at h
  split at h
  · exact ⟨_, fun _ _ => rfl, fun name => List.mem_singleton⟩
  · exact ⟨[], fun _ _ => rfl, fun name => ⟨fun h => (by cases h), fun h => h.elim⟩⟩
  · rename_i variants _ _
    exact literalKeysAll_of_allKeySets variants h
  · rename_i fragments _ _
    cases hexpand : expand limit fragments with
    | finite names =>
      refine ⟨names, ?_, lists_join_of_finite (fun _ _ _ => lists_of_finite) (fun _ => lists_product) hexpand⟩
      rintro s rfl
      simp only [literalKeys, hexpand]
      rfl
    | _ =>
      rw [hexpand] at h
      cases h
  · cases h

theorem literalKeysAll_of_allKeySets {limit : Nat} (ns : List Node) (h : allKeySets limit ns = true) :
    ∃ names, (∀ s : Setting, s.templateLimit = limit → literalKeysAll s ns = .done (some names)) ∧
      ∀ name, name ∈ names ↔ Node.SomeSpells ns name := by
  cases ns with
  | nil => exact ⟨[], fun _ _ => rfl, fun name => ⟨fun h => (by cases h), fun h => h.elim⟩⟩
  | cons n ns =>
    rw [allKeySets, Bool.and_eq_true] at h
    obtain ⟨names, hnames, hmem⟩ := literalKeys_of_isKeySet n h.1
    obtain ⟨more, hmore, hmemMore⟩ := literalKeysAll_of_allKeySets ns h.2
    refine ⟨names ++ more, fun s hs => ?_, fun name => ?_⟩
    · rw [literalKeysAll, hnames s hs, Outcome.done_bind, hmore s hs]
      rfl
    · rw [List.mem_append, hmem, hmemMore, Node.SomeSpells]
end

theorem literalKeysAll_texts (s : Setting) (names : List String) :
    literalKeysAll s (names.map Node.text) = .done (some names) := by
  induction names with
  | nil => rfl
  | cons name names ih =>
    have hname : literalKeys s (.text name) = .done (some [name]) := rfl
    rw [List.map_cons, literalKeysAll, hname, Outcome.done_bind, ih]
    rfl

/-- **The names of an object, as a domain of keys, denote themselves.** -/
theorem literalKeys_unionOf_texts (s : Setting) {names : List String} (h : names.Nodup) :
    literalKeys s (.unionOf (names.map Node.text)) = .done (some names) := by
  rcases Node.unionOf_texts_cases h with ⟨rfl, hunion⟩ | ⟨name, rfl, hunion⟩ | hunion <;> rw [hunion]
  · rfl
  · rfl
  · exact literalKeysAll_texts s names

/-! ## Picking and omitting -/

section
variable {s : Setting} {n : Node} {parts : List (Fields Node)} {properties : Fields Node}

/-- **Choosing among the properties of an object** by the names that an operand denotes. -/
theorem selectProperties_of_objects (h : n.objects = some parts) (hproperties : collapse n = .properties properties)
    {k : Node} {names : List String} (hnames : literalKeys s k = .done (some names)) (keep : Bool) :
    selectProperties s keep [n, k] =
      .done (some (.of (.object (properties.filter fun e => names.contains e.1 == keep)))) := by
  rw [selectProperties, hnames, Outcome.done_bind]
  refine (openSubject_of_objects h _ _).trans ?_
  obtain ⟨kind, modifiers, annotations⟩ := n
  rcases kind_of_objects h with ⟨_, rfl⟩ | ⟨_, rfl⟩ <;> simp only [changeLeaf, hproperties] <;> rfl

/-- Evaluation keeps an object and makes one of an intersection of objects. -/
theorem evaluateShape_of_objects (h : n.objects = some parts) (hproperties : collapse n = .properties properties) :
    ∃ evaluated, evaluateShape s [n] = .done (some evaluated) ∧ evaluated.kind = .object properties := by
  have hopen : evaluateShape s [n] = evaluateLeaf n := openSubject_of_objects h _ _
  rw [hopen]
  obtain ⟨kind, modifiers, annotations⟩ := n
  rcases kind_of_objects h with ⟨_, rfl⟩ | ⟨_, rfl⟩
  · rw [collapse] at hproperties
    cases hproperties
    exact ⟨⟨.object properties, modifiers, annotations⟩, rfl, rfl⟩
  · refine ⟨.of (.object properties), ?_, rfl⟩
    simp only [evaluateLeaf, hproperties]
    rfl

theorem pick_of_objects (h : n.objects = some parts) (hproperties : collapse n = .properties properties) {k : Node}
    {names : List String} (hnames : literalKeys { s with operator := .pick } k = .done (some names)) :
    reduceEager { s with operator := .pick } [n, k] =
      .done (some (.of (.object (properties.filter fun e => names.contains e.1)))) := by
  have hselect := selectProperties_of_objects h hproperties hnames true
  simp only [beq_true] at hselect
  exact hselect

theorem omit_of_objects (h : n.objects = some parts) (hproperties : collapse n = .properties properties) {k : Node}
    {names : List String} (hnames : literalKeys { s with operator := .omit } k = .done (some names)) :
    reduceEager { s with operator := .omit } [n, k] =
      .done (some (.of (.object (properties.filter fun e => !names.contains e.1)))) := by
  have hselect := selectProperties_of_objects h hproperties hnames false
  simp only [beq_false] at hselect
  exact hselect

/-- **Picking and omitting part the properties** of an object, or of an intersection of objects, among them.  Both are
always done: the properties of the object that evaluation gives are picked if the operand spells their names and omitted
if not, in order and each as it is.  By the domain of its own keys all of an object is picked and nothing is left. -/
theorem pick_omit_partition (hn : n.isProper = true) (h : n.objects = some parts) {k : Node}
    (hk : k.isKeySet s.templateLimit = true) :
    ∃ (properties : Fields Node) (evaluated : Node),
      reduceEager { s with operator := .evaluate } [n] = .done (some evaluated) ∧
      evaluated.kind = .object properties ∧
      (∃ names : List String, (∀ name, name ∈ names ↔ k.Spells name) ∧
        reduceEager { s with operator := .pick } [n, k] =
          .done (some (.of (.object (properties.filter fun e => names.contains e.1)))) ∧
        reduceEager { s with operator := .omit } [n, k] =
          .done (some (.of (.object (properties.filter fun e => !names.contains e.1))))) ∧
      ∃ keys, reduceEager { s with operator := .keyOf } [n] = .done (some keys) ∧
        reduceEager { s with operator := .pick } [n, keys] = .done (some (.of (.object properties))) ∧
        reduceEager { s with operator := .omit } [n, keys] = .done (some (.of (.object []))) := by
  obtain ⟨properties, hproperties, hdistinct, -⟩ := get?_of_collapse hn h
  obtain ⟨evaluated, hevaluated, hkind⟩ :=
    evaluateShape_of_objects (s := { s with operator := .evaluate }) h hproperties
  refine ⟨properties, evaluated, hevaluated, hkind, ?_, ?_⟩
  · obtain ⟨names, hnames, hspells⟩ := literalKeys_of_isKeySet k hk
    exact ⟨names, hspells, pick_of_objects h hproperties (hnames _ rfl), omit_of_objects h hproperties (hnames _ rfl)⟩
  · have hall : ∀ e ∈ properties, properties.names.contains e.1 = true := fun e he =>
      List.contains_iff_mem.2 (List.mem_map_of_mem he)
    have hnames : ∀ s : Setting, literalKeys s (.unionOf (properties.names.map Node.text)) =
        .done (some properties.names) := fun s => literalKeys_unionOf_texts s hdistinct
    refine ⟨_, (openSubject_of_objects h _ _).trans (keysLeaf_of_objects h hproperties), ?_, ?_⟩
    · rw [pick_of_objects h hproperties (hnames _), List.filter_eq_self.2 hall]
    · have hnone : ∀ e ∈ properties, ¬ (!properties.names.contains e.1) = true := fun e he hnot => by
        rw [hall e he] at hnot
        cases hnot
      rw [omit_of_objects h hproperties (hnames _), List.filter_eq_nil_iff.2 hnone]

end

/-- A number and a pattern as keys of an intersection that holds one property twice. -/
theorem pick_omit_partition_merged :
    let s : Setting := ⟨4, fun _ _ n => .done n, [], {}, .pick⟩
    let b : Node := ⟨.primitive .number, ⟨true, true⟩, []⟩
    let n : Node := .intersect [.object [("1", .string), ("b", b)],
      .intersect [.object [("xy", .null), ("b", .integer)], .object [("c", .boolean)]]]
    let k : Node := .union [.natural 1, .never, .templatePattern [.text "x", .union [.text "y", .text "z"]]]
    n.isProper = true ∧ k.isKeySet s.templateLimit = true ∧
      reduceEager { s with operator := .pick } [n, k] =
        .done (some (.of (.object [("1", .string), ("xy", .null)]))) ∧
      reduceEager { s with operator := .omit } [n, k] =
        .done (some (.of (.object [("b", ⟨.intersect [.number, .integer], ⟨false, true⟩, []⟩), ("c", .boolean)]))) := by
  intro s b n k
  have hn : n.isProper = true := by decide +kernel
  have hk : k.isKeySet s.templateLimit = true := by decide +kernel
  obtain ⟨properties, evaluated, hevaluated, hkind, ⟨names, hnames, hpick, homit⟩, -⟩ :=
    pick_omit_partition (s := s) (n := n) hn rfl hk
  have hproperties : properties = [("1", .string), ("b", ⟨.intersect [.number, .integer], ⟨false, true⟩, []⟩),
      ("xy", .null), ("c", .boolean)] := by
    have hvalue : reduceEager { s with operator := .evaluate } [n] = .done (some (.of (.object
        [("1", .string), ("b", ⟨.intersect [.number, .integer], ⟨false, true⟩, []⟩), ("xy", .null), ("c", .boolean)]))) := by
      with_unfolding_all rfl
    cases hvalue.symm.trans hevaluated
    cases hkind
    rfl
  have hone : (Literal.number (.ofNat 1)).toKey = "1" := by decide +kernel
  have hin : names.contains "1" = true ∧ names.contains "xy" = true := by
    rw [List.contains_iff_mem, List.contains_iff_mem, hnames, hnames]
    exact ⟨.inl hone.symm, .inr (.inr (.inl ⟨"x", "y", rfl, rfl, "y", "", rfl, .inl rfl, rfl⟩))⟩
  have hout : ∀ name, name ≠ "1" → name.toList.head? ≠ some 'x' → names.contains name = false := by
    intro name hne hx
    rw [← Bool.not_eq_true, List.contains_iff_mem, hnames]
    rintro (h | h | ⟨front, back, rfl, rfl, -⟩ | h)
    · exact hne (h.trans hone)
    · exact h
    · exact hx (by rw [String.toList_append]; rfl)
    · exact h
  have hb : names.contains "b" = false := hout "b" (by decide) (by decide)
  have hc : names.contains "c" = false := hout "c" (by decide) (by decide)
  rw [hproperties] at hpick homit
  simp only [List.filter_cons, List.filter_nil, hin, hb, hc] at hpick homit
  exact ⟨hn, hk, hpick, homit⟩

end Schemata
