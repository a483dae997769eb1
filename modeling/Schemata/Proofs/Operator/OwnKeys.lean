import Schemata.Instantiation.Run
import Schemata.Proofs.Node.Normal
import Schemata.Proofs.Number.Whole
import Schemata.Proofs.Operator.Merging
import Schemata.Proofs.Operator.Yields
/-!
# Access by all keys

The domain of keys of an object, of an intersection of objects, of an array or of a tuple is `never`, one key, a union of
keys or `number`.  Access by all of it gives the union of what the node holds (`index_keyOf`), but fails for the tuple
without items (`index_keyOf_empty`).

- `Node.Contents`: what a node holds under its keys.
- `indexBy_keys`: access by a union of different keys, however many there are.
-/
namespace Schemata

open List (Forall₂)

/-! ## What a node holds -/

/-- **What a node holds under its keys.**  Properties and items have flags for the place that they are in, which are not
part of the type there; the item of an array and the rest of a tuple are types as they are. -/
inductive Node.Contents : Node → List Node → Prop
  | properties {n : Node} {parts : List (Fields Node)} (h : n.objects = some parts) {properties : Fields Node}
    (hproperties : collapse n = .properties properties) : Contents n (properties.values.map bare)
  | array (item : Node) (m : Modifiers) (a : Annotations) : Contents ⟨.array item, m, a⟩ [item]
  | tuple (items : List Node) (m : Modifiers) (a : Annotations) : Contents ⟨.tuple items false, m, a⟩ (items.map bare)
  | restTuple (items : List Node) (rest : Node) (m m' : Modifiers) (a a' : Annotations) :
    Contents ⟨.tuple (items ++ [⟨.array rest, m', a'⟩]) true, m, a⟩ (items.map bare ++ [rest])

/-! ## Opening -/

theorem kind_of_objects {n : Node} {parts : List (Fields Node)} (h : n.objects = some parts) :
    (∃ properties, n.kind = .object properties) ∨ ∃ ns, n.kind = .intersect ns := by
  rcases Node.objects_cases h with ⟨properties, hk, -⟩ | ⟨hk, -⟩ | ⟨ns, hk, -, -⟩
  · exact .inl ⟨properties, hk⟩
  · exact .inr ⟨[], hk⟩
  · exact .inr ⟨ns, hk⟩

section
variable {s : Setting} {n : Node} {parts : List (Fields Node)} {properties : Fields Node}

/-- Objects and intersections are not opened. -/
theorem openSubject_of_objects (h : n.objects = some parts) (join : List Node → Node)
    (leaf : Node → Outcome (Option Node)) : s.openSubject join leaf n = leaf n := by
  obtain ⟨kind, modifiers, annotations⟩ := n
  rcases kind_of_objects h with ⟨_, rfl⟩ | ⟨_, rfl⟩ <;> rfl

/-! ## Objects -/

/-- **The keys of an object are the names of its properties.** -/
theorem keysLeaf_of_objects (h : n.objects = some parts) (hproperties : collapse n = .properties properties) :
    keysLeaf n = .done (some (.unionOf (properties.names.map Node.text))) := by
  obtain ⟨kind, modifiers, annotations⟩ := n
  rcases kind_of_objects h with ⟨_, rfl⟩ | ⟨_, rfl⟩ <;> simp only [keysLeaf, hproperties] <;> rfl

theorem indexLeaf_of_objects (h : n.objects = some parts) (key : Node) : indexLeaf s key n = propertyAccess s n key := by
  obtain ⟨kind, modifiers, annotations⟩ := n
  rcases kind_of_objects h with ⟨_, rfl⟩ | ⟨_, rfl⟩ <;> rfl

/-- **Access to a property by its name.** -/
theorem indexLeaf_text (h : n.objects = some parts) (hproperties : collapse n = .properties properties) {name : String}
    {type : Node} (hget : properties.get? name = some type) :
    indexLeaf s (.text name) n = .done (some (.unionOf [type.bare])) := by
  have hkeys : literalKeys s (.text name) = .done (some [name]) := rfl
  rw [indexLeaf_of_objects h, propertyAccess, hproperties]
  simp only [hkeys, Outcome.done_bind, propertyTypes, hget]
  rfl

theorem indexLeaf_never (h : n.objects = some parts) (hproperties : collapse n = .properties properties) :
    indexLeaf s .never n = .done (some .never) := by
  rw [indexLeaf_of_objects h, propertyAccess, hproperties]
  rfl

end

/-! ## Access by several keys -/

section
variable {s : Setting} {n : Node}

/-- A literal is neither opened as a key nor waited for. -/
theorem indexBy_literal (hopen : ∀ leaf, s.openSubject Node.unionOf leaf n = leaf n) (l : Literal) :
    indexBy s n (.literal l) = indexLeaf s (.literal l) n := by
  rw [Node.literal, Node.of, indexBy, if_neg, hopen]
  · exact Bool.false_ne_true
  · simp

/-- **Access by the union of different keys** gives the union of what they lead to, however many they are. -/
theorem indexBy_keys (hopen : ∀ leaf, s.openSubject Node.unionOf leaf n = leaf n) {α : Type} {xs : List α}
    {l : α → Literal} {type : α → Node} (hdifferent : xs.Pairwise fun x y => (l x == l y) = false)
    (hleaf : ∀ x ∈ xs, indexLeaf s (.literal (l x)) n = .done (some (type x)))
    (hnone : xs = [] → indexLeaf s .never n = .done (some .never)) :
    ∃ result, indexBy s n (.unionOf ((xs.map l).map Node.literal)) = .done (some result) ∧
      Node.unionOf [result] = .unionOf (xs.map type) := by
  have hindex : ∀ x ∈ xs, indexBy s n (.literal (l x)) = .done (some (type x)) := fun x hx => by
    rw [indexBy_literal hopen, hleaf x hx]
  rcases Node.unionOf_literals_cases (List.pairwise_map.2 hdifferent) with ⟨hnil, h⟩ | ⟨l', hone, h⟩ | h
  · have hxs : xs = [] := List.map_eq_nil_iff.1 hnil
    refine ⟨.never, ?_, by rw [hxs]; rfl⟩
    rw [h]
    exact (hopen (indexLeaf s .never)).trans (hnone hxs)
  · obtain ⟨x, rfl, rfl⟩ := List.map_eq_singleton_iff.1 hone
    exact ⟨type x, by rw [h, hindex x (List.mem_singleton_self x)], rfl⟩
  · refine ⟨.unionOf (xs.map type), ?_, Node.unionOf_unionOf _⟩
    have hcollect : Outcome.collect? (indexBy s n) ((xs.map l).map Node.literal) = .done (some (xs.map type)) := by
      refine Outcome.collect?_eq_some_iff.2 ?_
      rw [List.map_map, List.forall₂_map_left_iff, List.forall₂_map_right_iff, List.forall₂_same]
      exact hindex
    rw [h, Node.union, Node.of, indexBy, indexByEach_eq_collect?, hcollect]
    rfl

end

/-! ## Tuples -/

theorem elementTypes_append (rest : Bool) (items : List Node) (last : Node) :
    elementTypes rest (items ++ [last]) = items.map Node.bare ++ [elementType rest last] := by
  induction items with
  | nil => rfl
  | cons item items ih =>
    have hitem : elementType false item = item.bare := by
      rw [elementType]
      simp
    rw [List.cons_append, elementTypes, ih, hitem]
    · rfl
    · simp

section
variable {s : Setting} {items : List Node} {m : Modifiers} {a : Annotations}

/-- **Access to an item by its position.** -/
theorem indexLeaf_natural {i : Nat} (hi : i < Nat.pow 2 53) {item : Node} (hitem : items[i]? = some item) :
    indexLeaf s (.natural i) ⟨.tuple items false, m, a⟩ = .done (some item.bare) := by
  have hword : (UInt64.ofNatClamp i).toNat = i := by
    rw [UInt64.ofNatClamp, dif_pos (Nat.lt_trans hi (by decide))]
    exact UInt64.toNat_ofNatLT
  have helement : elementAt? items false (.ofNatClamp i) = some item.bare := by
    rw [elementAt?, hword]
    simp [hitem, elementType]
  have hindex : (Node.natural i).index? = some (.ofNatClamp i) := by
    simp only [Node.index?, Node.natural, Node.literal, Node.of, Number.toNat?_ofNat hi, Option.map_some]
  simp only [indexLeaf, tupleAccess, hindex, helement]
  rfl

end

theorem different_naturals {i j : Nat} (hi : i < Nat.pow 2 53) (hj : j < Nat.pow 2 53) (h : i ≠ j) :
    (Literal.number (.ofNat i) == Literal.number (.ofNat j)) = false := by
  refine Bool.eq_false_iff.2 fun heq => h ?_
  have hsame := Number.toNat?_of_sameAs heq
  rw [Number.toNat?_ofNat hi, Number.toNat?_ofNat hj] at hsame
  exact Option.some.inj hsame

/-! ## Access by the whole domain -/

section
variable {s : Setting} {n : Node} {types : List Node}

theorem index_keyOf_objects (hn : n.isProper = true) {parts : List (Fields Node)} (h : n.objects = some parts)
    {properties : Fields Node} (hproperties : collapse n = .properties properties) :
    ∃ result, indexBy s n (.unionOf (properties.names.map Node.text)) = .done (some result) ∧
      Node.unionOf [result] = .unionOf (properties.values.map Node.bare) := by
  have hdistinct : properties.Distinct := by
    obtain ⟨_, hcollapse, hdistinct, -⟩ := get?_of_collapse hn h
    cases hproperties.symm.trans hcollapse
    exact hdistinct
  have hdifferent : properties.Pairwise fun e f => (Literal.string e.1 == Literal.string f.1) = false :=
    List.pairwise_map.1 (List.pairwise_map.1 (Node.different_strings hdistinct))
  have hleaf : ∀ e ∈ properties,
      indexLeaf s (.literal (.string e.1)) n = .done (some (.unionOf [e.2.bare])) := fun e he =>
    indexLeaf_text h hproperties (Fields.get?_of_mem hdistinct he)
  obtain ⟨result, hindex, hresult⟩ := indexBy_keys (fun leaf => openSubject_of_objects h _ leaf) hdifferent hleaf
    fun _ => indexLeaf_never h hproperties
  have hnames : properties.names.map Node.text = (properties.map fun e => Literal.string e.1).map Node.literal := by
    rw [Fields.names, List.map_map, List.map_map]
    rfl
  have htypes : (properties.values.map Node.bare).map (fun type => Node.unionOf [type]) =
      properties.map fun e => Node.unionOf [e.2.bare] := by
    rw [Fields.values, List.map_map, List.map_map]
    rfl
  exact ⟨result, hnames ▸ hindex, by rw [hresult, ← htypes, Node.unionOf_map_unionOf]⟩

theorem index_keyOf_tuple {items : List Node} (hsome : items ≠ []) (hlength : items.length ≤ Nat.pow 2 53) (m : Modifiers)
    (a : Annotations) : ∃ result,
      indexBy s ⟨.tuple items false, m, a⟩ (.unionOf ((List.range items.length).map Node.natural)) =
        .done (some result) ∧ Node.unionOf [result] = .unionOf (items.map Node.bare) := by
  have hpositions : items.zipIdx.map Prod.snd = List.range items.length := by
    rw [List.zipIdx_map_snd, List.range_eq_range']
  have hitem : ∀ e ∈ items.zipIdx, items[e.2]? = some e.1 := fun e he => List.mem_zipIdx_iff_getElem?.1 he
  have hbound : ∀ e ∈ items.zipIdx, e.2 < Nat.pow 2 53 := fun e he =>
    Nat.lt_of_lt_of_le (List.getElem?_eq_some_iff.1 (hitem e he)).1 hlength
  have hdifferent : items.zipIdx.Pairwise fun e f =>
      (Literal.number (.ofNat e.2) == Literal.number (.ofNat f.2)) = false := by
    have hnodup : items.zipIdx.Pairwise fun e f => e.2 ≠ f.2 := List.pairwise_map.1 (hpositions ▸ List.nodup_range)
    exact hnodup.imp_of_mem fun he hf hne => different_naturals (hbound _ he) (hbound _ hf) hne
  obtain ⟨result, hindex, hresult⟩ := indexBy_keys (s := s) (n := ⟨.tuple items false, m, a⟩) (fun _ => rfl) hdifferent
    (fun e he => indexLeaf_natural (hbound e he) (hitem e he)) fun hnil => absurd (List.zipIdx_eq_nil_iff.1 hnil) hsome
  have hkeys : (List.range items.length).map Node.natural =
      (items.zipIdx.map fun e => Literal.number (.ofNat e.2)).map Node.literal := by
    rw [← hpositions, List.map_map, List.map_map]
    rfl
  have htypes : (items.zipIdx.map fun e => e.1.bare) = items.map Node.bare := by
    conv_rhs => rw [← List.zipIdx_map_fst 0 items, List.map_map]
    rfl
  exact ⟨result, hkeys ▸ hindex, htypes ▸ hresult⟩

/-- **Access by all keys gives all that is held**, for every object, intersection of objects, array or tuple but the tuple
without items, as long as positions are numbers exactly. -/
theorem index_keyOf (hn : n.isProper = true) (h : n.Contents types) (hsome : n.kind ≠ .tuple [] false)
    (hlength : ∀ items, n.kind = .tuple items false → items.length ≤ Nat.pow 2 53) :
    ∃ keys result, reduceEager { s with operator := .keyOf } [n] = .done (some keys) ∧
      reduceEager { s with operator := .index } [n, keys] = .done (some result) ∧
      Node.unionOf [result] = .unionOf types := by
  cases h with
  | properties h hproperties =>
    obtain ⟨result, hindex, hresult⟩ := index_keyOf_objects (s := { s with operator := .index }) hn h hproperties
    exact ⟨_, result, (openSubject_of_objects h _ _).trans (keysLeaf_of_objects h hproperties), hindex, hresult⟩
  | array item m a => exact ⟨.number, item, rfl, rfl, rfl⟩
  | tuple items m a =>
    have hitems : items ≠ [] := fun hnil => hsome (by rw [hnil])
    obtain ⟨result, hindex, hresult⟩ :=
      index_keyOf_tuple (s := { s with operator := .index }) hitems (hlength items rfl) m a
    exact ⟨_, result, rfl, hindex, hresult⟩
  | restTuple items rest m m' a a' =>
    refine ⟨.number, .unionOf (items.map Node.bare ++ [rest]), rfl, ?_, Node.unionOf_unionOf _⟩
    have hindex : indexBy { s with operator := .index } ⟨.tuple (items ++ [⟨.array rest, m', a'⟩]) true, m, a⟩ .number =
        .done (some (.unionOf (elementTypes true (items ++ [⟨.array rest, m', a'⟩])))) := rfl
    rw [elementTypes_append] at hindex
    exact hindex

end

/-- An intersection of objects that share a property, with flags in the first. -/
theorem index_keyOf_intersection :
    let s : Setting := ⟨1, fun _ _ n => .done n, [], {}, .keyOf⟩
    let name : Node := ⟨.primitive .string, ⟨true, true⟩, []⟩
    let n : Node := .intersect [.object [("name", name), ("age", .number)], .intersect [.object [("age", .integer)]]]
    n.isProper = true ∧ n.Contents [.string, .intersect [.number, .integer]] ∧ n.kind ≠ .tuple [] false ∧
      ∃ keys result, reduceEager { s with operator := .keyOf } [n] = .done (some keys) ∧
        reduceEager { s with operator := .index } [n, keys] = .done (some result) ∧
        Node.unionOf [result] = .union [.string, .intersect [.number, .integer]] := by
  intro s name n
  have hn : n.isProper = true := by decide +kernel
  have hobjects : n.objects = some [[("name", name), ("age", .number)], [("age", .integer)]] := rfl
  have hproperties : collapse n = .properties [("name", name), ("age", .intersect [.number, .integer])] := by
    with_unfolding_all rfl
  have hcontents : n.Contents [.string, .intersect [.number, .integer]] := .properties hobjects hproperties
  have htuple : ∀ items, n.kind ≠ .tuple items false := fun _ h => by cases h
  obtain ⟨keys, result, hkeys, hindex, hresult⟩ :=
    index_keyOf (s := s) hn hcontents (htuple []) fun items h => absurd h (htuple items)
  exact ⟨hn, hcontents, htuple [], keys, result, hkeys, hindex, hresult.trans (by with_unfolding_all rfl)⟩

/-- The tuple without items has no keys, and no access by no keys. -/
theorem index_keyOf_empty :
    (Node.tuple []).Contents [] ∧ instantiate {} [] (.keyOf (.tuple [])) = .done .never ∧
      instantiate {} [] (.index (.tuple []) (.keyOf (.tuple []))) =
        .failed (.structuralMismatch .index .numericIndex .never) :=
  ⟨.tuple [] .plain [], by with_unfolding_all rfl, by with_unfolding_all rfl⟩

end Schemata
