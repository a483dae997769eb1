import Schemata.Node.Build
import Schemata.Node.Saved
import Schemata.Proofs.Json.Reading
import Schemata.Proofs.Node.Proper
/-!
# Saving and loading

What is saved is loaded again as it was: the order of properties, definitions and names, the flags, the annotations and
the options included.

- `Node.IsRead`: the node is read back from the document that it is written as.  So is every proper node, by induction
  on its parts (`Node.isRead_of_isProper`).
- `Node.Fits`: the node is proper and written with no more levels than it was read with.  So is every node that is read
  from any document, by induction on the levels (`Document.fits_of_node?`).

Main statement: `loading_inverts_saving`.  Numbers have to be read back from their texts, which the quick way of reading
them does not achieve for each (`Number.ReadsBack`).
-/
namespace Schemata

/-! ## What is written -/

theorem nodesToJson_eq (ns : List Node) : nodesToJson ns = ns.map Node.toJson := by
  induction ns with
  | nil => rfl
  | cons n ns ih => rw [nodesToJson, ih, List.map_cons]

theorem fieldsToJson_eq (fields : List (String × Node)) :
    fieldsToJson fields = fields.map fun e => (e.1, e.2.toJson) := by
  induction fields with
  | nil => rfl
  | cons e rest ih => rw [fieldsToJson, ih, List.map_cons]

theorem parametersToJson_eq (ps : List (Parameter Node)) : parametersToJson ps = ps.map parameterToJson := by
  induction ps with
  | nil => rfl
  | cons p ps ih => rw [parametersToJson, ih, List.map_cons]

/-- Where names are distinct, one member at most has a name. -/
theorem Fields.filter_of_distinct {α : Type} {fields : Fields α} (h : fields.Distinct) (name : String) :
    fields.filter (fun e => e.1 == name) = ((fields.get? name).map fun value => (name, value)).toList := by
  induction fields with
  | nil => rfl
  | cons e rest ih =>
    obtain ⟨old, kept⟩ := e
    obtain ⟨hnew, hrest⟩ := List.nodup_cons.1 h
    rw [List.filter_cons, Fields.get?_cons]
    by_cases hold : old = name
    · have hnone : Fields.get? rest name = none := by
        cases hg : Fields.get? rest name with
        | none => rfl
        | some value => exact absurd (List.mem_map_of_mem (Fields.mem_of_get? hg)) (hold ▸ hnew)
      rw [if_pos (by simp [hold]), if_pos hold, ih hrest, hnone, hold]
      rfl
    · rw [if_neg (by simp [hold]), if_neg hold, ih hrest]

theorem Document.expect?_eq {members : Fields Document} (h : members.Distinct) (names : List String) :
    expect? names members = some (names.map members.get?) := by
  refine mapM_of_some fun name _ => ?_
  rw [Fields.filter_of_distinct h]
  cases members.get? name <;> rfl

/-- The numbers in annotations are in their field, if they have one. -/
theorem Annotations.exists_of_mem_numbers {a : Annotations} {name : String} {x : Number} (hx : x ∈ (Json.object a).numbers) :
    ∃ e ∈ a.toFields name, x ∈ e.2.numbers := by
  cases a with
  | nil => cases hx
  | cons e rest => exact ⟨_, List.mem_singleton_self _, hx⟩

/-- The numbers of a part are among those of the whole. -/
theorem Kind.mem_numbers_of_part {kind : Kind Node} {c : Node} (hc : c ∈ kind.parts) {x : Number}
    (hx : x ∈ c.toJson.numbers) : x ∈ (kindToField kind).2.numbers := by
  have hlist : ∀ ns : List Node, c ∈ ns → x ∈ (Json.array (nodesToJson ns)).numbers := fun ns hc => by
    rw [nodesToJson_eq]
    exact Json.mem_numbers_array.2 ⟨c.toJson, List.mem_map_of_mem hc, hx⟩
  have hfields : ∀ fields : List (String × Node), c ∈ fields.map Prod.snd →
      x ∈ (Json.object (fieldsToJson fields)).numbers := fun fields hc => by
    rw [fieldsToJson_eq]
    obtain ⟨e, he, rfl⟩ := List.mem_map.1 hc
    exact Json.mem_numbers_object.2 ⟨(e.1, e.2.toJson), List.mem_map_of_mem he, hx⟩
  have hparameter : ∀ p : Parameter Node, c ∈ p.parts → x ∈ (parameterToJson p).numbers := fun p hc => by
    obtain ⟨name, constraint, default⟩ := p
    rw [Parameter.parts, List.mem_pair] at hc
    rw [parameterToJson, Json.mem_numbers_object]
    rcases hc with rfl | rfl <;> simp [hx]
  cases kind with
  | primitive | literal | ref => cases hc
  | array item => rwa [List.mem_singleton.1 hc] at hx
  | object fields => exact hfields fields hc
  | union ns | intersect ns | templatePattern ns => exact hlist ns hc
  | parameter p => exact hparameter p hc
  | tuple ns | deferred _ ns =>
    have hns := hlist ns hc
    simp [kindToField, Json.mem_numbers_object, hns]
  | function ns n | constructor ns n =>
    simp only [kindToField, Json.mem_numbers_object]
    rcases List.mem_append.1 hc with hc | hc
    · simp [hlist ns hc]
    · simp [← List.mem_singleton.1 hc, hx]
  | wrapper w item =>
    rw [List.mem_singleton.1 hc] at hx
    simp [kindToField, Json.mem_numbers_object, hx]
  | dictionary key value =>
    simp only [kindToField, Json.mem_numbers_object]
    rcases List.mem_pair.1 hc with rfl | rfl <;> simp [hx]
  | generic ps body =>
    simp only [kindToField, Json.mem_numbers_object]
    rcases List.mem_append.1 hc with hc | hc
    · obtain ⟨p, hp, hc⟩ := List.mem_flatMap.1 hc
      have hps : x ∈ (Json.array (parametersToJson ps)).numbers := by
        rw [parametersToJson_eq]
        exact Json.mem_numbers_array.2 ⟨parameterToJson p, List.mem_map_of_mem hp, hparameter p hc⟩
      simp [hps]
    · simp [← List.mem_singleton.1 hc, hx]
  | call target ns =>
    simp only [kindToField, Json.mem_numbers_object]
    rcases List.mem_cons.1 hc with rfl | hc
    · simp [hx]
    · simp [hlist ns hc]
  | cyclic fields root =>
    have hcyclic := hfields fields hc
    simp [kindToField, Json.mem_numbers_object, hcyclic]

/-- What is in the fields of a node is in the node. -/
theorem Node.mem_numbers_toJson {kind : Kind Node} {modifiers : Modifiers} {annotations : Annotations} {x : Number}
    (hx : x ∈ (kindToField kind).2.numbers ∨ x ∈ (Json.object annotations).numbers) :
    x ∈ (toJson ⟨kind, modifiers, annotations⟩).numbers := by
  rw [toJson, Json.mem_numbers_object]
  rcases hx with hx | hx
  · exact ⟨("kind", .object [kindToField kind]), List.mem_cons_self,
      Json.mem_numbers_object.2 ⟨kindToField kind, List.mem_singleton_self _, hx⟩⟩
  · obtain ⟨e, he, hx⟩ := Annotations.exists_of_mem_numbers hx
    exact ⟨e, List.mem_cons_of_mem _ (List.mem_append_right _ he), hx⟩

namespace Document

/-- **A record is read field by field.** -/
theorem record?_spelled {fields : List (String × Json)} (h : Fields.Distinct fields) (names : List String) :
    (Json.object fields).spelled.record? names =
      some (names.map fun name => (Fields.get? fields name).map Json.spelled) := by
  have hfields : (fields.map fun e => (e.1, e.2.spelled)) = Fields.mapValues Json.spelled fields := rfl
  have hd : Fields.Distinct (Fields.mapValues Json.spelled fields) := by
    rw [Fields.Distinct, Fields.mapValues, List.map_map]
    exact h
  rw [Json.spelled_object, record?, named?_spelled, hfields]
  dsimp only [Option.bind_eq_bind, Option.bind_some]
  rw [expect?_eq hd]
  exact congrArg some (List.map_congr_left fun name _ => Fields.get?_mapValues Json.spelled fields name)

theorem record?_pair {first second : String} (h : first ≠ second) (x y : Json) :
    (Json.object [(first, x), (second, y)]).spelled.record? [first, second] = some [some x.spelled, some y.spelled] := by
  rw [record?_spelled (by simp [Fields.Distinct, h])]
  simp [Fields.get?_cons, h]

end Document

namespace Node

/-- **A node is read back from the document that it is written as**, with levels enough. -/
def IsRead (n : Node) : Prop :=
  ∀ levels, n.toJson.levels ≤ levels → n.toJson.spelled.node? levels = some n

end Node

namespace Document

variable {levels : Nat}

theorem nodes?_spelled {ns : List Node} (h : ∀ c ∈ ns, c.IsRead) (hl : (Json.array (ns.map Node.toJson)).levels ≤ levels) :
    (Json.array (ns.map Node.toJson)).spelled.nodes? levels = some ns := by
  obtain ⟨k, rfl, hparts⟩ := Json.exists_of_levels_array_le hl
  rw [List.forall_mem_map] at hparts
  have hitems : ((ns.map Node.toJson).map Json.spelled).mapM (node? k) = some ns := by
    rw [List.map_map]
    exact mapM_map_of_some fun c hc => h c hc k (hparts c hc)
  rw [Json.spelled_array, nodes?, list?, hitems]

theorem nodeFields?_spelled {fields : Fields Node} (hd : fields.Distinct) (h : ∀ e ∈ fields, e.2.IsRead)
    (hl : (Json.object (fields.map fun e => (e.1, e.2.toJson))).levels ≤ levels) :
    (Json.object (fields.map fun e => (e.1, e.2.toJson))).spelled.nodeFields? levels = some fields := by
  obtain ⟨k, rfl, hparts⟩ := Json.exists_of_levels_object_le hl
  rw [List.forall_mem_map] at hparts
  have hmembers : ((fields.map fun e => (e.1, e.2.toJson)).map fun e => (e.1, e.2.spelled)).mapM
      (fun e => do return (e.1, ← node? k e.2)) = some fields := by
    rw [List.map_map]
    refine mapM_map_of_some fun e he => ?_
    dsimp only [Function.comp_apply]
    rw [h e he k (hparts e he)]
    rfl
  rw [Json.spelled_object, nodeFields?, fields?, named?_spelled]
  dsimp only [Option.bind_eq_bind, Option.bind_some] at hmembers ⊢
  rw [hmembers, Option.bind_some, Fields.ofList_of_distinct hd]
  rfl

theorem parameter?_spelled {p : Parameter Node} (h : ∀ c ∈ p.parts, c.IsRead) (hl : (parameterToJson p).levels ≤ levels) :
    (parameterToJson p).spelled.parameter? levels = some p := by
  obtain ⟨name, constraint, default⟩ := p
  obtain ⟨k, rfl, hparts⟩ := Json.exists_of_levels_object_le hl
  have hconstraint := h constraint (by simp [Parameter.parts]) k (hparts ("constraint", constraint.toJson) (by simp))
  have hdefault := h default (by simp [Parameter.parts]) k (hparts ("default", default.toJson) (by simp))
  rw [parameterToJson, parameter?, record?_spelled (by simp [Fields.Distinct])]
  simp [Fields.get?_cons, hconstraint, hdefault]
  rfl

theorem parameters?_spelled {ps : List (Parameter Node)} (h : ∀ c ∈ ps.flatMap Parameter.parts, c.IsRead)
    (hl : (Json.array (ps.map parameterToJson)).levels ≤ levels) :
    (Json.array (ps.map parameterToJson)).spelled.parameters? levels = some ps := by
  obtain ⟨k, rfl, hparts⟩ := Json.exists_of_levels_array_le hl
  rw [List.forall_mem_map] at hparts
  have hitems : ((ps.map parameterToJson).map Json.spelled).mapM (parameter? k) = some ps := by
    rw [List.map_map]
    refine mapM_map_of_some fun p hp => ?_
    exact parameter?_spelled (fun c hc => h c (List.mem_flatMap.2 ⟨p, hp, hc⟩)) (hparts p hp)
  rw [Json.spelled_array, parameters?, list?, hitems]

/-- What a node has of annotations or options is read back, and missing ones are none. -/
theorem annotations?_toFields {a : Annotations} {name : String} (hn : ∀ x ∈ (Json.object a).numbers, x.ReadsBack)
    (ho : (Json.object a).isOrdered = true) (hl : ∀ e ∈ a.toFields name, e.2.levels ≤ levels) :
    orElse (annotations? levels) [] ((Fields.get? (a.toFields name) name).map Json.spelled) = some a := by
  by_cases hempty : a.isEmpty = true
  · rw [Annotations.toFields, if_pos hempty, List.isEmpty_iff.1 hempty]
    rfl
  · rw [Annotations.toFields, if_neg hempty] at hl ⊢
    rw [Fields.get?_cons, if_pos rfl, Option.map_some, orElse, annotations?,
      toJson?_spelled hn ho (hl (name, .object a) List.mem_cons_self)]
    rfl

theorem modifiers?_toFields {m : Modifiers} (hl : ∀ e ∈ m.toFields, e.2.levels ≤ levels) :
    orElse (modifiers? levels) .plain ((Fields.get? m.toFields "modifiers").map Json.spelled) = some m := by
  by_cases hplain : m = .plain
  · rw [Modifiers.toFields, if_pos hplain, hplain]
    rfl
  · rw [Modifiers.toFields, if_neg hplain] at hl ⊢
    obtain ⟨k, rfl, -⟩ := Json.exists_of_levels_object_le (hl _ List.mem_cons_self)
    simp [Fields.get?_cons, orElse, modifiers?, record?_pair, Json.spelled_boolean, truth?]

/-- The fields of a node, of which the last two may be missing. -/
theorem record?_node (kind : Json) (m : Modifiers) (a : Annotations) :
    (Json.object (("kind", kind) :: (m.toFields ++ a.toFields "annotations"))).spelled.record?
      ["kind", "modifiers", "annotations"] = some [some kind.spelled, (Fields.get? m.toFields "modifiers").map Json.spelled,
        (Fields.get? (a.toFields "annotations") "annotations").map Json.spelled] := by
  by_cases hm : m = .plain <;> by_cases ha : a.isEmpty = true <;>
  · simp only [Modifiers.toFields, Annotations.toFields, if_pos, hm, ha]
    rw [record?_spelled (by simp [Fields.Distinct])]
    simp [Fields.get?_cons]

theorem record?_deferred (operator operands : Json) (options : Annotations) :
    (Json.object ([("operator", operator), ("operands", operands)] ++ options.toFields "options")).spelled.record?
      ["operator", "operands", "options"] = some [some operator.spelled, some operands.spelled,
        (Fields.get? (options.toFields "options") "options").map Json.spelled] := by
  by_cases ho : options.isEmpty = true <;>
  · simp only [Annotations.toFields, if_pos, ho]
    rw [record?_spelled (by simp [Fields.Distinct])]
    simp [Fields.get?_cons]

theorem literal?_spelled {l : Literal} (hn : ∀ x ∈ l.toJson.numbers, x.ReadsBack) :
    l.toJson.spelled.literal? = some l := by
  have hread : l.toJson.spelled.toJson? 0 = some l.toJson := by
    refine toJson?_spelled hn ?_ ?_ <;> cases l <;> rfl
  rw [literal?, hread]
  cases l <;> rfl

/-- **A kind is read back**, if its parts are. -/
theorem kind?_spelled {kind : Kind Node} (h : ∀ c ∈ kind.parts, c.IsRead) (hp : kind.isProper = true)
    (hn : ∀ x ∈ (kindToField kind).2.numbers, x.ReadsBack) (hl : (Json.object [kindToField kind]).levels ≤ levels) :
    (Json.object [kindToField kind]).spelled.kind? levels = some kind := by
  obtain ⟨k, rfl, hbody⟩ := Json.exists_of_levels_object_le hl
  rw [List.forall_mem_singleton] at hbody
  rw [Json.spelled_object, List.map_singleton, kind?, choice?]
  dsimp only [Option.bind_eq_bind, Option.bind_some]
  cases kind with
  | primitive p =>
    have hword := Primitive.ofTag?_tag p
    simp [kindToField, Json.spelled_string, word?, hword]
  | literal l =>
    have hliteral := literal?_spelled hn
    simp [kindToField, hliteral]
  | array item =>
    have hitem := h item (by simp [Kind.parts]) k hbody
    simp [kindToField, hitem]
  | object properties =>
    rw [kindToField, fieldsToJson_eq] at hbody
    have hdistinct : Fields.Distinct properties := of_decide_eq_true (p := (properties.map Prod.fst).Nodup) hp
    have hfields := nodeFields?_spelled hdistinct (fun e he => h e.2 (List.mem_map_of_mem he)) hbody
    simp [kindToField, fieldsToJson_eq, hfields]
  | union nodes | intersect nodes | templatePattern nodes =>
    rw [kindToField, nodesToJson_eq] at hbody
    rw [Kind.parts] at h
    have hnodes := nodes?_spelled h hbody
    simp [kindToField, nodesToJson_eq, hnodes]
  | ref name => simp [kindToField, Json.spelled_string, text?]
  | parameter p =>
    have hparameter := parameter?_spelled h hbody
    simp [kindToField, hparameter]
  | tuple items rest =>
    rw [kindToField, nodesToJson_eq] at hbody
    rw [Kind.parts] at h
    obtain ⟨m, rfl, hfields⟩ := Json.exists_of_levels_object_le hbody
    have hitems := nodes?_spelled h (hfields ("items", _) (by simp))
    simp [kindToField, nodesToJson_eq, recordKind?, record?_pair, hitems, orElse, Json.spelled_boolean, truth?]
  | function nodes n =>
    rw [kindToField, nodesToJson_eq] at hbody
    rw [Kind.parts, List.forall_mem_append, List.forall_mem_singleton] at h
    obtain ⟨m, rfl, hfields⟩ := Json.exists_of_levels_object_le hbody
    have hnodes := nodes?_spelled h.1 (hfields ("parameters", _) (by simp))
    have hn := h.2 m (hfields ("returns", n.toJson) (by simp))
    simp [kindToField, nodesToJson_eq, recordKind?, record?_pair, hnodes, hn]
  | constructor nodes n =>
    rw [kindToField, nodesToJson_eq] at hbody
    rw [Kind.parts, List.forall_mem_append, List.forall_mem_singleton] at h
    obtain ⟨m, rfl, hfields⟩ := Json.exists_of_levels_object_le hbody
    have hnodes := nodes?_spelled h.1 (hfields ("parameters", _) (by simp))
    have hn := h.2 m (hfields ("instance", n.toJson) (by simp))
    simp [kindToField, nodesToJson_eq, recordKind?, record?_pair, hnodes, hn]
  | wrapper w item =>
    obtain ⟨m, rfl, hfields⟩ := Json.exists_of_levels_object_le hbody
    have hword := Wrapper.ofTag?_tag w
    have hitem := h item (by simp [Kind.parts]) m (hfields ("item", item.toJson) (by simp))
    simp [kindToField, recordKind?, record?_pair, Json.spelled_string, word?, hword, hitem]
  | dictionary key value =>
    obtain ⟨m, rfl, hfields⟩ := Json.exists_of_levels_object_le hbody
    have hkey := h key (by simp [Kind.parts]) m (hfields ("key", key.toJson) (by simp))
    have hvalue := h value (by simp [Kind.parts]) m (hfields ("value", value.toJson) (by simp))
    simp [kindToField, recordKind?, record?_pair, hkey, hvalue]
  | generic parameters body =>
    rw [kindToField, parametersToJson_eq] at hbody
    rw [Kind.parts, List.forall_mem_append, List.forall_mem_singleton] at h
    obtain ⟨m, rfl, hfields⟩ := Json.exists_of_levels_object_le hbody
    have hparameters := parameters?_spelled h.1 (hfields ("parameters", _) (by simp))
    have hn := h.2 m (hfields ("body", body.toJson) (by simp))
    simp [kindToField, parametersToJson_eq, recordKind?, record?_pair, hparameters, hn]
  | call target arguments =>
    rw [kindToField, nodesToJson_eq] at hbody
    rw [Kind.parts, List.forall_mem_cons] at h
    obtain ⟨m, rfl, hfields⟩ := Json.exists_of_levels_object_le hbody
    have htarget := h.1 m (hfields ("target", target.toJson) (by simp))
    have harguments := nodes?_spelled h.2 (hfields ("arguments", _) (by simp))
    simp [kindToField, nodesToJson_eq, recordKind?, record?_pair, htarget, harguments]
  | deferred operator operands options =>
    rw [kindToField, nodesToJson_eq] at hbody hn
    rw [Kind.parts] at h
    obtain ⟨m, rfl, hfields⟩ := Json.exists_of_levels_object_le hbody
    have hword := Operator.ofTag?_tag operator
    have hoperands := nodes?_spelled h (hfields ("operands", _) (by simp))
    have hoptions : orElse (annotations? m) []
        ((Fields.get? (options.toFields "options") "options").map Json.spelled) = some options := by
      refine annotations?_toFields (fun x hx => hn x ?_) hp fun e he => hfields e (List.mem_append_right _ he)
      obtain ⟨e, he, hx⟩ := Annotations.exists_of_mem_numbers hx
      exact Json.mem_numbers_object.2 ⟨e, List.mem_append_right _ he, hx⟩
    have hrecord := record?_deferred (.string operator.tag) (.array (operands.map Node.toJson)) options
    simp only [List.cons_append, List.nil_append] at hrecord
    simp [kindToField, nodesToJson_eq, recordKind?, hrecord, Json.spelled_string, word?, hword, hoperands, hoptions]
  | cyclic definitions root =>
    rw [kindToField, fieldsToJson_eq] at hbody
    obtain ⟨m, rfl, hfields⟩ := Json.exists_of_levels_object_le hbody
    have hdistinct : Fields.Distinct definitions := of_decide_eq_true (p := (definitions.map Prod.fst).Nodup) hp
    have hdefinitions := nodeFields?_spelled hdistinct (fun e he => h e.2 (List.mem_map_of_mem he))
      (hfields ("definitions", _) (by simp))
    simp [kindToField, fieldsToJson_eq, recordKind?, record?_pair, hdefinitions, Json.spelled_string, text?]

end Document

namespace Node

/-- **Every node is read back**, if its numbers are. -/
theorem isRead_of_isProper {n : Node} (hp : n.isProper = true) (hn : ∀ x ∈ n.toJson.numbers, x.ReadsBack) : n.IsRead := by
  induction n using induction_on_parts with
  | node n ih =>
    obtain ⟨kind, modifiers, annotations⟩ := n
    obtain ⟨hkind, hannotations, hparts⟩ := isProper_iff.1 hp
    have hread : ∀ c ∈ kind.parts, c.IsRead := fun c hc =>
      ih c hc (hparts c hc) fun x hx => hn x (mem_numbers_toJson (.inl (Kind.mem_numbers_of_part hc hx)))
    intro levels hl
    rw [toJson] at hl
    obtain ⟨k, rfl, hfields⟩ := Json.exists_of_levels_object_le hl
    rw [List.forall_mem_cons, List.forall_mem_append] at hfields
    have hk := Document.kind?_spelled hread hkind (fun x hx => hn x (mem_numbers_toJson (.inl hx))) hfields.1
    have hm := Document.modifiers?_toFields hfields.2.1
    have ha := Document.annotations?_toFields (fun x hx => hn x (mem_numbers_toJson (.inr hx))) hannotations hfields.2.2
    rw [toJson, Document.node?, Document.record?_node]
    simp [hk, hm, ha]

end Node

/-! ## What is loaded -/

/-- **What is loaded with some levels** is proper and is written with no more of them. -/
def Node.Fits (levels : Nat) (n : Node) : Prop := n.isProper = true ∧ n.toJson.levels ≤ levels

/-- Where two fields are read, both could be. -/
theorem exists_of_bind_bind {α β γ : Type} {x : Option α} {y : Option β} {f : α → β → γ} {c : γ}
    (h : (do return f (← x) (← y)) = some c) : ∃ a b, x = some a ∧ y = some b ∧ f a b = c := by
  obtain ⟨a, ha, h⟩ := Option.bind_eq_some_iff.1 h
  obtain ⟨b, hb, h⟩ := Option.bind_eq_some_iff.1 h
  exact ⟨a, b, ha, hb, Option.some.inj h⟩

namespace Document

variable {levels : Nat} {d : Document}

theorem fits_of_annotations? {o : Option Document} {a : Annotations} (name : String)
    (h : orElse (annotations? levels) [] o = some a) :
    (Json.object a).isOrdered = true ∧ ∀ e ∈ a.toFields name, e.2.levels ≤ levels := by
  cases o with
  | none =>
    cases h
    exact ⟨rfl, List.forall_mem_nil _⟩
  | some d =>
    obtain ⟨j, hj, h⟩ := Option.bind_eq_some_iff.1 h
    split at h
    · cases h
      obtain ⟨ho, hl⟩ := isOrdered_of_toJson? hj
      refine ⟨ho, fun e he => ?_⟩
      rw [Annotations.toFields] at he
      split at he
      · cases he
      · rw [List.mem_singleton.1 he]
        exact hl
    · cases h

theorem fits_of_modifiers? {o : Option Document} {m : Modifiers} (h : orElse (modifiers? levels) .plain o = some m) :
    ∀ e ∈ m.toFields, e.2.levels ≤ levels := by
  intro e he
  rw [Modifiers.toFields] at he
  split at he
  · cases he
  · rename_i hplain
    cases o with
    | none =>
      cases h
      exact absurd rfl hplain
    | some d =>
      cases levels with
      | zero => cases h
      | succ k =>
        rw [List.mem_singleton.1 he, Json.levels_object_le]
        simp [Json.levels_boolean]

section
variable (ih : ∀ k < levels, ∀ d n, node? k d = some n → n.Fits k)
include ih

theorem fits_of_nodes? {ns : List Node} (h : nodes? levels d = some ns) :
    (∀ c ∈ ns, c.isProper = true) ∧ (Json.array (nodesToJson ns)).levels ≤ levels := by
  cases levels with
  | zero => cases h
  | succ k =>
    rw [nodes?, list?.eq_def] at h
    split at h
    · have hparts : ∀ c ∈ ns, c.Fits k := fun c hc => by
        obtain ⟨d, -, hd⟩ := exists_of_mem_mapM_some h hc
        exact ih k (Nat.lt_succ_self k) d c hd
      refine ⟨fun c hc => (hparts c hc).1, ?_⟩
      rw [nodesToJson_eq, Json.levels_array_le, List.forall_mem_map]
      exact fun c hc => (hparts c hc).2
    · cases h

theorem fits_of_nodeFields? {fields : Fields Node} (h : nodeFields? levels d = some fields) :
    fields.Distinct ∧ (∀ c ∈ fields.map Prod.snd, c.isProper = true) ∧
      (Json.object (fieldsToJson fields)).levels ≤ levels := by
  cases levels with
  | zero => cases h
  | succ k =>
    rw [nodeFields?, fields?.eq_def] at h
    split at h
    · obtain ⟨named, -, h⟩ := Option.bind_eq_some_iff.1 h
      obtain ⟨entries, hentries, h⟩ := Option.bind_eq_some_iff.1 h
      cases h
      have hparts : ∀ e ∈ Fields.ofList entries, e.2.Fits k := fun e he => by
        obtain ⟨member, -, hmember⟩ := exists_of_mem_mapM_some hentries (Fields.mem_ofList he)
        obtain ⟨n, hn, he⟩ := Option.bind_eq_some_iff.1 hmember
        cases he
        exact ih k (Nat.lt_succ_self k) member.2 n hn
      refine ⟨Fields.distinct_ofList entries, List.forall_mem_map.2 fun e he => (hparts e he).1, ?_⟩
      rw [fieldsToJson_eq, Json.levels_object_le, List.forall_mem_map]
      exact fun e he => (hparts e he).2
    · cases h

theorem fits_of_parameter? {p : Parameter Node} (h : parameter? levels d = some p) :
    (∀ c ∈ p.parts, c.isProper = true) ∧ (parameterToJson p).levels ≤ levels := by
  cases levels with
  | zero => cases h
  | succ k =>
    rw [parameter?] at h
    obtain ⟨fields, -, h⟩ := Option.bind_eq_some_iff.1 h
    split at h
    · obtain ⟨name, -, h⟩ := Option.bind_eq_some_iff.1 h
      obtain ⟨constraint, hconstraint, h⟩ := Option.bind_eq_some_iff.1 h
      obtain ⟨default, hdefault, h⟩ := Option.bind_eq_some_iff.1 h
      cases h
      obtain ⟨hcp, hcl⟩ := ih k (Nat.lt_succ_self k) _ _ hconstraint
      obtain ⟨hdp, hdl⟩ := ih k (Nat.lt_succ_self k) _ _ hdefault
      refine ⟨by simp [Parameter.parts, hcp, hdp], ?_⟩
      rw [parameterToJson, Json.levels_object_le]
      simp [Json.levels_string, hcl, hdl]
    · cases h

theorem fits_of_parameters? {ps : List (Parameter Node)} (h : parameters? levels d = some ps) :
    (∀ c ∈ ps.flatMap Parameter.parts, c.isProper = true) ∧ (Json.array (parametersToJson ps)).levels ≤ levels := by
  cases levels with
  | zero => cases h
  | succ k =>
    rw [parameters?, list?.eq_def] at h
    split at h
    · have hparts : ∀ p ∈ ps, (∀ c ∈ p.parts, c.isProper = true) ∧ (parameterToJson p).levels ≤ k := fun p hp => by
        obtain ⟨d, -, hd⟩ := exists_of_mem_mapM_some h hp
        exact fits_of_parameter? (fun m hm => ih m (Nat.lt_succ_of_lt hm)) hd
      refine ⟨fun c hc => ?_, ?_⟩
      · obtain ⟨p, hp, hc⟩ := List.mem_flatMap.1 hc
        exact (hparts p hp).1 c hc
      · rw [parametersToJson_eq, Json.levels_array_le, List.forall_mem_map]
        exact fun p hp => (hparts p hp).2
    · cases h

/-- **A kind that is loaded** is proper, and is written with no more levels. -/
theorem fits_of_recordKind? {name : String} {kind : Kind Node} (h : recordKind? levels name d = some kind) :
    kind.isProper = true ∧ (∀ c ∈ kind.parts, c.isProper = true) ∧ (kindToField kind).2.levels ≤ levels := by
  unfold recordKind? at h
  split at h
  · cases h
  · -- Tuples.
    obtain ⟨_, -, h⟩ := Option.bind_eq_some_iff.1 h
    split at h
    · obtain ⟨items, rest, hitems, -, rfl⟩ := exists_of_bind_bind h
      obtain ⟨hp, hl⟩ := fits_of_nodes? (fun m hm => ih m (Nat.lt_succ_of_lt hm)) hitems
      exact ⟨rfl, hp, Json.levels_object_le.2 (by simp [hl, Json.levels_boolean])⟩
    · cases h
  · -- Functions.
    obtain ⟨_, -, h⟩ := Option.bind_eq_some_iff.1 h
    split at h
    · obtain ⟨ns, n, hns, hn, rfl⟩ := exists_of_bind_bind h
      obtain ⟨hp, hl⟩ := fits_of_nodes? (fun m hm => ih m (Nat.lt_succ_of_lt hm)) hns
      obtain ⟨hnp, hnl⟩ := ih _ (Nat.lt_succ_self _) _ _ hn
      exact ⟨rfl, List.forall_mem_append.2 ⟨hp, List.forall_mem_singleton.2 hnp⟩,
        Json.levels_object_le.2 (by simp [hl, hnl])⟩
    · cases h
  · -- Constructors.
    obtain ⟨_, -, h⟩ := Option.bind_eq_some_iff.1 h
    split at h
    · obtain ⟨ns, n, hns, hn, rfl⟩ := exists_of_bind_bind h
      obtain ⟨hp, hl⟩ := fits_of_nodes? (fun m hm => ih m (Nat.lt_succ_of_lt hm)) hns
      obtain ⟨hnp, hnl⟩ := ih _ (Nat.lt_succ_self _) _ _ hn
      exact ⟨rfl, List.forall_mem_append.2 ⟨hp, List.forall_mem_singleton.2 hnp⟩,
        Json.levels_object_le.2 (by simp [hl, hnl])⟩
    · cases h
  · -- Wrappers.
    obtain ⟨_, -, h⟩ := Option.bind_eq_some_iff.1 h
    split at h
    · obtain ⟨w, item, -, hitem, rfl⟩ := exists_of_bind_bind h
      obtain ⟨hp, hl⟩ := ih _ (Nat.lt_succ_self _) _ _ hitem
      exact ⟨rfl, List.forall_mem_singleton.2 hp, Json.levels_object_le.2 (by simp [hl, Json.levels_string])⟩
    · cases h
  · -- Dictionaries.
    obtain ⟨_, -, h⟩ := Option.bind_eq_some_iff.1 h
    split at h
    · obtain ⟨key, value, hkey, hvalue, rfl⟩ := exists_of_bind_bind h
      obtain ⟨hkp, hkl⟩ := ih _ (Nat.lt_succ_self _) _ _ hkey
      obtain ⟨hvp, hvl⟩ := ih _ (Nat.lt_succ_self _) _ _ hvalue
      exact ⟨rfl, by simp [Kind.parts, hkp, hvp], Json.levels_object_le.2 (by simp [hkl, hvl])⟩
    · cases h
  · -- Generics.
    obtain ⟨_, -, h⟩ := Option.bind_eq_some_iff.1 h
    split at h
    · obtain ⟨ps, body, hps, hbody, rfl⟩ := exists_of_bind_bind h
      obtain ⟨hp, hl⟩ := fits_of_parameters? (fun m hm => ih m (Nat.lt_succ_of_lt hm)) hps
      obtain ⟨hbp, hbl⟩ := ih _ (Nat.lt_succ_self _) _ _ hbody
      exact ⟨rfl, List.forall_mem_append.2 ⟨hp, List.forall_mem_singleton.2 hbp⟩,
        Json.levels_object_le.2 (by simp [hl, hbl])⟩
    · cases h
  · -- Calls.
    obtain ⟨_, -, h⟩ := Option.bind_eq_some_iff.1 h
    split at h
    · obtain ⟨target, arguments, htarget, harguments, rfl⟩ := exists_of_bind_bind h
      obtain ⟨htp, htl⟩ := ih _ (Nat.lt_succ_self _) _ _ htarget
      obtain ⟨hp, hl⟩ := fits_of_nodes? (fun m hm => ih m (Nat.lt_succ_of_lt hm)) harguments
      exact ⟨rfl, List.forall_mem_cons.2 ⟨htp, hp⟩, Json.levels_object_le.2 (by simp [hl, htl])⟩
    · cases h
  · -- Deferred operators, whose options are annotations.
    obtain ⟨_, -, h⟩ := Option.bind_eq_some_iff.1 h
    split at h
    · obtain ⟨operator, -, h⟩ := Option.bind_eq_some_iff.1 h
      obtain ⟨operands, hoperands, h⟩ := Option.bind_eq_some_iff.1 h
      obtain ⟨options, hoptions, h⟩ := Option.bind_eq_some_iff.1 h
      cases h
      obtain ⟨hp, hl⟩ := fits_of_nodes? (fun m hm => ih m (Nat.lt_succ_of_lt hm)) hoperands
      obtain ⟨ho, hol⟩ := fits_of_annotations? "options" hoptions
      refine ⟨ho, hp, Json.levels_object_le.2 (List.forall_mem_append.2 ⟨?_, hol⟩)⟩
      simp [hl, Json.levels_string]
    · cases h
  · -- Bundles.
    obtain ⟨_, -, h⟩ := Option.bind_eq_some_iff.1 h
    split at h
    · obtain ⟨definitions, root, hdefinitions, -, rfl⟩ := exists_of_bind_bind h
      obtain ⟨hd, hp, hl⟩ := fits_of_nodeFields? (fun m hm => ih m (Nat.lt_succ_of_lt hm)) hdefinitions
      exact ⟨decide_eq_true hd, hp, Json.levels_object_le.2 (by simp [hl, Json.levels_string])⟩
    · cases h
  · cases h

theorem fits_of_kind? {kind : Kind Node} (h : kind? levels d = some kind) :
    kind.isProper = true ∧ (∀ c ∈ kind.parts, c.isProper = true) ∧
      (Json.object [kindToField kind]).levels ≤ levels := by
  cases levels with
  | zero => cases h
  | succ k =>
    have hless : ∀ m < k, ∀ d n, node? m d = some n → n.Fits m := fun m hm => ih m (Nat.lt_succ_of_lt hm)
    rw [Json.levels_object_le, List.forall_mem_singleton]
    rw [kind?] at h
    obtain ⟨⟨name, body⟩, -, h⟩ := Option.bind_eq_some_iff.1 h
    dsimp only at h
    split at h
    · -- Primitives.
      obtain ⟨p, -, h⟩ := Option.bind_eq_some_iff.1 h
      cases h
      exact ⟨rfl, List.forall_mem_nil _, Nat.zero_le k⟩
    · -- Literals.
      obtain ⟨l, -, h⟩ := Option.bind_eq_some_iff.1 h
      cases h
      exact ⟨rfl, List.forall_mem_nil _, by cases l <;> exact Nat.zero_le k⟩
    · -- Arrays.
      obtain ⟨item, hitem, h⟩ := Option.bind_eq_some_iff.1 h
      cases h
      obtain ⟨hp, hl⟩ := ih k (Nat.lt_succ_self k) _ _ hitem
      exact ⟨rfl, List.forall_mem_singleton.2 hp, hl⟩
    · -- Objects.
      obtain ⟨fields, hfields, h⟩ := Option.bind_eq_some_iff.1 h
      cases h
      obtain ⟨hd, hp, hl⟩ := fits_of_nodeFields? hless hfields
      exact ⟨decide_eq_true hd, hp, hl⟩
    · -- Unions.
      obtain ⟨ns, hns, h⟩ := Option.bind_eq_some_iff.1 h
      cases h
      obtain ⟨hp, hl⟩ := fits_of_nodes? hless hns
      exact ⟨rfl, hp, hl⟩
    · -- Intersections.
      obtain ⟨ns, hns, h⟩ := Option.bind_eq_some_iff.1 h
      cases h
      obtain ⟨hp, hl⟩ := fits_of_nodes? hless hns
      exact ⟨rfl, hp, hl⟩
    · -- References.
      obtain ⟨name, -, h⟩ := Option.bind_eq_some_iff.1 h
      cases h
      exact ⟨rfl, List.forall_mem_nil _, Nat.zero_le k⟩
    · -- Parameters.
      obtain ⟨p, hparameter, h⟩ := Option.bind_eq_some_iff.1 h
      cases h
      obtain ⟨hp, hl⟩ := fits_of_parameter? hless hparameter
      exact ⟨rfl, hp, hl⟩
    · -- Template patterns.
      obtain ⟨ns, hns, h⟩ := Option.bind_eq_some_iff.1 h
      cases h
      obtain ⟨hp, hl⟩ := fits_of_nodes? hless hns
      exact ⟨rfl, hp, hl⟩
    · -- Kinds with several fields.
      exact fits_of_recordKind? hless h

end

/-- **Whatever is loaded** is proper, and is written with no more levels; by induction on the levels. -/
theorem fits_of_node? (levels : Nat) : ∀ (d : Document) (n : Node), node? levels d = some n → n.Fits levels := by
  induction levels using Nat.strongRecOn with
  | ind levels ih =>
    intro d n h
    cases levels with
    | zero => cases h
    | succ k =>
      rw [node?] at h
      obtain ⟨fields, -, h⟩ := Option.bind_eq_some_iff.1 h
      split at h
      · obtain ⟨kind, hkind, h⟩ := Option.bind_eq_some_iff.1 h
        obtain ⟨modifiers, hmodifiers, h⟩ := Option.bind_eq_some_iff.1 h
        obtain ⟨annotations, hannotations, h⟩ := Option.bind_eq_some_iff.1 h
        cases h
        obtain ⟨hform, hparts, hkl⟩ := fits_of_kind? (fun m hm => ih m (Nat.lt_succ_of_lt hm)) hkind
        obtain ⟨ho, hal⟩ := fits_of_annotations? "annotations" hannotations
        refine ⟨Node.isProper_iff.2 ⟨hform, ho, hparts⟩, ?_⟩
        rw [Node.toJson, Json.levels_object_le, List.forall_mem_cons, List.forall_mem_append]
        exact ⟨hkl, fits_of_modifiers? hmodifiers, hal⟩
      · cases h

end Document

/-! ## Saving and loading -/

/-- **A value that a text can hold**: its numbers are read back from their texts, and it is not nested too deep. -/
structure Json.Storable (j : Json) : Prop where
  numbers : ∀ x ∈ j.numbers, x.ReadsBack
  levels : j.levels ≤ Document.maxLevels

/-- **A context that can be built**: each name once, for proper nodes. -/
structure Context.IsProper (context : Context) : Prop where
  distinct : Fields.Distinct context
  nodes : ∀ e ∈ context, e.2.isProper = true

section
variable (format : Format)

theorem load?_of_isProper {n : Node} (hp : n.isProper = true) (hj : n.toJson.Storable) :
    Node.load? (n.toJson.render format) = some n := by
  rw [Node.load?, Document.ofText?_render format fun x hx => (hj.numbers x hx).isFinite]
  exact Node.isRead_of_isProper hp hj.numbers Document.maxLevels hj.levels

theorem loadContext?_of_isProper {context : Context} (hp : context.IsProper) (hj : (contextToJson context).Storable) :
    loadContext? ((contextToJson context).render format) = some context := by
  obtain ⟨hnumbers, hlevels⟩ := hj
  rw [loadContext?, Document.ofText?_render format fun x hx => (hnumbers x hx).isFinite]
  rw [contextToJson, fieldsToJson_eq] at hnumbers hlevels ⊢
  refine Document.nodeFields?_spelled hp.distinct (fun e he => ?_) hlevels
  refine Node.isRead_of_isProper (hp.nodes e he) fun x hx => hnumbers x ?_
  exact Json.mem_numbers_object.2 ⟨(e.1, e.2.toJson), List.mem_map_of_mem he, hx⟩

/-- **Whatever a text saves** is proper and not nested too deep. -/
theorem isProper_of_load? {text : String} {n : Node} (h : Node.load? text = some n) :
    n.isProper = true ∧ n.toJson.levels ≤ Document.maxLevels := by
  obtain ⟨d, -, h⟩ := Option.bind_eq_some_iff.1 h
  exact Document.fits_of_node? Document.maxLevels d n h

theorem isProper_of_loadContext? {text : String} {context : Context} (h : loadContext? text = some context) :
    context.IsProper ∧ (contextToJson context).levels ≤ Document.maxLevels := by
  obtain ⟨d, -, h⟩ := Option.bind_eq_some_iff.1 h
  obtain ⟨hdistinct, hnodes, hlevels⟩ := Document.fits_of_nodeFields? (fun k _ => Document.fits_of_node? k) h
  exact ⟨⟨hdistinct, List.forall_mem_map.1 hnodes⟩, hlevels⟩

/-- **Loading inverts saving**, in either format and for nodes as for contexts: what can be built and stored is loaded just
as it was, and what was loaded from any text, once saved, is loaded again. -/
theorem loading_inverts_saving :
    (∀ n : Node, n.isProper = true → n.toJson.Storable → Node.load? (n.toJson.render format) = some n) ∧
    (∀ context : Context, context.IsProper → (contextToJson context).Storable →
      loadContext? ((contextToJson context).render format) = some context) ∧
    (∀ text n, Node.load? text = some n → (∀ x ∈ n.toJson.numbers, x.ReadsBack) →
      Node.load? (n.toJson.render format) = some n) ∧
    ∀ text context, loadContext? text = some context → (∀ x ∈ (contextToJson context).numbers, x.ReadsBack) →
      loadContext? ((contextToJson context).render format) = some context := by
  refine ⟨fun n => load?_of_isProper format, fun context => loadContext?_of_isProper format, ?_, ?_⟩
  · intro text n h hnumbers
    obtain ⟨hproper, hlevels⟩ := isProper_of_load? h
    exact load?_of_isProper format hproper ⟨hnumbers, hlevels⟩
  · intro text context h hnumbers
    obtain ⟨hproper, hlevels⟩ := isProper_of_loadContext? h
    exact loadContext?_of_isProper format hproper ⟨hnumbers, hlevels⟩

end

/-- Flags, annotations with objects in them, options, escapes, a rest element and a bundle are kept; a text with blanks,
a field too many and an annotation said twice is loaded as what its own saved text is loaded as. -/
theorem loading_inverts_saving_bundle :
    let note : Annotations := [("note", .object [("a", .integer ⟨-3, by decide⟩), ("b", .array [.null, .boolean true])])]
    let n : Node := ⟨.object [("id", ⟨.literal (.number (.ofRatio true 5 2)), ⟨true, false⟩, note⟩),
      ("huge", .union [.of (.literal (.number (.ofRatio false (10 ^ 21) 1))), .of (.literal (.string "\"\\\n\x01é"))]),
      ("rest", .of (.tuple [.string, .array .number] true)),
      ("both", .of (.deferred .mapped [.reference "A", .string] [("as", .string "K"), ("keep", .boolean false)])),
      ("bundle", .cyclic [("B", .reference "A"), ("A", .object [("next", .reference "B")])] "B")], ⟨false, true⟩, []⟩
    let context : Context := [("second", n), ("first", .reference "second")]
    let body := "\x7b \"kind\": \x7b\"ref\": \"A\"\x7d, \"more\": 0, \"annotations\": \x7b\"b\": 1, \"a\": 2, \"b\": 3\x7d\x7d"
    let members := "\x7b\"B\":\x7b\"kind\":\x7b\"literal\":25e-2\x7d\x7d,\"A\":\x7b\"kind\":\x7b\"ref\":\"B\"\x7d\x7d\x7d"
    n.isProper = true ∧ n.toJson.Storable ∧ Node.load? (n.toJson.render .pretty) = some n ∧
      context.IsProper ∧ (contextToJson context).Storable ∧
      loadContext? ((contextToJson context).render .compact) = some context ∧
      (∃ m, Node.load? body = some m ∧ (∀ x ∈ m.toJson.numbers, x.ReadsBack) ∧
        Node.load? (m.toJson.render .compact) = some m) ∧
      ∃ c, loadContext? members = some c ∧ (∀ x ∈ (contextToJson c).numbers, x.ReadsBack) ∧
        loadContext? ((contextToJson c).render .pretty) = some c := by
  intro note n context body members
  have hn : n.isProper = true := by decide +kernel
  have hnode : n.toJson.Storable := ⟨by decide +kernel, by decide +kernel⟩
  have hcontext : context.IsProper := ⟨by simp [Fields.Distinct, context], by decide +kernel⟩
  have hmembers : (contextToJson context).Storable := ⟨by decide +kernel, by decide +kernel⟩
  obtain ⟨m, hm⟩ : ∃ m, Node.load? body = some m := Option.isSome_iff_exists.1 (by decide +kernel)
  have hmreads : ∀ m ∈ Node.load? body, ∀ x ∈ m.toJson.numbers, x.ReadsBack := by decide +kernel
  obtain ⟨c, hc⟩ : ∃ c, loadContext? members = some c := Option.isSome_iff_exists.1 (by decide +kernel)
  have hcreads : ∀ c ∈ loadContext? members, ∀ x ∈ (contextToJson c).numbers, x.ReadsBack := by decide +kernel
  exact ⟨hn, hnode, (loading_inverts_saving .pretty).1 n hn hnode, hcontext, hmembers,
    (loading_inverts_saving .compact).2.1 context hcontext hmembers,
    ⟨m, hm, hmreads m hm, (loading_inverts_saving .compact).2.2.1 body m hm (hmreads m hm)⟩,
    c, hc, hcreads c hc, (loading_inverts_saving .pretty).2.2.2 members c hc (hcreads c hc)⟩

end Schemata
