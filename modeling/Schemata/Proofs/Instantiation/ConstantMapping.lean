import Schemata.Proofs.Instantiation.IdentityMapping
import Schemata.Proofs.Operator.Progress
/-!
# The constant mapped type

A record gives every key of a space one type.  So does a mapped type whose body does not depend on its key, though it
instantiates that body for each key again, in a scope of its own.

- `mappedType_of_recordOf`: what a record of the instantiated operands is, the mapped type is.
- `keySpace_cases`: the keys of a concrete operand are finitely many or have no end.

Main statement: `record_is_constant_mapping`.
-/
namespace Schemata

/-! ## Over a key space -/

section
variable {s : Setting} {binder : String} {key : Parameter Node} {body source value : Node} {e : InstantiationError}

/-- A body that is one type in every scope is the type of each key. -/
theorem mappedProperties_of_constant (hbody : ∀ scope, s.instantiateIn scope body = .done value) (keys : List Literal) :
    mappedProperties s binder body none [] keys = .done (Fields.ofList (keys.map fun l => (l.toKey, value))) := by
  have hentries := mappedProperties_of_entries (s := s) (keys.map fun l => (l, value))
    (List.forall_mem_map.2 fun l _ => hbody (s.context.insert binder (.literal l))) []
  rw [List.map_map, List.map_map] at hentries
  exact (congrArg _ (List.map_id keys).symm).trans hentries

/-- **What a record of the instantiated operands is, the mapped type is.** -/
theorem mappedType_of_recordOf (hsource : s.instantiate key.constraint = .done source)
    (hbody : ∀ scope, s.instantiateIn scope body = .done value) {t : Setting} (ht : t.templateLimit = s.templateLimit)
    {out : Node} (hrecord : recordOf t [source, value] = .done (some out)) :
    mappedType s [.parameter key, body] = .done (.done out) := by
  rw [mappedType]
  simp only [Node.parameter, Node.of, hsource, Outcome.done_bind, List.head?_nil]
  rw [recordOf, ht] at hrecord
  cases hspace : keySpace s.templateLimit source with
  | finite keys =>
    rw [hspace] at hrecord
    cases hrecord
    simp only [mappedProperties_of_constant hbody]
    rfl
  | unbounded =>
    rw [hspace] at hrecord
    cases hrecord
    simp only [hbody]
    rfl
  | unresolved =>
    rw [hspace] at hrecord
    cases hrecord

/-- What the body fails for the mapped type fails for, unless there is no key to instantiate it for. -/
theorem mappedType_of_failed (hsource : s.instantiate key.constraint = .done source)
    (hbody : ∀ scope, s.instantiateIn scope body = .failed e) (hnone : keySpace s.templateLimit source ≠ .finite [])
    (hknown : keySpace s.templateLimit source ≠ .unresolved) : mappedType s [.parameter key, body] = .failed e := by
  rw [mappedType]
  simp only [Node.parameter, Node.of, hsource, Outcome.done_bind, List.head?_nil]
  cases hspace : keySpace s.templateLimit source with
  | finite keys =>
    cases keys with
    | nil => exact absurd hspace hnone
    | cons l keys =>
      have hstep : mappedProperties s key.name body none [] (l :: keys) =
          s.instantiateIn (s.context.insert key.name (.literal l)) body >>= fun type =>
            mappedProperties s key.name body none (Fields.insert [] l.toKey type) keys := rfl
      simp only [hstep, hbody]
      rfl
  | unbounded =>
    simp only [hbody]
    rfl
  | unresolved => exact absurd hspace hknown

/-- **The keys of a concrete operand** are finitely many or have no end. -/
theorem keySpace_cases (limit : Nat) {n : Node} (h : n.isConcrete = true) :
    (∃ keys, keySpace limit n = .finite keys) ∨ keySpace limit n = .unbounded := by
  rw [keySpace]
  cases hkeys : keysOf limit n with
  | finite keys => exact .inl ⟨distinct keys, rfl⟩
  | unbounded => exact .inr rfl
  | unresolved => exact absurd hkeys (keysOf_ne_unresolved limit h)

end

/-! ## Through the engine -/

section
variable {key value : Node}

theorem canReduce_mapped_of_isConcrete (hkey : key.isConcrete = true) (context : Context) (binder : String)
    (default body : Node) : canReduce context .mapped [.parameter ⟨binder, key, default⟩, body] = true := by
  have hguarded : canReduce context .mapped [.parameter ⟨binder, key, default⟩, body] = (resolvable context key && true) := rfl
  rw [hguarded, resolvable_of_isConcrete context hkey]
  rfl

theorem height_record (key value : Node) : (Node.record key value).height = 1 + max key.height value.height := by
  rw [Node.height_eq]
  exact congrArg (1 + max key.height ·) (Nat.max_zero _)

/-- The parts of a concrete mapped type are left as they are, whatever their scope. -/
theorem instantiateIn_of_isConcrete {operator : Operator} {limits : Limits} {context : Context} {s : State} {fuel : Nat}
    {n : Node} (hn : n.isConcrete = true) (hs : s.depth < limits.maxDepth) (hfuel : limits.maxDepth ≤ s.depth + fuel)
    (scope : Context) : (operator.settingUnder limits fuel context s).instantiateIn scope n =
      if s.depth + 1 + n.height ≤ limits.maxDepth then .done n else .failed (.depthExceeded limits.maxDepth) :=
  run_of_isConcrete hn (s := { s with depth := s.depth + 1 }) hs (by show _ < s.depth + 1 + fuel; omega) scope

/-- **What a record is**, or that its operands are too high. -/
theorem instantiateWith_record (hkey : key.isConcrete = true) (hvalue : value.isConcrete = true) {limits : Limits} {out : Node}
    (hrecord : ∀ t : Setting, t.templateLimit = limits.maxTemplateCombinations → recordOf t [key, value] = .done (some out))
    (context : Context) (s : State) : instantiateWith limits context s (.record key value) =
      if s.depth + (Node.record key value).height ≤ limits.maxDepth then .done out
      else .failed (.depthExceeded limits.maxDepth) := by
  have hoperands : ∀ c ∈ [key, value], c.isConcrete = true :=
    List.forall_mem_cons.2 ⟨hkey, List.forall_mem_singleton.2 hvalue⟩
  refine instantiateWith_of_reduceEager rfl hoperands fun t ht hlimit => ?_
  rw [reduceEager, ht]
  exact hrecord t hlimit

/-- **What a constant mapped type is**, or that its parts are too high; without any key the body is not looked at. -/
theorem instantiateWith_constant_mapping (hkey : key.isConcrete = true) (hvalue : value.isConcrete = true) {limits : Limits}
    {out : Node}
    (hrecord : ∀ t : Setting, t.templateLimit = limits.maxTemplateCombinations → recordOf t [key, value] = .done (some out))
    (context : Context) {s : State} (hroom : s.depth + (Node.record key value).height ≤ limits.maxDepth ∨
      keySpace limits.maxTemplateCombinations key ≠ .finite []) (binder : String) (default : Node) :
    instantiateWith limits context s (.mapped ⟨binder, key, default⟩ value none) =
      if s.depth + (Node.record key value).height ≤ limits.maxDepth then .done out
      else .failed (.depthExceeded limits.maxDepth) := by
  let mapping := Node.mapped ⟨binder, key, default⟩ value none
  let setting := Operator.settingUnder .mapped limits (limits.maxDepth + 19999) context s
  rw [height_record] at hroom ⊢
  by_cases hdeep : limits.maxDepth ≤ s.depth
  · rw [if_neg (by omega)]
    exact run_too_deep (p := ⟨context, s, mapping⟩) hdeep (limits.maxDepth + 19999)
  have hfuel : limits.maxDepth ≤ s.depth + (limits.maxDepth + 19999) := by omega
  have hsource : setting.instantiate key = _ := instantiateIn_of_isConcrete hkey (by omega) hfuel context
  have hbody : ∀ scope, setting.instantiateIn scope value = _ := instantiateIn_of_isConcrete hvalue (by omega) hfuel
  have hcan : canReduce setting.context .mapped [.parameter ⟨binder, key, default⟩, value] = true :=
    canReduce_mapped_of_isConcrete hkey context binder default value
  have hdeferred : mapping.kind = .deferred .mapped [.parameter ⟨binder, key, default⟩, value] [] := rfl
  refine (run_of_deferred hdeferred (by omega) _ context).trans ?_
  by_cases hlow : s.depth + 1 + key.height ≤ limits.maxDepth
  · rw [if_pos hlow] at hsource
    by_cases hfits : s.depth + 1 + value.height ≤ limits.maxDepth
    · simp only [if_pos hfits] at hbody
      rw [if_pos (by omega)]
      refine (reduce_mapped rfl hcan).trans ?_
      rw [mappedType_of_recordOf hsource hbody rfl (hrecord setting rfl), Outcome.done_bind]
      exact congrArg Outcome.done (Node.reducedTo_deferred _ _ _ _)
    · simp only [if_neg hfits] at hbody
      rw [if_neg (by omega)]
      refine (reduce_mapped rfl hcan).trans ?_
      rw [mappedType_of_failed hsource hbody (hroom.resolve_left (by omega)) ?_]
      · rfl
      · rcases keySpace_cases limits.maxTemplateCombinations hkey with ⟨keys, hspace⟩ | hspace <;>
          exact fun hunknown => nomatch hspace.symm.trans hunknown
  · rw [if_neg hlow] at hsource
    rw [if_neg (by omega)]
    exact reduce_mapped_of_failed rfl hcan hsource

/-- **A record is the constant mapped type**, in every context, under every state and for every binder, whether or not its
name is bound: one object for finitely many keys, with names, order and types alike, and one dictionary otherwise.  Where the
operands are too high for the depth limit both exceed it; only without any key the mapped type does not look at its body. -/
theorem record_is_constant_mapping (hkey : key.isConcrete = true) (hvalue : value.isConcrete = true) (limits : Limits)
    (context : Context) (s : State) (binder : String) (default : Node) :
    ∃ out,
      ((∃ keys, keySpace limits.maxTemplateCombinations key = .finite keys ∧
          out = .object (keys.map fun l => (l.toKey, value))) ∨
        (keySpace limits.maxTemplateCombinations key = .unbounded ∧ out = .dictionary key value)) ∧
      instantiateWith limits context s (.record key value) =
        (if s.depth + (Node.record key value).height ≤ limits.maxDepth then .done out
          else .failed (.depthExceeded limits.maxDepth)) ∧
      (s.depth + (Node.record key value).height ≤ limits.maxDepth ∨
          keySpace limits.maxTemplateCombinations key ≠ .finite [] →
        instantiateWith limits context s (.mapped ⟨binder, key, default⟩ value none) =
          instantiateWith limits context s (.record key value)) := by
  let limit := limits.maxTemplateCombinations
  obtain ⟨out, hout, hrecordOf⟩ : ∃ out,
      ((∃ keys, keySpace limit key = .finite keys ∧ out = .object (keys.map fun l => (l.toKey, value))) ∨
        (keySpace limit key = .unbounded ∧ out = .dictionary key value)) ∧
      ∀ t : Setting, t.templateLimit = limit → recordOf t [key, value] = .done (some out) := by
    rcases keySpace_cases limit hkey with ⟨keys, hspace⟩ | hspace
    · exact ⟨_, .inl ⟨keys, hspace, rfl⟩, fun t ht => by rw [recordOf, ht, hspace]; rfl⟩
    · exact ⟨_, .inr ⟨hspace, rfl⟩, fun t ht => by rw [recordOf, ht, hspace]; rfl⟩
  refine ⟨out, hout, instantiateWith_record hkey hvalue hrecordOf context s, fun hroom => ?_⟩
  rw [instantiateWith_record hkey hvalue hrecordOf, instantiateWith_constant_mapping hkey hvalue hrecordOf context hroom]

end

/-- A number and a text of one name, a pattern, and a binder that the context binds to itself: an object, or a dictionary where
the pattern stands for too many texts. -/
theorem record_is_constant_mapping_collision :
    let key : Node := .union [.natural 1, .text "1", .templatePattern [.text "x", .union [.text "a", .text "b"]], .never]
    let value : Node := ⟨.array .string, ⟨true, false⟩, []⟩
    let context : Context := [("K", .reference "K")]
    let mapping : Node := .mapped ⟨"K", key, .never⟩ value none
    key.isConcrete = true ∧ value.isConcrete = true ∧
      (∀ n ∈ [.record key value, mapping], instantiateWith {} context .initial n =
        .done (.object [("1", value), ("xa", value), ("xb", value)])) ∧
      ∀ n ∈ [.record key value, mapping], instantiateWith { maxTemplateCombinations := 1 } context .initial n =
        .done (.dictionary key value) := by
  intro key value context mapping
  have hkey : key.isConcrete = true := by decide +kernel
  have hvalue : value.isConcrete = true := by decide +kernel
  have hroom : State.initial.depth + (Node.record key value).height ≤ 512 := by decide +kernel
  refine ⟨hkey, hvalue, ?_, ?_⟩ <;> rw [List.forall_mem_cons, List.forall_mem_singleton]
  · obtain ⟨out, hout, hrecord, hmapping⟩ := record_is_constant_mapping hkey hvalue {} context .initial "K" .never
    have hspace : keySpace 10000 key = .finite [.number (.ofNat 1), .string "1", .string "xa", .string "xb"] := by
      with_unfolding_all rfl
    rcases hout with ⟨keys, hkeys, rfl⟩ | ⟨hunbounded, -⟩
    · cases hspace.symm.trans hkeys
      rw [hmapping (.inl hroom), hrecord, if_pos hroom]
      exact ⟨by with_unfolding_all rfl, by with_unfolding_all rfl⟩
    · cases hspace.symm.trans hunbounded
  · obtain ⟨out, hout, hrecord, hmapping⟩ :=
      record_is_constant_mapping hkey hvalue { maxTemplateCombinations := 1 } context .initial "K" .never
    have hspace : keySpace 1 key = .unbounded := by with_unfolding_all rfl
    rcases hout with ⟨keys, hkeys, -⟩ | ⟨-, rfl⟩
    · cases hspace.symm.trans hkeys
    · rw [hmapping (.inl hroom), hrecord, if_pos hroom]
      exact ⟨rfl, rfl⟩

end Schemata
