import Schemata.Proofs.Instantiation.Concrete
import Schemata.Proofs.Operator.OwnKeys
/-!
# The identity mapped type

A mapped type goes over a domain of keys, binds each key and instantiates its body.  Over the keys of an object, with access
to the object as the body, that gives the object back: every property under its name, with its type in normal form and
without flags (`instantiateWith_identity_mapping`), in every context, under every state and for every binder, as long as the
depth limit has room for the object.

- `keySpace_unionOf_texts`: the domain of keys of an object is a finite space of its names.
- `mappedProperties_of_done`: one property for each key, in order.
- `run_index_reference`: access by the bound key.
-/
namespace Schemata

/-! ## The keys -/

theorem keysOfAll_texts (limit : Nat) (names : List String) :
    keysOfAll limit (names.map Node.text) = .finite (names.map Literal.string) := by
  induction names with
  | nil => rfl
  | cons name names ih =>
    have hname : keysOf limit (.text name) = .finite [.string name] := rfl
    rw [List.map_cons, keysOfAll, hname, ih]
    rfl

/-- **The domain of keys of an object is the space of its names**, none of them twice. -/
theorem keySpace_unionOf_texts (limit : Nat) {names : List String} (h : names.Nodup) :
    keySpace limit (.unionOf (names.map Node.text)) = .finite (names.map Literal.string) := by
  have hkeys : keysOf limit (.unionOf (names.map Node.text)) = .finite (names.map Literal.string) := by
    rcases Node.unionOf_texts_cases h with ⟨rfl, hunion⟩ | ⟨name, rfl, hunion⟩ | hunion <;> rw [hunion]
    · rfl
    · rfl
    · exact keysOfAll_texts limit names
  rw [keySpace, hkeys, KeySpace.once, distinct_of_pairwise (Node.different_strings h)]

/-! ## One property for each key -/

section
variable {s : Setting} {binder : String} {body : Node}

/-- **Every key adds a property**, as long as the body gives a type for each; of two keys of one name the second takes the
place of the first. -/
theorem mappedProperties_of_entries (entries : List (Literal × Node))
    (hbody : ∀ e ∈ entries, s.instantiateIn (s.context.insert binder (.literal e.1)) body = .done e.2)
    (properties : Fields Node) : mappedProperties s binder body none properties (entries.map Prod.fst) =
      .done ((entries.map fun e => (e.1.toKey, e.2)).foldl (fun fields e => fields.insert e.1 e.2) properties) := by
  induction entries generalizing properties with
  | nil => rfl
  | cons e entries ih =>
    rw [List.forall_mem_cons] at hbody
    have hstep : mappedProperties s binder body none properties ((e :: entries).map Prod.fst) =
        s.instantiateIn (s.context.insert binder (.literal e.1)) body >>= fun type =>
          mappedProperties s binder body none (properties.insert e.1.toKey type) (entries.map Prod.fst) := rfl
    rw [hstep, hbody.1, Outcome.done_bind, ih hbody.2]
    rfl

/-- **The properties are in the order of the keys** where these are different names. -/
theorem mappedProperties_of_done {entries : Fields Node} {f : Node → Node}
    (hbody : ∀ e ∈ entries, s.instantiateIn (s.context.insert binder (.text e.1)) body = .done (f e.2))
    (hdistinct : entries.Distinct) :
    mappedProperties s binder body none [] (entries.names.map Literal.string) = .done (entries.mapValues f) := by
  have hentries := mappedProperties_of_entries (entries.map fun e => (.string e.1, f e.2))
    (List.forall_mem_map.2 hbody) []
  have hnames : Fields.Distinct (entries.mapValues f) := by
    rwa [Fields.Distinct, Fields.mapValues, List.map_map]
  rw [List.map_map, List.map_map] at hentries
  rw [Fields.names, List.map_map]
  exact hentries.trans (congrArg Outcome.done (Fields.ofList_of_distinct hnames))

end

/-! ## Access by the bound key -/

section
variable {limits : Limits} {fuel : Nat} {context : Context} {s : State}

theorem leadsBack_literal (path : List String) (context : Context) (l : Literal) :
    leadsBack path context (.literal l) = false := by
  have hexposed : (Node.literal l).exposed = [] := by
    rw [Node.exposed_eq]
    rfl
  rw [leadsBack, hexposed]
  rfl

/-- **A bound key is what it is bound to**, two steps down. -/
theorem run_reference_text (hroom : s.depth + 2 ≤ limits.maxDepth) (hfuel : limits.maxDepth ≤ s.depth + fuel)
    (binder name : String) :
    run limits (fuel + 1) (context.insert binder (.text name)) s (.reference binder) = .done (.text name) := by
  have hd : s.descend limits = .done { s with depth := s.depth + 1 } := by rw [State.descend, if_neg (by omega)]
  have hget : (context.insert binder (.text name)).get? binder = some (.text name) := by
    rw [Fields.get?_insert, if_pos rfl]
  have hconcrete : (Node.text name).isConcrete = true := by rw [Node.isConcrete_eq]; rfl
  have hheight : (Node.text name).height = 1 := by rw [Node.height_eq]; rfl
  have htext : run limits fuel (context.insert binder (.text name)) { s with depth := s.depth + 1 } (.text name) =
      .done (.text name) := by
    rw [run_of_isConcrete hconcrete (by show s.depth + 1 ≤ _; omega) (by show _ < s.depth + 1 + fuel; omega), hheight]
    exact if_pos (by show s.depth + 1 + 1 ≤ _; omega)
  rw [run_of_descend hd, step_of_follows rfl hget (leadsBack_literal _ _ _), htext, Outcome.done_bind]
  exact congrArg Outcome.done (Node.inherit_of _ _)

variable {o : Node} {properties : Fields Node}

theorem canReduce_index_reference (hconcrete : o.isConcrete = true) {scope : Context} {binder : String}
    (hbound : scope.has binder = true) : canReduce scope .index [o, .reference binder] = true := by
  have hreference : resolvable scope (.reference binder) = true := hbound
  have hall : canReduce scope .index [o, .reference binder] =
      (resolvable scope o && (resolvable scope (.reference binder) && true)) := rfl
  rw [hall, resolvable_of_isConcrete scope hconcrete, hreference]
  rfl

theorem objects_of_object (hk : o.kind = .object properties) :
    o.objects = some [properties] ∧ collapse o = .properties properties := by
  obtain ⟨kind, modifiers, annotations⟩ := o
  cases hk
  exact ⟨rfl, rfl⟩

/-- **Access to an object by the bound name of a property** gives the type of the property. -/
theorem run_index_reference (hk : o.kind = .object properties) (hconcrete : o.isConcrete = true)
    (hdistinct : properties.Distinct) {e : String × Node} (he : e ∈ properties)
    (hroom : s.depth + 1 + o.height ≤ limits.maxDepth) (hfuel : limits.maxDepth ≤ s.depth + fuel) (binder : String) :
    run limits (fuel + 1) (context.insert binder (.text e.1)) s (.index o (.reference binder)) =
      .done (.unionOf [e.2.bare]) := by
  let scope := context.insert binder (.text e.1)
  let setting := Operator.settingUnder .index limits fuel scope s
  have hheight : 2 ≤ o.height := by
    have hchild : e.2 ∈ o.children := by
      rw [Node.children, hk]
      exact List.mem_map_of_mem he
    have := Node.height_lt_of_mem_children hchild
    have := e.2.height_pos
    omega
  obtain ⟨fuel, rfl⟩ : ∃ k, fuel = k + 1 := ⟨fuel - 1, by omega⟩
  have hsubject : setting.instantiate o = .done o := by
    refine (run_of_isConcrete hconcrete ?_ ?_ scope).trans (if_pos hroom)
    · show s.depth + 1 ≤ _
      omega
    · show _ < s.depth + 1 + (fuel + 1)
      omega
  have hkey : setting.instantiate (.reference binder) = .done (.text e.1) := by
    refine run_reference_text ?_ ?_ binder e.1
    · show s.depth + 1 + 2 ≤ _
      omega
    · show _ ≤ s.depth + 1 + fuel
      omega
  obtain ⟨hobjects, hproperties⟩ := objects_of_object hk
  have hreduce : reduceEager setting [o, .text e.1] = .done (some (.unionOf [e.2.bare])) :=
    (indexBy_literal (fun leaf => openSubject_of_objects hobjects _ leaf) (.string e.1)).trans
      (indexLeaf_text hobjects hproperties (Fields.get?_of_mem hdistinct he))
  have hbound : scope.has binder = true := Fields.has_insert_iff.2 (.inl rfl)
  have hdeferred : (Node.index o (.reference binder)).kind = .deferred .index [o, .reference binder] [] := rfl
  rw [run_of_deferred hdeferred (by omega)]
  exact reduce_of_done (s := setting) rfl (canReduce_index_reference hconcrete hbound)
    (.cons hsubject (.cons hkey .nil)) hreduce

/-- **The keys of an object**, one step down, if the depth limit has room for the object. -/
theorem run_keyOf (hk : o.kind = .object properties) (hconcrete : o.isConcrete = true)
    (hfuel : limits.maxDepth ≤ s.depth + fuel) (context : Context) :
    run limits (fuel + 1) context s (.keyOf o) =
      if s.depth + 1 + o.height ≤ limits.maxDepth then .done (.unionOf (properties.names.map Node.text))
      else .failed (.depthExceeded limits.maxDepth) := by
  obtain ⟨hobjects, hproperties⟩ := objects_of_object hk
  have hreduce : reduceEager (Operator.settingUnder .keyOf limits fuel context s) [o] =
      .done (some (.unionOf (properties.names.map Node.text))) :=
    (openSubject_of_objects hobjects _ _).trans (keysLeaf_of_objects hobjects hproperties)
  have hrun := run_of_reduceEager rfl (List.forall_mem_singleton.2 hconcrete) hfuel hreduce
  rwa [Node.height_deferred_singleton, ← Nat.add_assoc] at hrun

end

/-! ## The mapped type -/

/-- A mapped type can be reduced where its keys can be; a deferred operator, as a domain of keys, always can. -/
theorem canReduce_mapped (context : Context) (binder : String) (o default body : Node) :
    canReduce context .mapped [.parameter ⟨binder, .keyOf o, default⟩, body] = true := rfl

section
variable {s : Setting} {key : Parameter Node} {body : Node}

theorem reduce_mapped (hs : s.operator = .mapped) (hcan : canReduce s.context .mapped [.parameter key, body] = true) :
    reduce s (.mapped key body none) [.parameter key, body] [] =
      mappedType s [.parameter key, body] >>= fun
        | .done result => .done ((Node.mapped key body none).reducedTo .mapped [] [] (some result))
        | .waiting operands => .done ((Node.mapped key body none).reducedTo .mapped operands [] none) := by
  rw [reduce, hs, if_pos hcan, reduceOperands, hs]
  exact bind_congr fun reduction => by cases reduction <;> rfl

/-- **A mapped type over finitely many keys** is the object of the properties that they give. -/
theorem reduce_mapped_of_done (hs : s.operator = .mapped)
    (hcan : canReduce s.context .mapped [.parameter key, body] = true) {source : Node}
    (hsource : s.instantiate key.constraint = .done source) {keys : List Literal}
    (hkeys : keySpace s.templateLimit source = .finite keys) {properties : Fields Node}
    (hproperties : mappedProperties s key.name body none [] keys = .done properties) :
    reduce s (.mapped key body none) [.parameter key, body] [] = .done (.of (.object properties)) := by
  have hmapped : mappedType s [.parameter key, body] = .done (.done (.of (.object properties))) := by
    rw [mappedType]
    simp only [Node.parameter, Node.of, hsource, Outcome.done_bind, hkeys, List.head?_nil, hproperties]
    rfl
  rw [reduce_mapped hs hcan, hmapped, Outcome.done_bind]
  exact congrArg Outcome.done (Node.reducedTo_deferred _ _ _ _)

/-- What the domain of keys fails for, the mapped type fails for. -/
theorem reduce_mapped_of_failed (hs : s.operator = .mapped)
    (hcan : canReduce s.context .mapped [.parameter key, body] = true) {e : InstantiationError}
    (hsource : s.instantiate key.constraint = .failed e) :
    reduce s (.mapped key body none) [.parameter key, body] [] = .failed e := by
  have hmapped : mappedType s [.parameter key, body] = .failed e := by
    rw [mappedType]
    simp only [Node.parameter, Node.of, hsource, Outcome.failed_bind]
    rfl
  rw [reduce_mapped hs hcan, hmapped, Outcome.failed_bind]

end

section
variable {o : Node} {properties : Fields Node}

/-- **The identity mapped type rebuilds its source**: over the keys of a concrete object, access to the object by the key
gives an object with the same names in the same order, where each type is in normal form and has no flags.  It takes two
steps more than the object is high; where the depth limit leaves less it is exceeded. -/
theorem instantiateWith_identity_mapping (hk : o.kind = .object properties) (hconcrete : o.isConcrete = true)
    (hproper : o.isProper = true) (limits : Limits) (context : Context) (s : State) (binder : String) (default : Node) :
    instantiateWith limits context s (.mapped ⟨binder, .keyOf o, default⟩ (.index o (.reference binder)) none) =
      if s.depth + o.height + 2 ≤ limits.maxDepth then
        .done (.of (.object (properties.mapValues fun type => .unionOf [type.bare])))
      else .failed (.depthExceeded limits.maxDepth) := by
  let key : Parameter Node := ⟨binder, .keyOf o, default⟩
  let body := Node.index o (.reference binder)
  have hdistinct : properties.Distinct := Kind.distinct_of_object (hk ▸ (Node.isProper_iff.1 hproper).1)
  rw [instantiateWith, ampleFuel]
  by_cases hdeep : limits.maxDepth ≤ s.depth
  · rw [if_neg (by omega)]
    exact run_too_deep (p := ⟨context, s, .mapped key body none⟩) hdeep (limits.maxDepth + 19999)
  let t : State := { s with depth := s.depth + 1 }
  let setting := Operator.settingUnder .mapped limits (limits.maxDepth + 19999) context s
  have hsource : setting.instantiate key.constraint = if s.depth + 1 + 1 + o.height ≤ limits.maxDepth then
      .done (.unionOf (properties.names.map Node.text)) else .failed (.depthExceeded limits.maxDepth) :=
    run_keyOf (s := t) hk hconcrete (by show _ ≤ s.depth + 1 + _; omega) context
  have hcan : canReduce setting.context .mapped [.parameter key, body] = true :=
    canReduce_mapped context binder o default body
  have hdeferred : (Node.mapped key body none).kind = .deferred .mapped [.parameter key, body] [] := rfl
  refine (run_of_deferred hdeferred (by omega) _ context).trans ?_
  by_cases hroom : s.depth + o.height + 2 ≤ limits.maxDepth
  · rw [if_pos (by omega)] at hsource
    have hbody : ∀ e ∈ properties, setting.instantiateIn (setting.context.insert binder (.text e.1)) body =
        .done (.unionOf [e.2.bare]) := fun e he =>
      run_index_reference (s := t) hk hconcrete hdistinct he (by show s.depth + 1 + 1 + _ ≤ _; omega)
        (by show _ ≤ s.depth + 1 + _; omega) binder
    have hproperties := mappedProperties_of_done (f := fun type => .unionOf [type.bare]) hbody hdistinct
    rw [if_pos hroom]
    exact reduce_mapped_of_done rfl hcan hsource
      (keySpace_unionOf_texts _ hdistinct) hproperties
  · rw [if_neg (by omega)] at hsource
    rw [if_neg hroom]
    exact reduce_mapped_of_failed rfl hcan hsource

end

/-- A binder that the context binds to itself, and a type that is not in normal form: there is just room for the object, and
with one level less there is none. -/
theorem instantiateWith_identity_mapping_boundary :
    let o : Node := .object [("a", ⟨.union [.string, .union [.number, .never]], ⟨true, false⟩, []⟩),
      ("b", ⟨.primitive .boolean, ⟨false, true⟩, [("note", .string "kept")]⟩)]
    let context : Context := [("K", .reference "K")]
    let mapping : Node := .mapped ⟨"K", .keyOf o, .never⟩ (.index o (.reference "K")) none
    o.isConcrete = true ∧ o.isProper = true ∧ o.height = 4 ∧
      instantiateWith { maxDepth := 6 } context .initial mapping = .done (.object [("a", .union [.string, .number]),
        ("b", ⟨.primitive .boolean, .plain, [("note", .string "kept")]⟩)]) ∧
      instantiateWith { maxDepth := 5 } context .initial mapping = .failed (.depthExceeded 5) := by
  intro o context mapping
  have hconcrete : o.isConcrete = true := by decide +kernel
  have hproper : o.isProper = true := by decide +kernel
  have hheight : o.height = 4 := by decide +kernel
  refine ⟨hconcrete, hproper, hheight, ?_, ?_⟩
  · rw [instantiateWith_identity_mapping (o := o) rfl hconcrete hproper, if_pos (by simp [hheight, State.initial])]
    with_unfolding_all rfl
  · rw [instantiateWith_identity_mapping (o := o) rfl hconcrete hproper, if_neg (by simp [hheight, State.initial])]

end Schemata
