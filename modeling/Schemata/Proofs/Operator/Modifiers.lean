import Schemata.Proofs.Operator.Distribution
import Schemata.Proofs.Operator.Progress
/-!
# The algebra of modifiers

Four operators set one of two flags of all properties.  They are changes of branches: of two settings of one flag the later
one counts, and settings of different flags commute.

- `FlagSetting`: a flag and its new value, and the operator that sets it.
- `Node.changed`: what a concrete node without bundles on the way becomes, and `Node.TakesChange` where it does.
- `Node.changed_changed`: one setting after the other, through unions, intersections, `any` and `never`.

Main statement: `modifier_operators_algebra`.
-/
namespace Schemata

/-! ## Settings of flags -/

/-- A flag of a property. -/
inductive Flag where
  | optional | readonly
  deriving DecidableEq

/-- **A flag with its new value.** -/
structure FlagSetting where
  flag : Flag
  value : Bool
  deriving DecidableEq

namespace FlagSetting

variable {f g : FlagSetting}

/-- The operator that sets a flag. -/
def operator : FlagSetting → Operator
  | ⟨.optional, true⟩ => .allOptional
  | ⟨.optional, false⟩ => .allRequired
  | ⟨.readonly, true⟩ => .allReadonly
  | ⟨.readonly, false⟩ => .allWritable

def set : FlagSetting → Modifiers → Modifiers
  | ⟨.optional, value⟩, m => { m with optional := value }
  | ⟨.readonly, value⟩, m => { m with readonly := value }

/-- **Of two settings of one flag the later one counts.** -/
theorem set_set (h : f.flag = g.flag) (m : Modifiers) : f.set (g.set m) = f.set m := by
  obtain ⟨flag, value⟩ := f
  obtain ⟨_, value'⟩ := g
  cases h
  cases flag <;> rfl

/-- **Settings of different flags commute.** -/
theorem set_comm (h : f.flag ≠ g.flag) (m : Modifiers) : f.set (g.set m) = g.set (f.set m) := by
  obtain ⟨flag, value⟩ := f
  obtain ⟨flag', value'⟩ := g
  cases flag <;> cases flag' <;> first | rfl | exact absurd rfl h

/-- The application of the operator to a subject. -/
def applied (f : FlagSetting) (n : Node) : Node := .deferred f.operator [n]

def setType (f : FlagSetting) (n : Node) : Node := n.withModifiers (f.set n.modifiers)

/-- What the operator does to the properties of an object. -/
def change (f : FlagSetting) : Fields Node → Fields Node := Fields.mapValues f.setType

theorem change_change (f g : FlagSetting) (properties : Fields Node) :
    f.change (g.change properties) = Fields.mapValues (fun n => n.withModifiers (f.set (g.set n.modifiers))) properties := by
  rw [change, change, Fields.mapValues, Fields.mapValues, List.map_map]
  rfl

theorem change_change_of_flag (h : f.flag = g.flag) (properties : Fields Node) :
    f.change (g.change properties) = f.change properties := by
  rw [change_change]
  simp only [set_set h]
  rfl

theorem change_comm (h : f.flag ≠ g.flag) (properties : Fields Node) :
    f.change (g.change properties) = g.change (f.change properties) := by
  rw [change_change, change_change]
  simp only [set_comm h]

theorem reduceEager_operator {s : Setting} (hs : s.operator = f.operator) (n : Node) :
    reduceEager s [n] = changeProperties s f.change n := by
  obtain ⟨_ | _, _ | _⟩ := f <;> rw [reduceEager, hs] <;> rfl

theorem isEager_operator (f : FlagSetting) : f.operator.isEager = true := by
  obtain ⟨_ | _, _ | _⟩ := f <;> rfl

theorem canReduce_applied (f g : FlagSetting) (context : Context) (n : Node) :
    canReduce context f.operator [g.applied n] = true := by
  obtain ⟨_ | _, _ | _⟩ := f <;> rfl

theorem height_applied (f : FlagSetting) (n : Node) : (f.applied n).height = 1 + n.height :=
  Node.height_deferred_singleton f.operator n

end FlagSetting

/-! ## Changed properties -/

namespace Node

variable {f g : FlagSetting} {n x y : Node} {change : Fields Node → Fields Node}

/-- **An object of the changed properties**, of an object or of an intersection of objects; anything else stays. -/
def onProperties (change : Fields Node → Fields Node) (n : Node) : Node :=
  match collapse n with
  | .properties properties => .of (.object (change properties))
  | _ => n

/-- **Whether the properties of a node can be changed**: `any` and `never` stay, and all others have to have some. -/
def TakesChange (n : Node) : Prop :=
  n.isPrimitive .any = true ∨ n.isNever = true ∨ ∃ properties, collapse n = .properties properties

/-- What can be changed is a primitive that stays, or has properties. -/
theorem TakesChange.cases (h : n.TakesChange) :
    (∃ p m a, n = ⟨.primitive p, m, a⟩ ∧ (p = .any ∨ p = .never)) ∨ ∃ properties, collapse n = .properties properties := by
  obtain ⟨kind, m, a⟩ := n
  rcases h with h | h | h
  · cases isPrimitive_iff.1 h
    exact .inl ⟨.any, m, a, rfl, .inl rfl⟩
  · cases isPrimitive_iff.1 h
    exact .inl ⟨.never, m, a, rfl, .inr rfl⟩
  · exact .inr h

theorem keepsBranches_onProperties (change : Fields Node → Fields Node) : KeepsBranches (onProperties change) where
  isUnion {b} h := by
    rw [onProperties]
    split
    · rfl
    · exact h
  isNever {b} h := by
    rw [onProperties]
    split
    · rfl
    · exact h
  never {b} h := by
    obtain ⟨kind, modifiers, annotations⟩ := b
    cases isPrimitive_iff.1 h
    rfl

theorem onProperties_onProperties (change change' : Fields Node → Fields Node) (n : Node) :
    (n.onProperties change').onProperties change = n.onProperties fun properties => change (change' properties) := by
  cases hcollapse : collapse n with
  | properties =>
    simp only [onProperties, hcollapse]
    rfl
  | _ => simp only [onProperties, hcollapse]

/-- A node whose properties can be changed becomes an object, or is `any` or `never`. -/
theorem onProperties_cases (h : n.TakesChange) (change : Fields Node → Fields Node) :
    (∃ properties, n.onProperties change = .of (.object properties)) ∨
      ∃ p m a, n.onProperties change = ⟨.primitive p, m, a⟩ := by
  rcases h.cases with ⟨p, m, a, rfl, -⟩ | ⟨properties, hcollapse⟩
  · exact .inr ⟨p, m, a, rfl⟩
  · exact .inl ⟨change properties, by rw [onProperties, hcollapse]⟩

theorem takesChange_onProperties (h : n.TakesChange) (change : Fields Node → Fields Node) :
    (n.onProperties change).TakesChange := by
  rcases h.cases with ⟨p, m, a, rfl, -⟩ | ⟨properties, hcollapse⟩
  · exact h
  · rw [onProperties, hcollapse]
    exact .inr (.inr ⟨_, rfl⟩)

theorem onProperties_isConcrete (f : FlagSetting) (hn : n.isConcrete = true) : (n.onProperties f.change).isConcrete = true := by
  rw [onProperties]
  split
  · rename_i properties hcollapse
    refine compositional_isConcrete.ofObject (List.forall_mem_map.2 fun e he => ?_)
    exact compositional_isConcrete.of_kind (compositional_isConcrete.collapse hn hcollapse e he) rfl
  · exact hn

/-! ### Equal results -/

theorem sameAs_setType (f : FlagSetting) (h : x.sameAs y = true) : (f.setType x).sameAs (f.setType y) = true := by
  obtain ⟨hkind, hmodifiers, hannotations⟩ := sameAs_iff.1 h
  exact sameAs_iff.2 ⟨hkind, congrArg f.set hmodifiers, hannotations⟩

theorem SameFields.setFlag {fs gs : Fields Node} (h : SameFields fs gs) (f : FlagSetting) :
    SameFields (f.change fs) (f.change gs) := by
  refine ⟨by rw [FlagSetting.change, Fields.mapValues, Fields.mapValues, List.length_map, List.length_map, h.1],
    List.forall_mem_map.2 fun e he => ?_⟩
  obtain ⟨y, hy, hsame⟩ := h.2 e he
  refine ⟨f.setType y, ?_, sameAs_setType f hsame⟩
  rw [FlagSetting.change, Fields.get?_mapValues, hy, Option.map_some]

/-- **Equal results of one setting** are made equal by another. -/
theorem beq_onProperties_onProperties (hx : x.TakesChange) (hy : y.TakesChange)
    (h : (x.onProperties g.change == y.onProperties g.change) = true) :
    ((x.onProperties g.change).onProperties f.change == (y.onProperties g.change).onProperties f.change) = true := by
  obtain ⟨hkind, -, -⟩ := sameAs_iff.1 h
  rcases onProperties_cases hx g.change with ⟨ps, hps⟩ | ⟨p, m, a, hp⟩ <;>
    rcases onProperties_cases hy g.change with ⟨qs, hqs⟩ | ⟨q, m', a', hq⟩
  · rw [hps, hqs] at hkind ⊢
    cases hkind with
    | object hfields => exact sameAs_iff.2 ⟨.object (SameFields.setFlag hfields f), rfl, rfl⟩
  · rw [hps, hq] at hkind
    cases hkind
  · rw [hp, hqs] at hkind
    cases hkind
  · rw [hp, hq] at h ⊢
    exact h

/-! ### Changed nodes -/

/-- **A node after a setting**, of all its branches. -/
def changed (f : FlagSetting) (n : Node) : Node := n.onBranches (onProperties f.change)

theorem changed_changed (hn : ∀ b ∈ branchesOpened n, b.TakesChange) :
    (n.changed g).changed f = n.onBranches (onProperties fun properties => f.change (g.change properties)) := by
  rw [changed, changed, onBranches_onBranches (keepsBranches_onProperties _) (keepsBranches_onProperties _)]
  · simp only [onProperties_onProperties]
  · intro x hx y hy h
    obtain ⟨b, hb, rfl⟩ := List.mem_map.1 hx
    obtain ⟨c, hc, rfl⟩ := List.mem_map.1 hy
    exact beq_onProperties_onProperties (hn b hb) (hn c hc) h

theorem changed_changed_of_flag (hn : ∀ b ∈ branchesOpened n, b.TakesChange) (h : f.flag = g.flag) :
    (n.changed g).changed f = n.changed f := by
  rw [changed_changed hn]
  simp only [FlagSetting.change_change_of_flag h]
  rfl

theorem changed_comm (hn : ∀ b ∈ branchesOpened n, b.TakesChange) (h : f.flag ≠ g.flag) :
    (n.changed g).changed f = (n.changed f).changed g := by
  rw [changed_changed hn, changed_changed hn]
  simp only [FlagSetting.change_comm h]

theorem changed_isConcrete (f : FlagSetting) (hn : n.isConcrete = true) : (n.changed f).isConcrete = true :=
  onBranches_isConcrete (fun _ => onProperties_isConcrete f) hn

/-- What was changed can be changed again. -/
theorem takesChange_changed (hn : ∀ b ∈ branchesOpened n, b.TakesChange) (f : FlagSetting) :
    ∀ b ∈ branchesOpened (n.changed f), b.TakesChange := by
  intro b hb
  rw [changed, branchesOpened_onBranches (keepsBranches_onProperties _)] at hb
  obtain ⟨c, hc, rfl⟩ := List.mem_map.1 (mem_of_mem_distinct hb)
  exact takesChange_onProperties (hn c hc) f.change

/-- A bundle takes no change. -/
theorem opensNoBundle_of_takesChange (hn : ∀ b ∈ branchesOpened n, b.TakesChange) : n.opensNoBundle = true := by
  refine opensNoBundle_iff.2 fun b hb => ?_
  have htakes := hn b hb
  obtain ⟨kind, m, a⟩ := b
  cases kind with
  | cyclic definitions root => rcases htakes with h | h | ⟨_, h⟩ <;> cases h
  | _ => rfl

end Node

/-! ## Reduction -/

section
variable {checked : Bool} {f g : FlagSetting} {s : Setting} {change : Fields Node → Fields Node} {n r : Node}

/-- **What takes a change is changed**, whatever the change is. -/
theorem changeLeaf_of_takesChange (h : n.TakesChange) : changeLeaf s change n = .done (some (n.onProperties change)) := by
  rcases h.cases with ⟨p, m, a, rfl, rfl | rfl⟩ | ⟨properties, hcollapse⟩
  · rfl
  · rfl
  · have hprimitive : ∀ p, n.kind ≠ .primitive p := fun p hk => by
      obtain ⟨kind, m, a⟩ := n
      cases hk
      cases hcollapse
    rw [changeLeaf, Node.onProperties, hcollapse]
    split
    · exact absurd ‹_› (hprimitive .any)
    · exact absurd ‹_› (hprimitive .never)
    · rfl

/-- Nothing else is changed. -/
theorem takesChange_of_changeLeaf (h : changeLeaf s change n = .done (some r)) : n.TakesChange := by
  unfold changeLeaf at h
  split at h
  · rename_i hk
    exact .inl (Node.isPrimitive_iff.2 hk)
  · rename_i hk
    exact .inr (.inl (Node.isPrimitive_iff.2 hk))
  · split at h
    · rename_i properties hcollapse
      exact .inr (.inr ⟨properties, hcollapse⟩)
    · cases h
    · cases h

theorem changeLeaf_yields (hn : n.isConcrete = true) : (changeLeaf s change n).Yields checked fun _ => True := by
  unfold changeLeaf
  split
  · exact Outcome.yields_done trivial
  · exact Outcome.yields_done trivial
  · split
    · exact Outcome.yields_done trivial
    · rename_i hunresolved
      exact absurd hunresolved (collapse_ne_unresolved hn)
    · trivial

/-! ### Through unions -/

section
variable (hn : n.isConcrete = true) (hbundle : n.opensNoBundle = true)
include hn hbundle

theorem changeProperties_eq_openNode :
    changeProperties s change n = s.openNode Node.unionOf (changeLeaf s change) (changeLeaf s change) n :=
  Setting.openSubject_eq (by simp [Node.namesShown_of_isConcrete hn hbundle]) _ _

/-- **What a setting is done for takes changes**, in all branches. -/
theorem takesChange_of_reduceEager (hs : s.operator = f.operator) {reduced : Option Node}
    (h : reduceEager s [n] = .done reduced) : ∀ b ∈ branchesOpened n, b.TakesChange := by
  rw [FlagSetting.reduceEager_operator hs, changeProperties_eq_openNode hn hbundle] at h
  have hyields : (s.openNode Node.unionOf (changeLeaf s f.change) (changeLeaf s f.change) n).Yields true fun _ => True :=
    Setting.openNode_yields_any hn hbundle fun b hb => changeLeaf_yields hb
  rw [h] at hyields
  obtain ⟨out, rfl, -⟩ := hyields
  intro b hb
  obtain ⟨r, hr⟩ := Setting.leaf_of_openNode hbundle h b hb
  exact takesChange_of_changeLeaf hr

end

/-- **What takes changes is done by every setting.** -/
theorem reduceEager_changed (hn : n.isConcrete = true) (htakes : ∀ b ∈ branchesOpened n, b.TakesChange)
    (hs : s.operator = f.operator) : reduceEager s [n] = .done (some (n.changed f)) := by
  have hbundle := Node.opensNoBundle_of_takesChange htakes
  rw [FlagSetting.reduceEager_operator hs, changeProperties_eq_openNode hn hbundle]
  exact Setting.openNode_eq_onBranches (Node.keepsBranches_onProperties _) hbundle
    (fun b hb => changeLeaf_of_takesChange (htakes b hb)) fun b hb => changeLeaf_of_takesChange (.inr (.inl hb))

/-! ## Through the engine -/

variable {limits : Limits} {context : Context} {t : State}

theorem run_applied (hn : n.isConcrete = true) (htakes : ∀ b ∈ branchesOpened n, b.TakesChange) {fuel : Nat}
    (hfuel : limits.maxDepth ≤ t.depth + fuel) : run limits (fuel + 1) context t (f.applied n) =
      if t.depth + (f.applied n).height ≤ limits.maxDepth then .done (n.changed f)
      else .failed (.depthExceeded limits.maxDepth) :=
  run_of_reduceEager f.isEager_operator (List.forall_mem_singleton.2 hn) hfuel (reduceEager_changed hn htakes rfl)

theorem instantiateWith_applied (hn : n.isConcrete = true) (htakes : ∀ b ∈ branchesOpened n, b.TakesChange) :
    instantiateWith limits context t (f.applied n) =
      if t.depth + (f.applied n).height ≤ limits.maxDepth then .done (n.changed f)
      else .failed (.depthExceeded limits.maxDepth) :=
  instantiateWith_of_reduceEager f.isEager_operator (List.forall_mem_singleton.2 hn)
    fun _ hs _ => reduceEager_changed hn htakes hs

theorem takesChange_of_instantiateWith (hn : n.isConcrete = true) (hbundle : n.opensNoBundle = true) {out : Node}
    (h : instantiateWith limits context t (f.applied n) = .done out) : ∀ b ∈ branchesOpened n, b.TakesChange := by
  have hdeferred : (f.applied n).kind = .deferred f.operator [n] [] := rfl
  have hfuel : limits.maxDepth ≤ t.depth + (limits.maxDepth + 19999) := by omega
  rw [instantiateWith, ampleFuel, run_of_isEager hdeferred f.isEager_operator (List.forall_mem_singleton.2 hn) hfuel] at h
  split at h
  · obtain ⟨reduced, hreduced, -⟩ := Outcome.bind_eq_done.1 h
    exact takesChange_of_reduceEager hn hbundle rfl hreduced
  · cases h

/-- **One setting applied to the other**, the inner one instantiated on the way. -/
theorem instantiateWith_applied_applied (hn : n.isConcrete = true) (htakes : ∀ b ∈ branchesOpened n, b.TakesChange)
    (hroom : t.depth + n.height + 2 ≤ limits.maxDepth) :
    instantiateWith limits context t (f.applied (g.applied n)) = .done ((n.changed g).changed f) := by
  have hinner : (f.operator.settingUnder limits (limits.maxDepth + 19999) context t).instantiate (g.applied n) =
      .done (n.changed g) := by
    refine (run_applied hn htakes (t := { t with depth := t.depth + 1 }) (by show _ ≤ t.depth + 1 + _; omega)).trans ?_
    rw [FlagSetting.height_applied]
    exact if_pos (by show t.depth + 1 + _ ≤ _; omega)
  have hdeferred : (f.applied (g.applied n)).kind = .deferred f.operator [g.applied n] [] := rfl
  refine (run_of_deferred hdeferred (by omega) (limits.maxDepth + 19999) context).trans ?_
  refine reduce_of_done f.isEager_operator (f.canReduce_applied g context n) (.cons hinner .nil) ?_
  exact reduceEager_changed (Node.changed_isConcrete g hn) (Node.takesChange_changed htakes g) rfl

/-- **The modifier operators are a commuting idempotent algebra**, where no bundle is reached through unions.  If one of them is
done with a subject so are all, and

- of two settings of one flag the later one counts: settings are idempotent, and required undoes partial as writable undoes
  readonly;
- settings of different flags commute,

both for applications of applications and for one instantiation after the other, as long as the results are not too high for
the depth limit. -/
theorem modifier_operators_algebra (hn : n.isConcrete = true) (hbundle : n.opensNoBundle = true)
    (hroom : t.depth + n.height + 2 ≤ limits.maxDepth) (f g : FlagSetting) {out : Node}
    (hout : instantiateWith limits context t (f.applied n) = .done out) :
    ∃ other, instantiateWith limits context t (g.applied n) = .done other ∧
      (f.flag = g.flag →
        instantiateWith limits context t (f.applied (g.applied n)) = .done out ∧
        (t.depth + (f.applied other).height ≤ limits.maxDepth →
          instantiateWith limits context t (f.applied other) = .done out)) ∧
      (f.flag ≠ g.flag → ∃ both,
        instantiateWith limits context t (f.applied (g.applied n)) = .done both ∧
        instantiateWith limits context t (g.applied (f.applied n)) = .done both ∧
        (t.depth + (f.applied other).height ≤ limits.maxDepth →
          instantiateWith limits context t (f.applied other) = .done both) ∧
        (t.depth + (g.applied out).height ≤ limits.maxDepth →
          instantiateWith limits context t (g.applied out) = .done both)) := by
  have htakes := takesChange_of_instantiateWith hn hbundle hout
  have hdone : ∀ h : FlagSetting, instantiateWith limits context t (h.applied n) = .done (n.changed h) := fun h => by
    rw [instantiateWith_applied hn htakes, if_pos (by rw [FlagSetting.height_applied]; omega)]
  have hnested : ∀ h h' : FlagSetting, instantiateWith limits context t (h.applied (h'.applied n)) =
      .done ((n.changed h').changed h) := fun h h' => instantiateWith_applied_applied hn htakes hroom
  have hlater : ∀ h h' : FlagSetting, t.depth + (h.applied (n.changed h')).height ≤ limits.maxDepth →
      instantiateWith limits context t (h.applied (n.changed h')) = .done ((n.changed h').changed h) := fun h h' hlow => by
    rw [instantiateWith_applied (Node.changed_isConcrete h' hn) (Node.takesChange_changed htakes h'), if_pos hlow]
  obtain rfl : n.changed f = out := Outcome.done.inj ((hdone f).symm.trans hout)
  refine ⟨n.changed g, hdone g, fun hflag => ?_, fun hflag => ⟨(n.changed g).changed f, hnested f g, ?_, hlater f g, ?_⟩⟩
  · rw [← Node.changed_changed_of_flag htakes hflag]
    exact ⟨hnested f g, hlater f g⟩
  · rw [hnested g f, Node.changed_comm htakes hflag]
  · rw [Node.changed_comm htakes hflag]
    exact hlater g f

end

/-- Nested unions with flags, an intersection, `any` and `never`: two objects become equal when their properties become optional,
and only then one of them is left out. -/
theorem modifier_operators_algebra_merged :
    let type : Node := .string
    let optional : Node := ⟨.primitive .string, ⟨true, false⟩, []⟩
    let inner : Node := ⟨.union [.object [("a", optional)], .intersect [.object [("b", type)], .object [("b", type)]], .never],
      ⟨false, true⟩, []⟩
    let n : Node := .union [.object [("a", type)], inner, .any]
    let partially : FlagSetting := ⟨.optional, true⟩
    let readonly : FlagSetting := ⟨.readonly, true⟩
    let out : Node := .union [.object [("a", optional)], .object [("b", optional)], .any]
    n.isConcrete = true ∧ n.opensNoBundle = true ∧
      State.initial.depth + n.height + 2 ≤ 512 ∧ instantiateWith {} [] .initial (partially.applied n) = .done out ∧
      instantiateWith {} [] .initial (partially.applied (partially.applied n)) = .done out ∧
      ∃ both, instantiateWith {} [] .initial (partially.applied (readonly.applied n)) = .done both ∧
        instantiateWith {} [] .initial (readonly.applied (partially.applied n)) = .done both := by
  intro type optional inner n partially readonly out
  have hn : n.isConcrete = true := by decide +kernel
  have hbundle : n.opensNoBundle = true := by decide +kernel
  have hroom : State.initial.depth + n.height + 2 ≤ 512 := by decide +kernel
  have hout : instantiateWith {} [] .initial (partially.applied n) = .done out := by with_unfolding_all rfl
  obtain ⟨_, -, hsame, -⟩ := modifier_operators_algebra hn hbundle hroom partially partially hout
  obtain ⟨_, -, -, hdifferent⟩ := modifier_operators_algebra hn hbundle hroom partially readonly hout
  obtain ⟨both, hboth, hcommuted, -⟩ := hdifferent (by decide)
  exact ⟨hn, hbundle, hroom, hout, (hsame rfl).1, both, hboth, hcommuted⟩

end Schemata
