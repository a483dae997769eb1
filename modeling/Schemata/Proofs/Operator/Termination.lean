import Mathlib.Logic.Relation
import Schemata.Proofs.Instantiation.Budget
import Schemata.Proofs.Instantiation.Depth
import Schemata.Proofs.Operator.Causes
import Schemata.Proofs.Operator.Following
/-!
# Where opening ends

An operator that opens its first operand follows references, and the bundle around a definition may show further ones.
Neither the depth nor the size of a node decreases on the way.  What decreases is the number of names that have not been
followed, as long as none leads back to itself.

- `Outcome.Answers checked`: an instantiation ends; where sums are checked it does not stop at the last index of a tuple.
- `Setting.LeadsTo a b`: the bundle around the definition of `a` shows `b`.
- `Context.LeadsTo a b`: the definition of `a`, as it is written, shows `b`.
- `Setting.Ends n`: nothing that `n` leads to leads back to itself, and all of it can be packed or fails to be.

Main statement: `structural_operators_end`.
-/
namespace Schemata

open Relation

/-! ## Answers -/

/-- The error for the last index of a tuple. -/
def InstantiationError.isLastIndex : InstantiationError → Bool
  | .structuralMismatch _ .wordIndex _ => true
  | _ => false

/-- **Any error answers**, fuel that is spent does not; nor does the last index where sums are checked. -/
def IsAnswer (checked : Bool) : Option InstantiationError → Prop
  | some e => checked = true → e.isLastIndex = false
  | none => False

/-- **An instantiation answers**: it is done or fails. -/
def Outcome.Answers {α : Type} (checked : Bool) (x : Outcome α) : Prop := x.StopsBy (IsAnswer checked)

variable {checked : Bool}

theorem isAnswer_of_unchecked (e : InstantiationError) : IsAnswer false (some e) := nofun

theorem isAnswer_of_operand : ∀ cause, OperandCause checked cause → IsAnswer checked cause
  | some (.structuralMismatch _ expected _), h => by
    intro hchecked
    cases expected with
    | wordIndex => exact absurd (hchecked.symm.trans h) nofun
    | _ => rfl
  | some (.invalidArity ..), _ => fun _ => rfl

theorem ownCauses_isAnswer : OwnCauses (IsAnswer false) where
  mismatch _ _ _ := isAnswer_of_unchecked _
  arity _ _ _ := isAnswer_of_unchecked _
  missing _ := isAnswer_of_unchecked _

theorem Outcome.answers_iff_ne_exhausted {α : Type} {x : Outcome α} : x.Answers false ↔ x ≠ .exhausted := by
  cases x <;> simp [Answers, StopsBy, IsAnswer]

namespace Setting

variable {s : Setting}

/-! ## Names that lead to names -/

/-- **A name leads to another one**: opening the bundle around its definition comes to a reference of that name. -/
def LeadsTo (s : Setting) (a b : String) : Prop :=
  ∃ target bundle, s.context.get? a = some target ∧ packageDefinition s.evaluate s.context a target = .done bundle ∧
    b ∈ bundle.namesShown

/-- **Opening a node comes to a name**, sooner or later. -/
def ComesTo (s : Setting) (n : Node) (b : String) : Prop := ∃ a ∈ n.namesShown, ReflTransGen s.LeadsTo a b

/-- **Opening a node ends**: no name that it comes to leads back to itself, and the definitions of all these names are
packed, or fail to be. -/
structure Ends (s : Setting) (checked : Bool) (n : Node) : Prop where
  acyclic : ∀ b, s.ComesTo n b → ¬ TransGen s.LeadsTo b b
  packed : ∀ b, s.ComesTo n b → ∀ target, s.context.get? b = some target →
    (packageDefinition s.evaluate s.context b target).Answers checked

theorem comesTo_shown {n : Node} {a : String} (ha : a ∈ n.namesShown) : s.ComesTo n a := ⟨a, ha, .refl⟩

theorem Ends.next {n bundle : Node} (h : s.Ends checked n) {a : String} (ha : a ∈ n.namesShown)
    (hleads : ∀ b ∈ bundle.namesShown, s.LeadsTo a b) : s.Ends checked bundle := by
  have hcomes : ∀ b, s.ComesTo bundle b → s.ComesTo n b := fun b ⟨c, hc, hcb⟩ => ⟨a, ha, .head (hleads c hc) hcb⟩
  exact ⟨fun b hb => h.acyclic b (hcomes b hb), fun b hb => h.packed b (hcomes b hb)⟩

/-- **Opening ends within the references that are left**, by induction on them.  The names followed so far are bound and
lead to all that is shown, so none is followed again. -/
theorem Ends.answers_openWithin {join : List Node → Node} {leaf : Node → Outcome (Option Node)}
    (hleaf : ∀ n, (leaf n).Answers checked) {follows : Nat} {used : List String} {n : Node} (hn : s.Ends checked n)
    (hnodup : used.Nodup) (hbound : ∀ a ∈ used, a ∈ s.context.names)
    (hleads : ∀ a ∈ used, ∀ b ∈ n.namesShown, TransGen s.LeadsTo a b)
    (hroom : s.context.length < used.length + follows) : (s.openWithin join leaf follows n).Answers checked := by
  induction follows generalizing used n with
  | zero =>
    have := Fields.length_le_of_nodup hnodup hbound
    omega
  | succ follows ih =>
    rw [openWithin_succ]
    refine stopsBy_openNode (fun _ _ => rfl) join hleaf fun m hm name hk => ?_
    have hname : name ∈ n.namesShown := Node.mem_namesShown_iff.2 ⟨m, hm, hk⟩
    rw [followed_eq hk]
    cases ht : s.context.get? name with
    | none => exact hleaf m
    | some target =>
      refine Outcome.StopsBy.bind (hn.packed name (comesTo_shown hname) target ht) fun bundle hbundle => ?_
      have hnext : ∀ b ∈ bundle.namesShown, s.LeadsTo name b := fun b hb => ⟨target, bundle, ht, hbundle, hb⟩
      have hnew : name ∉ used := fun hm => hn.acyclic name (comesTo_shown hname) (hleads name hm name hname)
      refine ih (hn.next hname hnext) (List.nodup_cons.2 ⟨hnew, hnodup⟩) ?_ ?_ (by simp; omega)
      · exact List.forall_mem_cons.2 ⟨Fields.mem_names_iff.2 (by simp [Fields.has, ht]), hbound⟩
      · refine List.forall_mem_cons.2 ⟨fun b hb => .single (hnext b hb), fun a ha b hb => ?_⟩
        exact (hleads a ha name hname).tail (hnext b hb)

theorem Ends.firstOpens {operands : List Node} (h : ∀ subject ∈ operands.head?, s.Ends checked subject) :
    s.FirstOpens (IsAnswer checked) operands := fun _ _ hleaf subject hsubject =>
  (h subject hsubject).answers_openWithin hleaf .nil (by simp) (by simp) (by simp)

/-- Where nothing can be packed, no name leads anywhere. -/
theorem Ends.of_failing {e : InstantiationError} (h : ∀ context n, s.evaluate context .initial n = .failed e)
    (n : Node) : s.Ends false n := by
  have hfailed : ∀ name target, s.context.get? name = some target →
      packageDefinition s.evaluate s.context name target = .failed e := by
    intro name target ht
    rw [packageDefinition, Fields.insert_of_get? ht, package, List.mapM_cons]
    simp only [ht, h]
    rfl
  have hnone : ∀ a b, ¬ s.LeadsTo a b := by
    rintro a b ⟨target, bundle, ht, hbundle, -⟩
    rw [hfailed a target ht] at hbundle
    cases hbundle
  refine ⟨fun b _ hb => ?_, fun b _ target ht => ?_⟩
  · obtain ⟨c, hc, -⟩ := TransGen.head'_iff.1 hb
    exact hnone b c hc
  · rw [hfailed b target ht]
    exact isAnswer_of_unchecked e

end Setting

/-! ## Packing without fresh starts -/

theorem State.answers_enter {limits : Limits} {s : State} {name : String} {arguments : List Node} :
    (s.enter limits name arguments).Answers false := by
  rw [enter]
  split
  · trivial
  · rw [push]
    dsimp only
    split
    · exact isAnswer_of_unchecked _
    · trivial

/-- **A run without fresh starts ends**, with as much fuel as the depth limit leaves steps: by induction on it. -/
theorem Nested.answers {limits : Limits} {query : Query} (hfresh : ∀ j q, ¬ StartsAfresh limits query j q)
    {fuel k : Nat} {p : Point} (hp : Nested limits query k p) (hroom : limits.maxDepth < k + fuel + 1) :
    ((run limits (fuel + 1)).answer p).Answers false := by
  classical
  induction fuel generalizing k p with
  | zero =>
    have hdeep : limits.maxDepth ≤ p.state.depth := by
      rw [hp.depth_eq hfresh]
      omega
    rw [run_too_deep hdeep]
    exact isAnswer_of_unchecked _
  | succ fuel ih =>
    -- What is not asked may as well fail, and nothing is asked under the initial state.
    let e : InstantiationError := .depthExceeded limits.maxDepth
    let asked : Evaluator := fun context s n =>
      if Asks (stepAt limits p) (run limits (fuel + 1)) ⟨context, s, n⟩ then run limits (fuel + 1) context s n
      else .failed e
    have hasked : stepAt limits p asked = stepAt limits p (run limits (fuel + 1)) :=
      (planned_stepAt limits p).eq_of_asks fun q hq => if_pos hq
    have hevaluate : ∀ context s n, (asked context s n).StopsBy (IsAnswer false) := by
      intro context s n
      by_cases hq : Asks (stepAt limits p) (run limits (fuel + 1)) ⟨context, s, n⟩
      · rw [show asked context s n = _ from if_pos hq]
        exact ih (.invokes hp ⟨fuel + 1, hq⟩) (by omega)
      · rw [show asked context s n = _ from if_neg hq]
        exact isAnswer_of_unchecked e
    have hinitial : ∀ context n, asked context .initial n = .failed e := fun context n =>
      if_neg fun hq => hfresh k _ ⟨.invokes hp ⟨fuel + 1, hq⟩, rfl⟩
    rw [run_succ, ← hasked, stepAt]
    refine (State.stopsBy_descend (isAnswer_of_unchecked _) p.state).bind fun s _ => ?_
    refine step_stopsBy hevaluate (fun _ _ _ => isAnswer_of_unchecked _) (fun _ _ _ _ _ => State.answers_enter) ?_
    intro operator operands options _
    refine reduce_stopsBy ownCauses_isAnswer hevaluate (fun operands => ?_) _ operands options
    exact Setting.Ends.firstOpens fun subject _ => .of_failing hinitial subject

/-- **A definition is packed, or fails to be**, unless a step inside of it starts afresh. -/
theorem answers_packageDefinition {limits : Limits} {context : Context} {name : String} {n : Node}
    (hfresh : ∀ j q, ¬ StartsAfresh limits (.cyclic context name n) j q) {fuel : Nat} (hfuel : limits.maxDepth < fuel) :
    (packageDefinition (run limits fuel) context name n).Answers false := by
  obtain ⟨fuel, rfl⟩ : ∃ k, fuel = k + 1 := ⟨fuel - 1, by omega⟩
  have hquery : ((Query.cyclic context name n).outcome (run limits (fuel + 1))).Answers false :=
    Query.stopsBy_of_asks ownCauses_isAnswer _ fun q hq => Nested.answers hfresh (.opens ⟨fuel + 1, hq⟩) (by omega)
  rw [Outcome.answers_iff_ne_exhausted] at hquery ⊢
  intro hexhausted
  rw [Query.outcome, hexhausted] at hquery
  exact hquery rfl

/-- **A definition is packed at once**: nothing inside of it starts afresh, and where sums are checked it does not stop at
the last index of a tuple. -/
def Setting.PacksAtOnce (s : Setting) (limits : Limits) (checked : Bool) (name : String) : Prop :=
  ∀ target, s.context.get? name = some target →
    (∀ j q, ¬ StartsAfresh limits (.cyclic s.context name target) j q) ∧
    (checked = true → ∀ e, packageDefinition s.evaluate s.context name target = .failed e → e.isLastIndex = false)

theorem Setting.Ends.of_packsAtOnce {operator : Operator} {limits : Limits} {context : Context} {n : Node}
    (h : ∀ b, (operator.setting limits context).ComesTo n b →
      ¬ TransGen (operator.setting limits context).LeadsTo b b ∧
        (operator.setting limits context).PacksAtOnce limits checked b) :
    (operator.setting limits context).Ends checked n where
  acyclic b hb := (h b hb).1
  packed b hb target ht := by
    obtain ⟨hfresh, hlast⟩ := (h b hb).2 target ht
    have hends := answers_packageDefinition hfresh (by omega : limits.maxDepth < limits.maxDepth + 19999)
    revert hends hlast
    rw [show (operator.setting limits context).evaluate = run limits (limits.maxDepth + 19999) from rfl]
    cases packageDefinition (run limits (limits.maxDepth + 19999)) (operator.setting limits context).context b target with
    | done bundle => exact fun _ _ => trivial
    | failed e => exact fun hlast _ hchecked => hlast hchecked e rfl
    | exhausted => exact fun _ hends => hends

/-! ## Plain contexts -/

/-- **A definition leads to a name**: opening it, as it is written, comes to a reference of that name. -/
def Context.LeadsTo (context : Context) (a b : String) : Prop := ∃ n, context.get? a = some n ∧ b ∈ n.namesShown

section
variable {limits : Limits} {context : Context}

/-- **A run in a plain context ends** with more fuel than the depth limit leaves steps, by induction on the fuel. -/
theorem answers_run_of_isPlain (hplain : context.Plain) {fuel : Nat} {s : State} {n : Node} (hn : n.isPlain = true)
    (hs : s.depth ≤ limits.maxDepth) (hfuel : limits.maxDepth < s.depth + fuel) :
    (run limits fuel context s n).Answers checked := by
  induction fuel generalizing s n with
  | zero => omega
  | succ fuel ih =>
    rw [run]
    refine (State.stopsBy_descend (fun _ => rfl) s).bind fun t ht => ?_
    obtain ⟨hlt, rfl⟩ := State.eq_of_descend ht
    have hpart : ∀ {m : Node}, m.isPlain = true →
        (run limits fuel context { s with depth := s.depth + 1 } m).Answers checked :=
      fun hm => ih hm (by simp only; omega) (by simp only; omega)
    rcases Node.isPlain_cases hn with ⟨definitions, root, hk⟩ | ⟨name, hk⟩ | ⟨hstructural, hparts⟩
    · rw [step_of_bundle hk]
      trivial
    · by_cases hstays : Stays context name
      · rw [step_of_stays hk hstays]
        trivial
      · obtain ⟨target, hbound, hclear⟩ := not_stays_iff.1 hstays
        rw [step_of_follows hk hbound hclear]
        exact (hpart (hplain name target hbound)).then
    · rw [step_of_isStructural hstructural]
      exact (stopsBy_traverse fun c hc => hpart (hparts c hc)).then

theorem answers_packageDefinition_of_plain (hplain : context.Plain) {fuel : Nat} (hfuel : limits.maxDepth < fuel)
    {name : String} {n : Node} (hn : context.get? name = some n) :
    (packageDefinition (run limits fuel) context name n).Answers checked := by
  rw [packageDefinition, Fields.insert_of_get? hn]
  refine Outcome.StopsBy.then (Outcome.stopsBy_mapM fun member _ => ?_)
  split
  · rename_i body hbody
    exact (answers_run_of_isPlain (hplain.without _) (hplain member body hbody) (Nat.zero_le _)
      (by show _ < 0 + _; omega)).then
  · exact fun _ => rfl

/-- A point in a plain context. -/
def Point.IsPlain (p : Point) : Prop := p.context.Plain ∧ p.node.isPlain = true

/-- **A step in a plain context** asks about plain nodes in it only. -/
theorem planned_stepAt_of_plain {p : Point} (hp : p.IsPlain) : Planned Point.IsPlain (stepAt limits p) := by
  obtain ⟨hplain, hn⟩ := hp
  refine planned_stepAt_of_descend fun s _ => ?_
  rcases Node.isPlain_cases hn with ⟨definitions, root, hk⟩ | ⟨name, hk⟩ | ⟨hstructural, hparts⟩
  · simp only [step_of_bundle hk]
    exact .const _
  · by_cases hstays : Stays p.context name
    · simp only [step_of_stays hk hstays]
      exact .const _
    · obtain ⟨target, hbound, hclear⟩ := not_stays_iff.1 hstays
      simp only [step_of_follows hk hbound hclear]
      exact .then_const (.question ⟨hplain, hplain name target hbound⟩) _
  · simp only [step_of_isStructural hstructural]
    exact .then_const (.traverse fun c hc => .question ⟨hplain, hparts c hc⟩) _

theorem planned_packageDefinition_of_plain (hplain : context.Plain) {name : String} {n : Node}
    (hn : context.get? name = some n) :
    Planned Point.IsPlain fun evaluate => packageDefinition evaluate context name n := by
  simp only [packageDefinition, Fields.insert_of_get? hn]
  refine .then_const (.mapM fun member _ => ?_) _
  cases hmember : context.get? member with
  | none => exact .const _
  | some body => exact .then_const (.question ⟨hplain.without _, hplain member body hmember⟩) _

/-- **In a plain context nothing starts afresh**: an operator would have to be deferred there. -/
theorem not_startsAfresh_of_plain (hplain : context.Plain) {name : String} {n : Node} (hn : context.get? name = some n)
    (j : Nat) (q : Point) : ¬ StartsAfresh limits (.cyclic context name n) j q := by
  have hnested : ∀ {k p}, Nested limits (.cyclic context name n) k p → p.IsPlain := by
    intro k p h
    induction h with
    | opens h =>
      obtain ⟨fuel, hasks⟩ := h
      exact (Planned.then_const (planned_packageDefinition_of_plain hplain hn) _).allowed_of_asks hasks
    | invokes _ h ih =>
      obtain ⟨fuel, hasks⟩ := h
      exact (planned_stepAt_of_plain ih).allowed_of_asks hasks
  rintro ⟨hq, hinitial⟩
  cases hq with
  | invokes hp h =>
    rcases h.depth.2 with hdepth | ⟨-, operator, operands, options, hk⟩
    · rw [hinitial] at hdepth
      cases hdepth
    · have hform := (Node.isPlain_iff.1 (hnested hp).2).1
      rw [hk] at hform
      cases hform

/-- **Resolution shows no more** than what the definitions on the way show. -/
theorem Resolves.exists_shows {k : Nat} {n m : Node} (h : Resolves context k n m) {b : String} (hb : b ∈ m.namesShown) :
    ∃ a ∈ n.namesShown, ReflTransGen context.LeadsTo a b := by
  induction h with
  | bundle | stays => exact ⟨b, hb, .refl⟩
  | @follows k n target m name hk bound clear next ih =>
    have hshown : (m.inherit n).namesShown = m.namesShown := Node.namesShown_of_kind rfl
    rw [hshown] at hb
    obtain ⟨a, ha, hab⟩ := ih hb
    refine ⟨name, ?_, .head ⟨target, bound, ha⟩ hab⟩
    rw [Node.namesShown_eq, hk]
    exact List.mem_singleton_self name
  | @parts k n form before after hk structural each ih =>
    rw [Node.namesShown_eq] at hb
    rw [Node.namesShown_eq, hk]
    cases form with
    | union variants =>
      obtain ⟨d, hd, hb⟩ := List.mem_flatMap.1 hb
      obtain ⟨c, hc, rfl⟩ := List.mem_map.1 hd
      obtain ⟨a, ha, hab⟩ := ih c hc hb
      exact ⟨a, List.mem_flatMap.2 ⟨before c, List.mem_map_of_mem hc, ha⟩, hab⟩
    | ref | cyclic | call | deferred | generic => cases structural
    | _ => cases hb

section
variable (hplain : context.Plain) {fuel templates : Nat} {state : State} {operator : Operator}
include hplain

/-- **What a bundle shows**, the definitions around it lead to. -/
theorem transGen_of_leadsTo {a b : String}
    (h : Setting.LeadsTo ⟨templates, run limits fuel, context, state, operator⟩ a b) :
    TransGen context.LeadsTo a b := by
  obtain ⟨target, bundle, ht, hbundle, hb⟩ := h
  simp only [packageDefinition, Fields.insert_of_get? ht] at hbundle
  obtain ⟨definitions, rfl, -, hbodies⟩ := package_done hbundle
  obtain ⟨root, hr, hb⟩ := Node.mem_namesShown_bundle.1 hb
  obtain ⟨body, hbody, hrun⟩ := hbodies _ (Fields.mem_of_get? hr)
  obtain rfl : target = body := Option.some.inj (ht.symm.trans hbody)
  have hresolves := resolves_of_run (hplain.without _) (hplain a target ht) (.inl (Nat.le_refl _)) hrun
  obtain ⟨c, hc, hcb⟩ := hresolves.exists_shows hb
  refine .head' ⟨target, ht, hc⟩ (ReflTransGen.mono (fun x y hxy => ?_) _ _ hcb)
  obtain ⟨n, hn, hy⟩ := hxy
  rw [Fields.get?_without] at hn
  split at hn
  · cases hn
  · exact ⟨n, hn, hy⟩

theorem Setting.Ends.of_plain (hfuel : limits.maxDepth < fuel) {n : Node}
    (hacyclic : ∀ a ∈ n.namesShown, ∀ b, ReflTransGen context.LeadsTo a b → ¬ TransGen context.LeadsTo b b) :
    Setting.Ends ⟨templates, run limits fuel, context, state, operator⟩ checked n where
  acyclic := by
    rintro b ⟨a, ha, hab⟩ hb
    refine hacyclic a ha b (reflTransGen_closed (fun x y h => ?_) _ _ hab) (TransGen.closed (fun x y h => ?_) _ _ hb)
    · exact (transGen_of_leadsTo hplain h).to_reflTransGen
    · exact transGen_of_leadsTo hplain h
  packed _ _ _ ht := answers_packageDefinition_of_plain hplain hfuel ht

end
end

/-- Where each definition ranks above the names that it shows, no name leads back to itself. -/
theorem Context.not_leadsTo_self {context : Context} (rank : String → Nat)
    (hrank : ∀ e ∈ context, ∀ b ∈ e.2.namesShown, rank b < rank e.1) (a : String) :
    ¬ TransGen context.LeadsTo a a := by
  have hless : ∀ {a b}, TransGen context.LeadsTo a b → rank b < rank a := by
    intro a b h
    induction h with
    | single h =>
      obtain ⟨n, hn, hb⟩ := h
      exact hrank _ (Fields.mem_of_get? hn) _ hb
    | tail _ h ih =>
      obtain ⟨n, hn, hb⟩ := h
      exact Nat.lt_trans (hrank _ (Fields.mem_of_get? hn) _ hb) ih
  exact fun h => Nat.lt_irrefl _ (hless h)

/-! ## Structural operators -/

section
variable {operator : Operator} (hopens : operator.opens = true) {operands : List Node}
include hopens

theorem answers_reduceEager {s : Setting} (hs : s.operator = operator)
    (hends : ∀ subject ∈ operands.head?, s.Ends checked subject)
    (hlast : checked = true → operator.avoidsLastIndex operands = true) : (reduceEager s operands).Answers checked := by
  subst hs
  exact stopsBy_reduceEager_of_opens isAnswer_of_operand (Setting.Ends.firstOpens hends) hopens hlast

/-- **An instantiation ends** where those of the operands do, and opening what comes of the first one. -/
theorem answers_instantiate {limits : Limits} {context : Context} {n : Node} {options : Annotations}
    (hk : n.kind = .deferred operator operands options)
    (hoperands : 0 < limits.maxDepth → ∀ c ∈ operands, ((operator.setting limits context).instantiate c).Answers checked)
    (hends : ∀ subject ∈ operands.head?, ∀ m, (operator.setting limits context).instantiate subject = .done m →
      (operator.setting limits context).Ends checked m)
    (hlast : checked = true → ∀ opened, operands.mapM (operator.setting limits context).instantiate = .done opened →
      operator.avoidsLastIndex opened = true) : (instantiate limits context n).Answers checked := by
  by_cases hdepth : limits.maxDepth = 0
  · have hfailed : instantiate limits context n = .failed (.depthExceeded limits.maxDepth) :=
      run_too_deep (p := ⟨context, .initial, n⟩) (by omega) _
    rw [hfailed]
    exact fun _ => rfl
  rw [instantiate_of_deferred hk (by omega)]
  let s := operator.setting limits context
  by_cases hcan : canReduce s.context s.operator operands = true
  · rw [reduce_of_isEager (operator.isEager_of_opens hopens) hcan]
    refine (Outcome.stopsBy_mapM fun c hc => hoperands (by omega) c hc).bind fun opened hopened => ?_
    have hfirst : ∀ m ∈ opened.head?, s.Ends checked m := by
      intro m hm
      cases Outcome.forall₂_of_mapM hopened with
      | nil => cases hm
      | cons hsubject _ =>
        cases hm
        exact hends _ rfl _ hsubject
    exact (answers_reduceEager hopens rfl hfirst fun hchecked => hlast hchecked opened hopened).then
  · rw [reduce, if_neg hcan]
    trivial

/-- **Structural operators end, unless a definition leads back to itself.**  Take an operator that opens its first
operand, and no name that this operand comes to leads back to itself.  In every setting the operator is reduced, waits or
fails, if the definitions of these names are packed or fail to be.  In an instantiation they are, unless a step inside of
them starts afresh.  Where nothing is applied or bound that never happens, and it is enough that no definition leads back
to itself as it is written.  All this holds whether sums are checked or not; where they are, no key may ask for the last
index of a tuple, neither here nor where a definition is packed. -/
theorem structural_operators_end (checked : Bool) (operands : List Node) :
    (∀ s : Setting, s.operator = operator → (checked = true → operator.avoidsLastIndex operands = true) →
      (∀ subject ∈ operands.head?, s.Ends checked subject) → (reduceEager s operands).Answers checked) ∧
    (∀ (limits : Limits) (context : Context), (checked = true → operator.avoidsLastIndex operands = true) →
      (∀ subject ∈ operands.head?, ∀ b, (operator.setting limits context).ComesTo subject b →
        ¬ TransGen (operator.setting limits context).LeadsTo b b ∧
          (operator.setting limits context).PacksAtOnce limits checked b) →
      (reduceEager (operator.setting limits context) operands).Answers checked) ∧
    ∀ (limits : Limits) (context : Context) (n : Node) (options : Annotations),
      n.kind = .deferred operator operands options → context.Plain → (∀ c ∈ operands, c.isPlain = true) →
      (checked = true → ∀ opened, operands.mapM (operator.setting limits context).instantiate = .done opened →
        operator.avoidsLastIndex opened = true) →
      (∀ subject ∈ operands.head?, ∀ a ∈ subject.namesShown, ∀ b, ReflTransGen context.LeadsTo a b →
        ¬ TransGen context.LeadsTo b b) →
      (instantiate limits context n).Answers checked := by
  refine ⟨fun s hs hlast hends => answers_reduceEager hopens hs hends hlast, fun limits context hlast h => ?_, ?_⟩
  · exact answers_reduceEager hopens rfl (fun subject hsubject => .of_packsAtOnce (h subject hsubject)) hlast
  intro limits context n options hk hplain hoperands hlast h
  refine answers_instantiate hopens hk (fun hdepth c hc => ?_) (fun subject hsubject m hm => ?_) hlast
  · exact answers_run_of_isPlain hplain (hoperands c hc) hdepth (by show _ < 1 + _; omega)
  · refine .of_plain hplain (by omega) fun a ha b hab => ?_
    have hsubject' := hoperands subject (List.mem_of_head? hsubject)
    have hresolves := resolves_of_run hplain hsubject' (.inl (Nat.le_refl _)) hm
    obtain ⟨c, hc, hca⟩ := hresolves.exists_shows ha
    exact h subject hsubject c hc b (hca.trans hab)

end

/-- A recursive choice of objects: the bundle around it shows two names, and the bundles around these show none. -/
theorem structural_operators_end_tree :
    let context : Context := [("T", .union [.reference "L", .reference "R"]), ("L", .object [("left", .reference "T")]),
      ("R", .object [("right", .reference "T"), ("item", .string)])]
    let s : Setting := Operator.setting .allOptional {} context
    let n : Node := .allOptional (.reference "T")
    s.operator.opens = true ∧ s.Ends true (.reference "T") ∧ (∀ b, s.PacksAtOnce {} true b) ∧
      (reduceEager s [.reference "T"]).Answers true ∧ context.Plain ∧ (∀ a, ¬ TransGen context.LeadsTo a a) ∧
      (instantiate {} context n).Answers true := by
  intro context s n
  have hplain : context.Plain := .of_all (by decide +kernel)
  have hacyclic : ∀ a, ¬ TransGen context.LeadsTo a a :=
    Context.not_leadsTo_self (fun name => if name = "T" then 1 else 0) (by decide +kernel)
  have hends : s.Ends true (.reference "T") := .of_plain hplain (by decide) fun _ _ b _ => hacyclic b
  have hpacks : ∀ b, s.PacksAtOnce {} true b := by
    refine fun b target ht => ⟨not_startsAfresh_of_plain hplain ht, fun _ e hfailed => ?_⟩
    have hanswers : (packageDefinition s.evaluate context b target).Answers true :=
      answers_packageDefinition_of_plain hplain (show 512 < 512 + 19999 by decide) ht
    rw [show packageDefinition s.evaluate context b target = .failed e from hfailed] at hanswers
    exact hanswers rfl
  obtain ⟨-, hreduced, hinstantiated⟩ := @structural_operators_end .allOptional rfl true [.reference "T"]
  refine ⟨rfl, hends, hpacks, hreduced {} context (fun _ => rfl) fun _ hsubject b hb => ?_, hplain, hacyclic, ?_⟩
  · cases hsubject
    exact ⟨hends.acyclic b hb, hpacks b⟩
  · exact hinstantiated {} context n [] rfl hplain (by decide +kernel) (fun _ _ _ => rfl) fun _ _ _ _ b _ => hacyclic b

/-- **A union that mentions itself first is opened without end**, however many references are followed: the bundle
around it shows its own name.  With the variants in the other order the first of them fails. -/
theorem opened_without_end :
    let context : Context := [("U", .union [.reference "U", .string])]
    let swapped : Context := [("U", .union [.string, .reference "U"])]
    let n : Node := .allOptional (.reference "U")
    let s : Setting := Operator.setting .allOptional {} context
    instantiate {} context n = .exhausted ∧
      (∀ change follows, s.openWithin Node.unionOf (changeLeaf s change) follows (.reference "U") = .exhausted) ∧
      instantiate {} swapped n = .failed (.structuralMismatch .allOptional .objectType .string) := by
  intro context swapped n s
  refine ⟨by with_unfolding_all rfl, fun change => ?_, by with_unfolding_all rfl⟩
  exact Setting.openSubject_eq_exhausted_iff.1 (by with_unfolding_all rfl)

end Schemata
