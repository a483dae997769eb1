import Schemata.Proofs.Instantiation.Region
import Schemata.Proofs.Node.Bundles
import Schemata.Proofs.Reference.Chase
/-!
# A call is substitution

A call binds parameters one after the other, instantiates constraints and defaults on the way and the body in the end,
and instantiates once more what came out.  Where the generic applies and binds nothing, all of this is one substitution.

- `Node.fill`: values put in the place of references, all at once.
- `Binds`: what stands for the first parameters, each checked against its constraint.
- `Elementary`: a generic that applies and binds nothing, nor does anything that it reaches.

Main statement: `call_is_substitution`.
-/
namespace Schemata

open Relation (ReflTransGen)

/-! ## Filling references -/

namespace Node

/-- **Puts values in the place of references**, all at once and outside of bundles.  A value inherits the flags and
annotations of the reference. -/
def fill (value? : String → Option Node) (n : Node) : Node :=
  match n.kind with
  | .ref name =>
    match value? name with
    | some value => value.inherit n
    | none => n
  | .cyclic .. => n
  | _ => n.rebuild (n.kind.mapParts fun c _ => c.fill value?)
termination_by n.size
decreasing_by exact size_lt_of_mem_parts ‹_›

variable {region wider : String → Prop} {n : Node} {value? : String → Option Node}

theorem fill_of_ref {name : String} (hk : n.kind = .ref name) :
    n.fill value? = ((value? name).map fun value => value.inherit n).getD n := by
  rw [fill, hk]
  cases hv : value? name <;> simp [hv]

theorem fill_of_bundle {definitions : Fields Node} {root : String} (hk : n.kind = .cyclic definitions root) :
    n.fill value? = n := by
  rw [fill, hk]

theorem fill_of_isStructural (hs : n.kind.isStructural = true) :
    n.fill value? = n.rebuild (n.kind.map fun c => c.fill value?) := by
  rw [fill, ← Kind.mapParts_eq_map]
  cases hk : n.kind <;> rw [hk] at hs <;> first
    | rfl
    | cases hs

/-- **Substitution in a node that binds nothing** only looks names up. -/
theorem substitute_eq_fill (bindings : Fields Node) (h : n.isPlain = true) :
    n.substitute bindings = n.fill bindings.get? := by
  induction n using Node.induction_on_parts with
  | node n ih =>
    rcases isPlain_cases h with ⟨definitions, root, hk⟩ | ⟨name, hk⟩ | ⟨hstructural, hparts⟩
    · rw [fill_of_bundle hk, substitute_eq, hk]
    · rw [fill_of_ref hk, substitute_eq, hk]
      cases hg : bindings.get? name <;> simp [hg]
    · have hsub : n.substitute bindings = n.rebuild (n.kind.map (substitute bindings)) := by
        rw [substitute_eq]
        cases hk : n.kind <;> rw [hk] at hstructural <;> first
          | rfl
          | cases hstructural
      rw [hsub, fill_of_isStructural hstructural]
      exact congrArg n.rebuild (Kind.map_congr fun c hc => ih c hc (hparts c hc))

/-- **What is filled** refers to what the values refer to, and to names without a value. -/
theorem Inside.fill (h : n.Inside region) (hvalue : ∀ name v, value? name = some v → v.Inside wider)
    (hfree : ∀ name, region name → value? name = none → wider name) : (n.fill value?).Inside wider := by
  induction n using Node.induction_on_parts with
  | node n ih =>
    rcases isPlain_cases h.isPlain with ⟨definitions, root, hk⟩ | ⟨name, hk⟩ | ⟨hstructural, hparts⟩
    · rw [fill_of_bundle hk]
      exact ⟨.bundle hk, h.ordered⟩
    · rw [fill_of_ref hk]
      cases hv : value? name with
      | some v => exact (hvalue name v hv).inherit n
      | none =>
        have hname : region name := h.exposed name (by rw [exposed_eq, hk]; exact List.mem_singleton_self name)
        exact ⟨.reference hk (hfree name hname hv), h.ordered⟩
    · rw [fill_of_isStructural hstructural]
      refine h.rebuild (Kind.map_id n.kind).symm hstructural fun c hc => ?_
      exact ih c hc (h.part hstructural hc)

theorem inside_of_isConcrete (h : n.isConcrete = true) (ho : n.isOrdered = true) : n.Inside region :=
  inside_of_isPlain (isPlain_of_isConcrete h) ho fun x hx => by
    rw [references_of_isConcrete h] at hx
    cases hx

end Node

/-! ## Bindings -/

/-- What the first parameters are bound to. -/
def boundTo (parameters : List (Parameter Node)) (candidates : List Node) : Fields Node :=
  ((parameters.take candidates.length).map (·.name)).zip candidates

section
variable {parameters : List (Parameter Node)} {candidates : List Node} {p : Parameter Node} {name : String}

theorem names_boundTo (parameters : List (Parameter Node)) (candidates : List Node) :
    (boundTo parameters candidates).names = (parameters.take candidates.length).map (·.name) :=
  List.map_fst_zip (by simp)

theorem mem_of_get?_boundTo {v : Node} (h : (boundTo parameters candidates).get? name = some v) : v ∈ candidates :=
  (List.of_mem_zip (Fields.mem_of_get? h)).2

theorem not_mem_of_get?_boundTo (h : (boundTo parameters candidates).get? name = none) :
    name ∉ (parameters.take candidates.length).map (·.name) := by
  rw [← names_boundTo, Fields.mem_names_iff, Fields.has, h]
  simp

theorem take_succ_of_getElem? (hp : parameters[candidates.length]? = some p) :
    (parameters.take (candidates.length + 1)).map (·.name) =
      (parameters.take candidates.length).map (·.name) ++ [p.name] := by
  rw [List.take_add_one, hp, List.map_append]
  rfl

theorem boundTo_append (hp : parameters[candidates.length]? = some p) (candidate : Node) :
    boundTo parameters (candidates ++ [candidate]) = boundTo parameters candidates ++ [(p.name, candidate)] := by
  obtain ⟨hlt, -⟩ := List.getElem?_eq_some_iff.1 hp
  rw [boundTo, List.length_append, List.length_singleton, take_succ_of_getElem? hp, List.zip_append (by simp; omega)]
  rfl

/-- **Parameters with names of their own** are bound one after the other. -/
theorem insert_boundTo (hdistinct : (parameters.map (·.name)).Nodup) (hp : parameters[candidates.length]? = some p)
    (candidate : Node) :
    (boundTo parameters candidates).insert p.name candidate = boundTo parameters (candidates ++ [candidate]) := by
  rw [boundTo_append hp]
  refine Fields.insert_of_not_mem (fun hmem => ?_) candidate
  rw [names_boundTo] at hmem
  have hprefix : ((parameters.take (candidates.length + 1)).map (·.name)).Nodup :=
    hdistinct.sublist ((List.take_sublist _ _).map _)
  rw [take_succ_of_getElem? hp] at hprefix
  exact (List.nodup_append.1 hprefix).2.2 p.name hmem p.name (List.mem_singleton_self p.name) rfl

end

/-! ## Binding as a relation -/

/-- **A candidate that violates a constraint**: both are concrete, and the candidate does not extend the constraint. -/
def Violates (candidate constraint : Node) : Prop :=
  candidate.isConcrete = true ∧ constraint.isConcrete = true ∧ candidate.fits constraint = false

theorem violates_iff {candidate constraint : Node} :
    Violates candidate constraint ↔ (candidate.isConcrete && constraint.isConcrete && !candidate.fits constraint) = true := by
  simp [Violates, and_assoc]

section
variable (limits : Limits) (context : Context) (parameters : List (Parameter Node)) (arguments : List Node)

/-- The context without the names of the parameters, where constraints and defaults are instantiated. -/
def parameterScope : Context := Fields.without context (parameters.map (·.name))

/-- **What the next parameter is checked for**: its argument, or its default where that is missing, against its
constraint.  Both are instantiated with the earlier candidates in the place of their parameters. -/
structure Checked (earlier : List Node) (p : Parameter Node) (candidate constraint : Node) : Prop where
  next : parameters[earlier.length]? = some p
  constrained : instantiate limits (parameterScope context parameters)
    (p.constraint.fill (boundTo parameters earlier).get?) = .done constraint
  supplied : match arguments[earlier.length]? with
    | some argument => candidate = argument
    | none => instantiate limits (parameterScope context parameters)
        (p.default.fill (boundTo parameters earlier).get?) = .done candidate

/-- **The candidates of the first parameters**, from left to right, none of which violates its constraint. -/
inductive Binds : List Node → Prop
  | nil : Binds []
  | next {earlier : List Node} {p : Parameter Node} {candidate constraint : Node} (before : Binds earlier)
    (checked : Checked limits context parameters arguments earlier p candidate constraint)
    (fits : ¬ Violates candidate constraint) : Binds (earlier ++ [candidate])

/-- **How binding ends**: with a candidate for every parameter, or with the first violation. -/
inductive BindingEnds : Outcome (Fields Node) → Prop
  | bound {candidates : List Node} (binds : Binds limits context parameters arguments candidates)
    (all : candidates.length = parameters.length) : BindingEnds (.done (boundTo parameters candidates))
  | violated {earlier : List Node} {p : Parameter Node} {candidate constraint : Node}
    (before : Binds limits context parameters arguments earlier)
    (checked : Checked limits context parameters arguments earlier p candidate constraint)
    (violates : Violates candidate constraint) :
    BindingEnds (.failed (.constraintViolation p.name constraint candidate))

end

/-! ## Generics that apply and bind nothing -/

/-- A definition refers to a name. -/
def Context.Refers (context : Context) (name next : String) : Prop :=
  ∃ n, context.get? name = some n ∧ next ∈ n.references

/-- **What a generic mentions** of the context: a default may refer to later parameters, and these are none there. -/
inductive Mentions (parameters : List (Parameter Node)) (body : Node) (name : String) : Prop
  | body (mentioned : name ∈ body.references) (free : name ∉ parameters.map (·.name))
  | constraint {p : Parameter Node} (parameter : p ∈ parameters) (mentioned : name ∈ p.constraint.references)
    (free : name ∉ parameters.map (·.name))
  | default {k : Nat} {p : Parameter Node} (parameter : parameters[k]? = some p) (mentioned : name ∈ p.default.references)
    (free : name ∉ (parameters.take k).map (·.name))

/-- **What a generic reaches**, through the definitions that it mentions. -/
def Reaches (context : Context) (parameters : List (Parameter Node)) (body : Node) (name : String) : Prop :=
  ∃ start, Mentions parameters body start ∧ ReflTransGen context.Refers start name

/-- **A generic that applies and binds nothing**, nor does what it reaches, where no name is the key of a call. -/
structure Elementary (context : Context) (parameters : List (Parameter Node)) (body : Node) (key : String) : Prop where
  distinct : (parameters.map (·.name)).Nodup
  parts : ∀ c ∈ (Kind.generic parameters body).parts, c.isPlain = true ∧ c.isOrdered = true
  reached : ∀ name n, Reaches context parameters body name → context.get? name = some n →
    n.isPlain = true ∧ n.isOrdered = true
  unkeyed : ¬ Reaches context parameters body key

namespace Elementary

variable {context : Context} {parameters : List (Parameter Node)} {body : Node} {key : String}
  (h : Elementary context parameters body key)
include h

theorem region : context.Region (Reaches context parameters body) := by
  intro name n hr hn
  obtain ⟨hplain, hordered⟩ := h.reached name n hr hn
  obtain ⟨start, hstart, hpath⟩ := hr
  exact Node.inside_of_isPlain hplain hordered fun next hnext => ⟨start, hstart, hpath.tail ⟨n, hn, hnext⟩⟩

theorem scope_region : (parameterScope context parameters).Region (Reaches context parameters body) :=
  h.region.mono fun name n _ hn => by
    rw [parameterScope, Fields.get?_without] at hn
    split at hn
    · cases hn
    · exact hn

/-- Parameters are not bound in the scope of the constraints, so they may be referred to there. -/
theorem constraint_region : (parameterScope context parameters).Region
    fun name => Reaches context parameters body name ∨ name ∈ parameters.map (·.name) := by
  intro name n hr hn
  refine (h.scope_region name n (hr.resolve_right fun hmem => ?_) hn).mono fun _ => .inl
  rw [parameterScope, Fields.get?_without, if_pos hmem] at hn
  cases hn

theorem parameter {p : Parameter Node} (hp : p ∈ parameters) {c : Node} (hc : c ∈ p.parts) :
    c.isPlain = true ∧ c.isOrdered = true :=
  h.parts c (List.mem_append_left _ (List.mem_flatMap.2 ⟨p, hp, hc⟩))

theorem body_inside {candidates : List Node} (hlength : candidates.length = parameters.length)
    (hvalues : ∀ v ∈ candidates, v.Inside (Reaches context parameters body)) :
    (body.fill (boundTo parameters candidates).get?).Inside (Reaches context parameters body) := by
  obtain ⟨hplain, hordered⟩ := h.parts body (by simp [Kind.parts])
  have hbody : body.Inside (· ∈ body.references) := Node.inside_of_isPlain hplain hordered fun _ hx => hx
  refine hbody.fill (fun _ v hv => hvalues v (mem_of_get?_boundTo hv)) fun name hname hfree => ?_
  refine ⟨name, .body hname ?_, .refl⟩
  simpa [hlength] using not_mem_of_get?_boundTo hfree

variable {earlier : List Node} {p : Parameter Node} (hp : parameters[earlier.length]? = some p)
  (hvalues : ∀ v ∈ earlier, v.Inside (Reaches context parameters body))
include hp hvalues

theorem default_inside :
    (p.default.fill (boundTo parameters earlier).get?).Inside (Reaches context parameters body) := by
  obtain ⟨hplain, hordered⟩ := h.parameter (List.mem_of_getElem? hp) (c := p.default) (by simp [Parameter.parts])
  have hdefault : p.default.Inside (· ∈ p.default.references) := Node.inside_of_isPlain hplain hordered fun _ hx => hx
  refine hdefault.fill (fun _ v hv => hvalues v (mem_of_get?_boundTo hv)) fun name hname hfree => ?_
  exact ⟨name, .default hp hname (not_mem_of_get?_boundTo hfree), .refl⟩

theorem constraint_inside : (p.constraint.fill (boundTo parameters earlier).get?).Inside
    fun name => Reaches context parameters body name ∨ name ∈ parameters.map (·.name) := by
  have hmem := List.mem_of_getElem? hp
  obtain ⟨hplain, hordered⟩ := h.parameter hmem (c := p.constraint) (by simp [Parameter.parts])
  have hconstraint : p.constraint.Inside (· ∈ p.constraint.references) :=
    Node.inside_of_isPlain hplain hordered fun _ hx => hx
  refine hconstraint.fill (fun _ v hv => (hvalues v (mem_of_get?_boundTo hv)).mono fun _ => .inl) fun name hname _ => ?_
  by_cases hfree : name ∈ parameters.map (·.name)
  · exact .inr hfree
  · exact .inl ⟨name, .constraint hmem hname hfree, .refl⟩

end Elementary

/-- **Names that hold what a generic mentions**, and what their definitions refer to, hold all that it reaches. -/
theorem elementary_of_closed {context : Context} {parameters : List (Parameter Node)} {body : Node} {key : String}
    (names : List String) (hdistinct : (parameters.map (·.name)).Nodup)
    (hparts : ∀ c ∈ (Kind.generic parameters body).parts, c.isPlain = true ∧ c.isOrdered = true)
    (hmentions : ∀ name, Mentions parameters body name → name ∈ names)
    (hdefinitions : ∀ e ∈ context, e.1 ∈ names →
      e.2.isPlain = true ∧ e.2.isOrdered = true ∧ ∀ next ∈ e.2.references, next ∈ names)
    (hkey : key ∉ names) : Elementary context parameters body key := by
  have hreaches : ∀ name, Reaches context parameters body name → name ∈ names := by
    rintro name ⟨start, hstart, hpath⟩
    induction hpath with
    | refl => exact hmentions start hstart
    | @tail name next _ hrefers ih =>
      obtain ⟨n, hn, hnext⟩ := hrefers
      exact (hdefinitions (name, n) (Fields.mem_of_get? hn) ih).2.2 next hnext
  refine ⟨hdistinct, hparts, fun name n hr hn => ?_, fun hr => hkey (hreaches key hr)⟩
  obtain ⟨hplain, hordered, -⟩ := hdefinitions (name, n) (Fields.mem_of_get? hn) (hreaches name hr)
  exact ⟨hplain, hordered⟩

/-! ## Binding -/

section
variable {limits : Limits} {context : Context} {parameters : List (Parameter Node)} {arguments : List Node}
  {body : Node} {key : String}

theorem Binds.length_le {candidates : List Node} (hb : Binds limits context parameters arguments candidates) :
    candidates.length ≤ parameters.length := by
  cases hb with
  | nil => exact Nat.zero_le _
  | next _ checked _ =>
    obtain ⟨hlt, -⟩ := List.getElem?_eq_some_iff.1 checked.next
    rw [List.length_append, List.length_singleton]
    exact hlt

/-- What is instantiated inside of a region with less room comes out with all room as well. -/
theorem instantiate_of_run {region : String → Prop} (h : context.Region region) {n m : Node} (hn : n.Inside region)
    {fuel : Nat} {s : State} (hfuel : fuel ≤ ampleFuel limits) (hrun : run limits fuel context s n = .done m) :
    instantiate limits context n = .done m :=
  ((run_of_run_inside h hn hrun).2 (ampleFuel limits) .initial hfuel (Nat.zero_le _)).1

variable (h : Elementary context parameters body key)
  (harguments : ∀ a ∈ arguments, a.isConcrete = true ∧ a.isOrdered = true)
include h harguments

/-- **Candidates refer to what the generic reaches.** -/
theorem Binds.inside {candidates : List Node} (hb : Binds limits context parameters arguments candidates) :
    ∀ v ∈ candidates, v.Inside (Reaches context parameters body) := by
  induction hb with
  | nil => exact fun v hv => absurd hv List.not_mem_nil
  | @next earlier p candidate constraint before checked _ ih =>
    have hcandidate : candidate.Inside (Reaches context parameters body) := by
      have hsupplied := checked.supplied
      split at hsupplied
      · rename_i argument ha
        obtain ⟨hconcrete, hordered⟩ := harguments argument (List.mem_of_getElem? ha)
        exact hsupplied ▸ Node.inside_of_isConcrete hconcrete hordered
      · exact (run_of_run_inside h.scope_region (h.default_inside checked.next ih) hsupplied).1
    intro v hv
    rcases List.mem_append.1 hv with hv | hv
    · exact ih v hv
    · rwa [List.mem_singleton.1 hv]

/-- **Parameters are bound as the relation says**, unless a limit is met; by induction on the parameters that are left. -/
theorem bindingEnds_of_bindParameters {fuel : Nat} (hfuel : fuel ≤ ampleFuel limits) {s : State}
    {outcome : Outcome (Fields Node)} (hcut : outcome.cutShort = false) {earlier : List Node}
    {left : List (Parameter Node)} (hb : Binds limits context parameters arguments earlier)
    (hleft : parameters.drop earlier.length = left)
    (ho : bindParameters (run limits fuel) (parameterScope context parameters) s (boundTo parameters earlier) left
      (arguments.drop earlier.length) = outcome) :
    BindingEnds limits context parameters arguments outcome := by
  induction left generalizing earlier with
  | nil =>
    cases ho
    exact .bound hb (hb.length_le.antisymm (List.drop_eq_nil_iff.1 hleft))
  | cons p left ih =>
    have hnext : parameters[earlier.length]? = some p := by
      rw [← List.head?_drop, hleft]
      rfl
    have hrest : parameters.drop (earlier.length + 1) = left := by
      rw [← List.tail_drop, hleft]
      rfl
    have hvalues := hb.inside h harguments
    -- The argument, or the default in its place, is checked and bound alike.
    have hcheck : ∀ candidate constraint,
        Checked limits context parameters arguments earlier p candidate constraint →
        (if candidate.isConcrete && constraint.isConcrete && !candidate.fits constraint then
          .failed (.constraintViolation p.name constraint candidate)
        else bindParameters (run limits fuel) (parameterScope context parameters) s
          ((boundTo parameters earlier).insert p.name candidate) left (arguments.drop earlier.length).tail) = outcome →
        BindingEnds limits context parameters arguments outcome := by
      intro candidate constraint hchecked ho
      by_cases hv : Violates candidate constraint
      · rw [if_pos (violates_iff.1 hv)] at ho
        exact ho ▸ .violated hb hchecked hv
      · rw [if_neg (mt violates_iff.2 hv), insert_boundTo h.distinct hnext, List.tail_drop] at ho
        have hlength : (earlier ++ [candidate]).length = earlier.length + 1 := by simp
        exact ih (hb.next hchecked hv) (by rwa [hlength]) (by rwa [hlength])
    have hmem := List.mem_of_getElem? hnext
    rw [bindParameters, Node.substitute_eq_fill _ (h.parameter hmem (by simp [Parameter.parts])).1,
      Node.substitute_eq_fill _ (h.parameter hmem (by simp [Parameter.parts])).1] at ho
    have hconstraint := h.constraint_inside hnext hvalues
    rcases run_inside h.constraint_region hconstraint limits fuel s with ⟨constraint, hrun⟩ | hlimit
    · have hconstrained := instantiate_of_run h.constraint_region hconstraint hfuel hrun
      rw [hrun, Outcome.done_bind] at ho
      cases ha : arguments[earlier.length]? with
      | some argument =>
        have hdrop : arguments.drop earlier.length = argument :: (arguments.drop earlier.length).tail := by
          rw [← List.head?_drop] at ha
          exact (List.cons_head?_tail ha).symm
        rw [hdrop] at ho
        exact hcheck argument constraint ⟨hnext, hconstrained, by rw [ha]⟩ ho
      | none =>
        have hdrop : arguments.drop earlier.length = [] := List.drop_eq_nil_iff.2 (List.getElem?_eq_none_iff.1 ha)
        rw [hdrop] at ho hcheck
        have hdefault := h.default_inside hnext hvalues
        rcases run_inside h.scope_region hdefault limits fuel s with ⟨candidate, hrun⟩ | hlimit
        · have hsupplied := instantiate_of_run h.scope_region hdefault hfuel hrun
          rw [hrun] at ho
          exact hcheck candidate constraint ⟨hnext, hconstrained, by rwa [ha]⟩ ho
        · exact absurd (ho ▸ Outcome.cutShort_bind hlimit) (Bool.eq_false_iff.1 hcut)
    · exact absurd (ho ▸ Outcome.cutShort_bind hlimit) (Bool.eq_false_iff.1 hcut)

end

/-! ## Expansion -/

theorem Outcome.mapM_done_or_cutShort {α β : Type} {f : α → Outcome β} {g : α → β} {xs : List α}
    (h : ∀ x ∈ xs, f x = .done (g x) ∨ (f x).cutShort = true) :
    xs.mapM f = .done (xs.map g) ∨ (xs.mapM f).cutShort = true := by
  induction xs with
  | nil => exact .inl rfl
  | cons x xs ih =>
    rw [List.forall_mem_cons] at h
    rw [List.mapM_cons]
    rcases h.1 with hx | hx
    · rw [hx, Outcome.done_bind]
      rcases ih h.2 with hxs | hxs
      · exact .inl (by rw [hxs]; rfl)
      · exact .inr (Outcome.cutShort_bind hxs)
    · exact .inr (Outcome.cutShort_bind hx)

/-- A call is entered at the depth where it stands, unless the limit on calls is met. -/
theorem State.enter_done_or_cutShort (s : State) (limits : Limits) (name : String) (arguments : List Node) :
    (∃ inner, s.enter limits name arguments = .done inner ∧ inner.depth = s.depth) ∨
      (s.enter limits name arguments).cutShort = true := by
  cases he : s.enter limits name arguments with
  | done inner =>
    obtain ⟨frames, -, rfl⟩ := eq_of_enter he
    exact .inl ⟨_, rfl, rfl⟩
  | exhausted => exact .inr rfl
  | failed e =>
    rw [enter, push] at he
    dsimp only at he
    split at he
    · cases he
    · split at he
      · cases he
        exact .inr rfl
      · cases he

section
variable {limits : Limits} {context : Context} {name : String} {parameters : List (Parameter Node)}
  {arguments candidates : List Node} {body : Node} {s : State}

theorem packaged_of_inside {region : String → Prop} {key : String} {expanded : Node} (h : expanded.Inside region)
    (hkey : ¬ region key) : packaged key expanded = expanded := by
  rw [packaged, if_neg]
  rw [List.contains_iff_mem]
  exact fun hmem => hkey (h.refers.mem_region key hmem)

/-- Outside of all calls no expansion is repeated. -/
theorem expandGeneric_of_frames (hframes : s.frames = []) (evaluate : Evaluator) :
    expandGeneric limits evaluate context s name parameters body arguments = (do
      let bindings ← bindParameters evaluate (parameterScope context parameters) s [] parameters arguments
      let inner ← s.enter limits name arguments
      let expanded ← evaluate context inner (body.substitute bindings)
      evaluate context s (packaged (expansionName name arguments) expanded)) := by
  have hnew : (name != anonymous && s.isExpanding name arguments) = false := by
    rw [State.isExpanding, hframes, List.any_nil, Bool.and_false]
  rw [expandGeneric, hnew, expansion, ← parameterScope]
  simp only [Bool.false_eq_true, if_false, bind_assoc]

theorem callee_of_generic {target g : Node} (htarget : target.kind = .ref name) (hbound : context.get? name = some g)
    (hg : g.kind = .generic parameters body) (evaluate : Evaluator) :
    callee evaluate context s target = .done (.generic name parameters body) := by
  rw [callee, htarget]
  simp only [chase_of_generic hbound hg]
  rfl

variable (h : Elementary context parameters body (expansionName name arguments))
  (harguments : ∀ a ∈ arguments, a.isConcrete = true ∧ a.isOrdered = true) {fuel : Nat}
  (hfuel : fuel ≤ ampleFuel limits) {outcome : Outcome Node} (hcut : outcome.cutShort = false)
include h harguments hfuel hcut

/-- **With its parameters bound, a generic expands to its body** with the candidates filled in. -/
theorem expansion_of_binds (hb : Binds limits context parameters arguments candidates)
    (hlength : candidates.length = parameters.length)
    (ho : (do
      let inner ← s.enter limits name arguments
      let expanded ← run limits fuel context inner (body.substitute (boundTo parameters candidates))
      run limits fuel context s (packaged (expansionName name arguments) expanded)) = outcome) :
    ∃ r, instantiate limits context (body.fill (boundTo parameters candidates).get?) = .done r ∧ outcome = .done r := by
  have hnot : outcome.cutShort ≠ true := Bool.eq_false_iff.1 hcut
  rcases s.enter_done_or_cutShort limits name arguments with ⟨inner, henter, hdepth⟩ | hlimit
  · rw [henter, Outcome.done_bind, Node.substitute_eq_fill _ (h.parts body (by simp [Kind.parts])).1] at ho
    have hbody := h.body_inside hlength (hb.inside h harguments)
    rcases run_inside h.region hbody limits fuel inner with ⟨r, hrun⟩ | hlimit
    · obtain ⟨hr, hagain⟩ := run_of_run_inside h.region hbody hrun
      -- The result does not refer to the key, and instantiating it once more changes nothing.
      rw [hrun, Outcome.done_bind, packaged_of_inside hr h.unkeyed, (hagain fuel s le_rfl hdepth.ge).2] at ho
      exact ⟨r, instantiate_of_run h.region hbody hfuel hrun, ho.symm⟩
    · exact absurd (ho ▸ Outcome.cutShort_bind hlimit) hnot
  · exact absurd (ho ▸ Outcome.cutShort_bind hlimit) hnot

/-- **A call outside of all calls and generics**, with ample fuel. -/
theorem call_of_elementary {target g : Node} (htarget : target.kind = .ref name) (hbound : context.get? name = some g)
    (hg : g.kind = .generic parameters body) (hframes : s.frames = []) (hdeclared : s.declared = [])
    (hdepth : s.depth ≤ limits.maxDepth) (hample : limits.maxDepth < s.depth + fuel)
    (ho : call limits (run limits fuel) context s target arguments = outcome) :
    (∃ candidates r, Binds limits context parameters arguments candidates ∧ candidates.length = parameters.length ∧
        instantiate limits context (body.fill (boundTo parameters candidates).get?) = .done r ∧ outcome = .done r) ∨
      ∃ candidates p candidate constraint, Binds limits context parameters arguments candidates ∧
        Checked limits context parameters arguments candidates p candidate constraint ∧ Violates candidate constraint ∧
        outcome = .failed (.constraintViolation p.name constraint candidate) := by
  have hnot : outcome.cutShort ≠ true := Bool.eq_false_iff.1 hcut
  have heach : ∀ a ∈ arguments, run limits fuel context s a = .done (id a) ∨
      (run limits fuel context s a).cutShort = true := fun a ha => by
    rw [run_of_isConcrete (harguments a ha).1 hdepth hample]
    split
    · exact .inl rfl
    · exact .inr rfl
  rcases Outcome.mapM_done_or_cutShort heach with hdone | hlimit
  · have hclosed : arguments.any s.dependsOnDeclared = false := by simp [State.dependsOnDeclared, hdeclared]
    have hcallee := callee_of_generic (s := s) htarget hbound hg (run limits fuel)
    rw [call, hdone, List.map_id, Outcome.done_bind, hclosed, hcallee] at ho
    simp only [Bool.false_eq_true, if_false, Outcome.done_bind] at ho
    rw [expandGeneric_of_frames hframes] at ho
    generalize hbind : bindParameters (run limits fuel) (parameterScope context parameters) s [] parameters arguments = b
      at ho
    cases hlimit : b.cutShort with
    | true => exact absurd (ho ▸ Outcome.cutShort_bind hlimit) hnot
    | false =>
      cases bindingEnds_of_bindParameters h harguments hfuel hlimit .nil rfl hbind with
      | @bound candidates binds all =>
        obtain ⟨r, hr, hdone⟩ := expansion_of_binds h harguments hfuel hcut binds all ho
        exact .inl ⟨candidates, r, binds, all, hr, hdone⟩
      | @violated earlier p candidate constraint before checked violates =>
        exact .inr ⟨earlier, p, candidate, constraint, before, checked, violates, ho.symm⟩
  · exact absurd (ho ▸ Outcome.cutShort_bind hlimit) hnot

end

/-- **A call is substitution.**  A call of an elementary generic with concrete arguments that meets no limit gives what the
body gives with the candidates filled in, and inherits the flags and annotations of the call; or it reports the first
parameter whose candidate violates its constraint. -/
theorem call_is_substitution {limits : Limits} {context : Context} {n target g body : Node} {name : String}
    {parameters : List (Parameter Node)} {arguments : List Node} (hn : n.kind = .call target arguments)
    (htarget : target.kind = .ref name) (hbound : context.get? name = some g) (hg : g.kind = .generic parameters body)
    (h : Elementary context parameters body (expansionName name arguments))
    (harguments : ∀ a ∈ arguments, a.isConcrete = true ∧ a.isOrdered = true)
    (hcut : (instantiate limits context n).cutShort = false) :
    (∃ candidates r, Binds limits context parameters arguments candidates ∧ candidates.length = parameters.length ∧
        instantiate limits context (body.fill (boundTo parameters candidates).get?) = .done r ∧
        instantiate limits context n = .done (r.inherit n)) ∨
      ∃ candidates p candidate constraint, Binds limits context parameters arguments candidates ∧
        Checked limits context parameters arguments candidates p candidate constraint ∧ Violates candidate constraint ∧
        instantiate limits context n = .failed (.constraintViolation p.name constraint candidate) := by
  obtain ⟨fuel, hfuel⟩ : ∃ fuel, ampleFuel limits = fuel + 1 := ⟨limits.maxDepth + 19999, rfl⟩
  have hrun : instantiate limits context n = run limits (fuel + 1) context .initial n := by rw [← hfuel]; rfl
  by_cases hdeep : limits.maxDepth ≤ 0
  · rw [hrun, show run limits (fuel + 1) context .initial n = _ from run_too_deep (p := ⟨context, .initial, n⟩) hdeep fuel]
      at hcut
    cases hcut
  · let t : State := { depth := 1 }
    have hd : State.initial.descend limits = .done t := by
      rw [State.descend, State.initial, if_neg hdeep]
    rw [run_of_descend hd, step_of_call hn] at hrun
    generalize hcall : call limits (run limits fuel) context t target arguments = outcome at hrun
    have houtcome : outcome.cutShort = false := by
      rw [Bool.eq_false_iff]
      intro hlimit
      rw [hrun, Outcome.cutShort_bind hlimit] at hcut
      cases hcut
    have hample : limits.maxDepth < t.depth + fuel := by
      rw [ampleFuel] at hfuel
      show limits.maxDepth < 1 + fuel
      omega
    have hends := call_of_elementary h harguments (by omega) houtcome htarget hbound hg rfl rfl
      (show t.depth ≤ limits.maxDepth by show 1 ≤ limits.maxDepth; omega) hample hcall
    rcases hends with ⟨candidates, r, hb, hlength, hr, rfl⟩ | ⟨candidates, p, candidate, constraint, hb, hc, hv, rfl⟩
    · exact .inl ⟨candidates, r, hb, hlength, hr, hrun⟩
    · exact .inr ⟨candidates, p, candidate, constraint, hb, hc, hv, hrun⟩

namespace Pair

def parameters : List (Parameter Node) :=
  [.bounded "A" .string, .withDefault "B" (.array .unknown) (.array (.union [.reference "A", .reference "Item"]))]

def body : Node := .object [("first", ⟨.ref "A", ⟨true, false⟩, [("use", .null)]⟩), ("second", .reference "B")]

def context : Context :=
  [("Pair", .generic parameters body), ("Item", .tuple [.reference "A", .number]), ("A", .boolean)]

def node : Node := ⟨.call (.reference "Pair") [.text "x"], ⟨false, true⟩, [("call", .boolean true)]⟩

/-- The parameter and the definition of one name are kept apart. -/
def result : Node :=
  ⟨.object [("first", ⟨.literal (.string "x"), ⟨true, false⟩, [("use", .null)]⟩),
    ("second", .array (.union [.text "x", .tuple [.boolean, .number]]))], ⟨false, true⟩, [("call", .boolean true)]⟩

theorem elementary : Elementary context parameters body (expansionName "Pair" [.text "x"]) := by
  refine elementary_of_closed ["A", "Item"] (by decide +kernel) (by decide +kernel) ?_ (by decide +kernel) (by decide +kernel)
  intro name hm
  cases hm with
  | body mentioned free =>
    have hbody : ∀ x ∈ body.references, x ∉ parameters.map (·.name) → x ∈ ["A", "Item"] := by decide +kernel
    exact hbody name mentioned free
  | constraint parameter mentioned free =>
    have hconstraints : ∀ p ∈ parameters, ∀ x ∈ p.constraint.references, x ∈ ["A", "Item"] := by decide +kernel
    exact hconstraints _ parameter name mentioned
  | @default k p parameter mentioned free =>
    have hdefaults : ∀ k < 2, ∀ p ∈ parameters[k]?, ∀ x ∈ p.default.references,
        x ∉ (parameters.take k).map (·.name) → x ∈ ["A", "Item"] := by decide +kernel
    exact hdefaults k (List.getElem?_eq_some_iff.1 parameter).1 p parameter name mentioned free

end Pair

/-- A default that refers to an earlier parameter and, through a definition, to a name that the parameter hides. -/
theorem call_is_substitution_pair :
    Elementary Pair.context Pair.parameters Pair.body (expansionName "Pair" [.text "x"]) ∧
      (∀ a ∈ [Node.text "x"], a.isConcrete = true ∧ a.isOrdered = true) ∧
      (instantiate {} Pair.context Pair.node).cutShort = false ∧
      instantiate {} Pair.context Pair.node = .done Pair.result ∧
      ∃ candidates r, Binds {} Pair.context Pair.parameters [.text "x"] candidates ∧
        candidates.length = Pair.parameters.length ∧
        instantiate {} Pair.context (Pair.body.fill (boundTo Pair.parameters candidates).get?) = .done r ∧
        Pair.result = r.inherit Pair.node := by
  have harguments : ∀ a ∈ [Node.text "x"], a.isConcrete = true ∧ a.isOrdered = true := by decide +kernel
  have hcut : (instantiate {} Pair.context Pair.node).cutShort = false := by decide +kernel
  have hresult : instantiate {} Pair.context Pair.node = .done Pair.result := by with_unfolding_all rfl
  refine ⟨Pair.elementary, harguments, hcut, hresult, ?_⟩
  rcases call_is_substitution rfl rfl rfl rfl Pair.elementary harguments hcut with
    ⟨candidates, r, hb, hlength, hr, hdone⟩ | ⟨_, _, _, _, -, -, -, hfailed⟩
  · exact ⟨candidates, r, hb, hlength, hr, Outcome.done.inj (hresult.symm.trans hdone)⟩
  · cases hresult.symm.trans hfailed

/-- A constraint sees the candidate of an earlier parameter. -/
example : instantiate {} [("F", .generic [.free "A", .bounded "B" (.array (.reference "A"))] (.reference "B"))]
    (.call (.reference "F") [.number, .array .string]) =
      .failed (.constraintViolation "B" (.array .number) (.array .string)) := by with_unfolding_all rfl

end Schemata
