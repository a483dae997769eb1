import Schemata.Proofs.Instantiation.Dangling
import Schemata.Proofs.Module.Assembly
import Schemata.Proofs.Node.Expandable
import Schemata.Proofs.Reference.Chase
import Schemata.Proofs.Reference.Reachability
/-!
# Concrete modules

In a module without operators and bundles every name is bound, and generics are there to be called.  Instantiated as a
whole it should have nothing left to instantiate.

- `Context.isModular`: a context of this form.
- `Obstructed limits context name`: what keeps the definition of a name from becoming concrete.
- `Pending reach allowed n` is what a run is given, `Settled reach allowed scope n` what it gives: of what the definition
  reaches nothing is left but cycles, and names that are allowed.

Main statement: `concrete_of_module`, a definition is concrete in the output, or it is obstructed.
-/
namespace Schemata

open Planned Node

/-! ## Modules -/

/-- **Whether a name is bound**, to a generic or to something else. -/
def Context.binds (context : Context) (generic : Bool) (name : String) : Bool :=
  (context.get? name).any fun n => n.kind.isGeneric == generic

/-- Whether a target is the name of a generic, which is not hidden. -/
def Node.isCallable (context : Context) (hidden : List String) (target : Node) : Bool :=
  match target.kind with
  | .ref name => !hidden.contains name && context.binds true name
  | _ => false

/-- **Whether a node can be part of a module**: no deferred operator, no bundle and no parameter by itself; references are
hidden or bound to something else than generics, and generics are called by their names. -/
def Node.isModular (context : Context) (hidden : List String) (n : Node) : Bool :=
  match _h : n.kind with
  | .deferred .. | .cyclic .. | .parameter _ => false
  | .ref name => hidden.contains name || context.binds false name
  | .call target arguments =>
    target.isCallable context hidden && arguments.attach.all fun ⟨c, _⟩ => c.isModular context hidden
  | _ => n.kind.parts.attach.all fun ⟨c, _⟩ => c.isModular context (hidden ++ n.kind.declared)
termination_by n.size
decreasing_by
  · exact size_lt_of_mem_parts (by rw [_h]; exact List.mem_cons_of_mem _ ‹_›)
  · exact size_lt_of_mem_parts ‹_›

theorem isModular_eq (context : Context) (hidden : List String) (n : Node) : n.isModular context hidden =
    match n.kind with
    | .deferred .. | .cyclic .. | .parameter _ => false
    | .ref name => hidden.contains name || context.binds false name
    | .call target arguments => target.isCallable context hidden && arguments.all (Node.isModular context hidden)
    | _ => n.kind.parts.all (Node.isModular context (hidden ++ n.kind.declared)) := by
  rw [Node.isModular]
  split <;> simp_all

/-- **Whether all definitions of a context can be part of a module.** -/
def Context.isModular (context : Context) : Bool := context.all fun e => e.2.isModular context []

theorem isModular_of_get? {context : Context} (h : context.isModular = true) {name : String} {n : Node}
    (hn : context.get? name = some n) : n.isModular context [] = true :=
  List.all_eq_true.1 h _ (Fields.mem_of_get? hn)

def Node.isFlat (n : Node) : Bool := n.everywhere fun kind => !kind.isGeneric

/-- **A part of a module is a node to expand**, where no generic stands in it. -/
theorem expandable_of_isModular {context : Context} {hidden : List String} {n : Node}
    (h : n.isModular context hidden = true) (hflat : n.isFlat = true) :
    n.Expandable (fun x => x ∈ hidden ∨ context.binds false x = true)
      (fun x => x ∉ hidden ∧ context.binds true x = true) := by
  induction n using Node.induction_on_parts with
  | node n ih =>
    obtain ⟨hform, hparts⟩ := everywhere_iff.1 hflat
    rw [isModular_eq] at h
    cases hk : n.kind with
    | deferred | cyclic | parameter =>
      rw [hk] at h
      cases h
    | generic =>
      rw [hk] at hform
      cases hform
    | ref name =>
      rw [hk] at h
      refine .reference hk ?_
      simpa using h
    | call target arguments =>
      rw [hk] at h hparts ih
      obtain ⟨htarget, harguments⟩ := Bool.and_eq_true_iff.1 h
      unfold Node.isCallable at htarget
      split at htarget
      · rename_i name hname
        refine .call hk hname (by simpa using htarget) fun a ha => ?_
        have hpart := List.mem_cons_of_mem target ha
        exact ih a hpart (List.all_eq_true.1 harguments a ha) (hparts a hpart)
      · cases htarget
    | _ =>
      refine .plain (by rw [hk]; rfl) (by rw [hk]; rfl) fun c hc => ?_
      refine ih c hc ?_ (hparts c hc)
      rw [hk] at h hc
      simp only [Kind.declared, List.append_nil] at h
      exact List.all_eq_true.1 h c hc

/-! ## What keeps a definition from becoming concrete -/

/-- **Whether defaults refer to earlier parameters only.** -/
def inOrder : List (Parameter Node) → Bool
  | [] => true
  | p :: ps => p.default.references.all (fun x => !((p :: ps).map (·.name)).contains x) && inOrder ps

/-- **A call is misread**: it repeats a call whose arguments are equal but displayed otherwise, and refers back to a name
that no call in progress has. -/
structure GenericCall.Misread (s : State) (c : GenericCall) : Prop where
  named : c.name ≠ anonymous
  repeats : s.isExpanding c.name c.arguments = true
  unlike : ∀ frame ∈ s.frames, frame.key ≠ c.key

/-- **A name is misread** when it is that of a call that is, in the run of a query. -/
def Misreads (limits : Limits) (query : Query) (x : String) : Prop :=
  ∃ k p fuel s c, Nested limits query k p ∧ Calls limits (run limits fuel) p s c ∧ c.Misread s ∧ x = c.key

/-- What the definition of a name refers to, directly or not, in the bodies of generics too. -/
def Context.reach (context : Context) (name : String) : List String := (ReferenceGraph.ofContext context).closure name

/-- **What keeps the definition of a name from becoming concrete.** -/
inductive Obstructed (limits : Limits) (context : Context) (name : String) : Prop
  /-- It reaches a cyclic definition through a generic: by itself it is not cyclic. -/
  | cycle {x : String} (acyclic : isCyclic context name = false) (reached : x ∈ context.reach name)
      (cyclic : isCyclic context x = true)
  /-- It reaches a definition with a generic inside. -/
  | inner {x : String} {n c : Node} (reached : x ∈ context.reach name) (bound : context.get? x = some n)
      (part : c ∈ n.kind.parts) (generic : c.isFlat = false)
  /-- It reaches a generic with a default that refers to its own or to a later parameter. -/
  | default {x : String} {n : Node} {parameters : List (Parameter Node)} {body : Node} (reached : x ∈ context.reach name)
      (bound : context.get? x = some n) (generic : n.kind = .generic parameters body) (order : inOrder parameters = false)
  /-- Some name is spelt like a call. -/
  | spelling {f : String} {arguments : List Node} (bound : context.has (expansionName f arguments) = true)
  /-- In its run a call is misread. -/
  | misread {n : Node} {x : String} (bound : context.get? name = some n) (misread : Misreads limits (.node context n) x)

/-! ## Runs -/

/-- A name that the definition of another one reaches, bound to a generic or to something else. -/
def Reached (context : Context) (name : String) (generic : Bool) (x : String) : Prop :=
  x ∈ context.reach name ∧ context.binds generic x = true

/-- **What a run is given**: nothing but what the definition reaches, and allowed names. -/
def Pending (context : Context) (name : String) (allowed : String → Prop) : Node → Prop :=
  Expandable (fun x => Reached context name false x ∨ allowed x) (Reached context name true)

/-- **What a run gives in a scope**: of what the definition reaches, only cycles are left and what the scope hides. -/
def Settled (context : Context) (name : String) (allowed : String → Prop) (scope : Context) : Node → Prop :=
  Expandable (fun x => Reached context name false x ∧ (scope.has x = true → isCyclic scope x = true) ∨ allowed x)
    fun x => Reached context name true x ∧ scope.has x = false

/-- **Where a run goes**: to parts of the context, outside of generics, with calls in progress that have allowed names; and
these names are free. -/
structure Follows (context : Context) (allowed : String → Prop) (scope : Context) (s : State) : Prop where
  within : ∀ x n, scope.get? x = some n → context.get? x = some n
  undeclared : s.declared = []
  frames : ∀ frame ∈ s.frames, allowed frame.key
  free : ∀ x, allowed x → context.has x = false

/-- **An evaluator settles what is pending**, whatever is allowed besides `base`. -/
def Settling (context : Context) (name : String) (base : String → Prop) (evaluate : Evaluator) : Prop :=
  ∀ allowed scope s n m, (∀ x, base x → allowed x) → Follows context allowed scope s → Pending context name allowed n →
    evaluate scope s n = .done m → Settled context name allowed scope m

/-- **A module in which nothing stands in the way of a definition**, apart from cycles and names. -/
structure Unobstructed (context : Context) (name : String) : Prop where
  modular : context.isModular = true
  flat : ∀ x ∈ context.reach name, ∀ n, context.get? x = some n → ∀ c ∈ n.kind.parts, c.isFlat = true
  ordered : ∀ x ∈ context.reach name, ∀ n parameters body, context.get? x = some n → n.kind = .generic parameters body →
    inOrder parameters = true
  unspelt : ∀ f arguments, context.has (expansionName f arguments) = false

variable {limits : Limits} {evaluate : Evaluator} {context scope : Context} {s : State} {name x : String}
  {base allowed wider : String → Prop} {n m : Node}

theorem Settled.pending (h : Settled context name allowed scope n) : Pending context name allowed n :=
  h.mono (fun _ hx => hx.imp_left And.left) fun _ hx => hx.1

theorem Pending.mono (h : Pending context name allowed n) (ha : ∀ x, allowed x → wider x) : Pending context name wider n :=
  Expandable.mono h (fun x hx => hx.imp_right (ha x)) fun _ hx => hx

theorem mem_reach (hx : x ∈ context.reach name) (hn : context.get? x = some n) {y : String} (hy : y ∈ n.references) :
    y ∈ context.reach name := by
  refine ReferenceGraph.mem_closure_of_successor (ReferenceGraph.complete_ofContext context) hx ?_
  rw [ReferenceGraph.successors_ofContext, hn]
  exact hy

namespace Follows

theorem without (h : Follows context allowed scope s) (hidden : List String) :
    Follows context allowed (Fields.without scope hidden) s := by
  refine ⟨fun x n hn => h.within x n ?_, h.undeclared, h.frames, h.free⟩
  rw [Fields.get?_without] at hn
  split at hn
  · cases hn
  · exact hn

theorem descend {t : State} (h : Follows context allowed scope s) (hd : s.descend limits = .done t) :
    Follows context allowed scope t := by
  obtain ⟨-, rfl⟩ := State.eq_of_descend hd
  exact ⟨h.within, h.undeclared, h.frames, h.free⟩

theorem has_eq_false (h : Follows context allowed scope s) (hx : allowed x) : scope.has x = false := by
  rw [Fields.has, Bool.eq_false_iff]
  intro hb
  obtain ⟨n, hn⟩ := Option.isSome_iff_exists.1 hb
  have hfree := h.free x hx
  rw [Fields.has, h.within x n hn] at hfree
  cases hfree

/-- Inside of a call its own name is allowed as well. -/
theorem enter {c : GenericCall} {inner : State} (h : Follows context allowed scope s) (hfree : context.has c.key = false)
    (he : s.enter limits c.name c.arguments = .done inner) :
    Follows context (fun x => allowed x ∨ x = c.key) scope inner := by
  obtain ⟨frames, hframes, rfl⟩ := State.eq_of_enter he
  refine ⟨h.within, h.undeclared, fun frame hf => ?_, fun x hx => ?_⟩
  · rcases List.mem_cons.1 hf with rfl | hf
    · exact .inr rfl
    · have hmem : frame ∈ s.frames := by
        rcases hframes with rfl | rfl
        · exact hf
        · exact List.mem_of_mem_tail hf
      exact .inl (h.frames frame hmem)
  · rcases hx with hx | rfl
    · exact h.free x hx
    · exact hfree

end Follows

namespace Unobstructed

variable (hclear : Unobstructed context name)
include hclear

/-- **A definition that is reached is pending.** -/
theorem pending (hx : Reached context name false x) (hn : context.get? x = some n) : Pending context name allowed n := by
  have hform : n.kind.isGeneric = false := by
    have hb := hx.2
    rw [Context.binds, hn] at hb
    simpa using hb
  have hflat : n.isFlat = true := everywhere_iff.2 ⟨by rw [hform]; rfl, hclear.flat x hx.1 n hn⟩
  have hexpandable := expandable_of_isModular (isModular_of_get? hclear.modular hn) hflat
  refine hexpandable.imp (fun y hy hb => .inl ⟨?_, ?_⟩) fun y hy hb => ⟨?_, hb.2⟩
  · exact mem_reach hx.1 hn hy
  · exact hb.resolve_left List.not_mem_nil
  · exact mem_reach hx.1 hn hy

/-- **The parts of a generic that is reached** refer to its parameters and to what is reached. -/
theorem part (hx : Reached context name true x) (hn : context.get? x = some n) {parameters : List (Parameter Node)}
    {body : Node} (hk : n.kind = .generic parameters body) {c : Node} (hc : c ∈ n.kind.parts) :
    c.Expandable (fun y => y ∈ c.references ∧ y ∈ parameters.map (·.name) ∨ Reached context name false y)
      fun y => y ∉ parameters.map (·.name) ∧ Reached context name true y := by
  have hmodular := isModular_of_get? hclear.modular hn
  have hchild : c ∈ n.children := by
    rw [children, hk]
    rw [hk] at hc
    exact hc
  have hreach : ∀ y ∈ c.references, y ∉ parameters.map (·.name) → y ∈ context.reach name := by
    intro y hy hfree
    refine mem_reach hx.1 hn ((mem_references_iff (by simp [hk])).2 ⟨c, hchild, hy, ?_⟩)
    rw [hk]
    exact hfree
  rw [isModular_eq, hk] at hmodular
  have hpart : c.isModular context (parameters.map (·.name)) = true :=
    List.all_eq_true.1 hmodular c (by rw [hk] at hc; exact hc)
  refine (expandable_of_isModular hpart (hclear.flat x hx.1 n hn c hc)).imp (fun y hy hb => ?_) fun y hy hb => ?_
  · by_cases hp : y ∈ parameters.map (·.name)
    · exact .inl ⟨hy, hp⟩
    · exact .inr ⟨hreach y hy hp, hb.resolve_left hp⟩
  · exact ⟨hb.1, hreach y hy hb.1, hb.2⟩

end Unobstructed

/-! ## Calls -/

section
variable (hsettles : Settling context name base evaluate) (hbase : ∀ x, base x → allowed x)
  (hfollows : Follows context allowed scope s)
include hsettles hbase hfollows

/-- **All parameters are bound to pending nodes**, since defaults see earlier parameters only. -/
theorem bindParameters_pending {names : List String} (ps : List (Parameter Node)) {bindings out : Fields Node}
    {arguments : List Node} (hbindings : ∀ x m, bindings.get? x = some m → Pending context name allowed m)
    (harguments : ∀ a ∈ arguments, Pending context name allowed a)
    (hdefaults : ∀ p ∈ ps, p.name ∈ names ∧ p.default.Expandable
      (fun y => y ∈ p.default.references ∧ y ∈ names ∨ Reached context name false y)
      fun y => y ∉ names ∧ Reached context name true y)
    (horder : inOrder ps = true) (hnames : ∀ x, bindings.has x = true → x ∈ names)
    (hbound : ∀ x ∈ names, x ∈ ps.map (·.name) ∨ bindings.has x = true)
    (h : bindParameters evaluate scope s bindings ps arguments = .done out) :
    (∀ x m, out.get? x = some m → Pending context name allowed m) ∧ ∀ x, out.has x = true ↔ x ∈ names := by
  induction ps generalizing bindings arguments with
  | nil =>
    cases h
    exact ⟨hbindings, fun x => ⟨hnames x, fun hx => (hbound x hx).resolve_left List.not_mem_nil⟩⟩
  | cons p ps ih =>
    rw [List.forall_mem_cons] at hdefaults
    rw [inOrder, Bool.and_eq_true, List.all_eq_true] at horder
    obtain ⟨candidate, hcandidate, h⟩ := exists_of_bindParameters_cons h
    have hpending : Pending context name allowed candidate := by
      rcases hcandidate with hargument | ⟨rfl, hdefault⟩
      · exact harguments candidate (List.mem_of_mem_head? hargument)
      · have hsubstituted : Pending context name allowed (p.default.substitute bindings) := by
          -- The parameters that a default names come earlier, so they are bound.
          refine hdefaults.1.2.substitute hbindings (fun y hy => ?_) fun y hy => ⟨?_, hy.2⟩
          · refine hy.imp (fun hy => ?_) .inl
            have hlater := horder.1 y hy.1
            rw [Bool.not_eq_true', List.contains_eq_mem, decide_eq_false_iff_not] at hlater
            exact (hbound y hy.2).resolve_left hlater
          · exact Bool.eq_false_iff.2 fun hb => hy.1 (hnames y hb)
        exact (hsettles allowed scope s _ _ hbase hfollows hsubstituted hdefault).pending
    refine ih (fun x m hm => ?_) (fun a ha => harguments a (List.mem_of_mem_tail ha)) hdefaults.2 horder.2
      (fun x hx => ?_) (fun x hx => ?_) h
    · rw [Fields.get?_insert] at hm
      split at hm
      · cases hm
        exact hpending
      · exact hbindings x m hm
    · rcases Fields.has_insert_iff.1 hx with rfl | hx
      · exact hdefaults.1.1
      · exact hnames x hx
    · rw [Fields.has_insert_iff]
      rcases hbound x hx with hx | hx
      · exact (List.mem_cons.1 hx).elim (fun hx => .inr (.inl hx.symm)) .inl
      · exact .inr (.inr hx)

variable (hclear : Unobstructed context name) {c : GenericCall} {g : Node} (hcalled : Reached context name true c.name)
  (hbound : context.get? c.name = some g) (hgeneric : g.kind = .generic c.parameters c.body)
  (harguments : ∀ a ∈ c.arguments, Pending context name allowed a)
include hclear hcalled hbound hgeneric harguments

/-- **What a generic expands to is settled**, where its own name is allowed. -/
theorem expansion_settled {expanded : Node}
    (h : expansion limits evaluate scope s c.name c.parameters c.body c.arguments = .done expanded) :
    Settled context name (fun x => allowed x ∨ x = c.key) scope expanded := by
  obtain ⟨bindings, hbind, h⟩ := Outcome.bind_eq_done.1 h
  obtain ⟨inner, henter, h⟩ := Outcome.bind_eq_done.1 h
  have hparts := fun {d : Node} (hd : d ∈ (Kind.generic c.parameters c.body).parts) =>
    hclear.part hcalled hbound hgeneric (hgeneric ▸ hd)
  let names : List String := c.parameters.map (·.name)
  have hdefaults : ∀ p ∈ c.parameters, p.name ∈ names ∧ p.default.Expandable
      (fun y => y ∈ p.default.references ∧ y ∈ names ∨ Reached context name false y)
      fun y => y ∉ names ∧ Reached context name true y := fun p hp =>
    ⟨List.mem_map_of_mem hp, hparts (List.mem_append_left _ (List.mem_flatMap.2 ⟨p, hp, by simp [Parameter.parts]⟩))⟩
  have horder : inOrder c.parameters = true := hclear.ordered _ hcalled.1 g c.parameters c.body hbound hgeneric
  obtain ⟨hbindings, hhas⟩ := bindParameters_pending hsettles hbase (hfollows.without names) c.parameters (by simp)
    harguments hdefaults horder (by simp [Fields.has, Fields.get?]) (fun x hx => .inl hx) hbind
  have hbody : Pending context name allowed (c.body.substitute bindings) := by
    refine (hparts (d := c.body) (by simp [Kind.parts])).substitute hbindings (fun y hy => ?_) fun y hy => ⟨?_, hy.2⟩
    · exact hy.imp (fun hy => (hhas y).2 hy.2) .inl
    · exact Bool.eq_false_iff.2 fun hb => hy.1 ((hhas y).1 hb)
  refine hsettles _ scope inner _ _ (fun x hx => .inl (hbase x hx)) (hfollows.enter (hclear.unspelt _ _) henter) ?_ h
  exact hbody.mono fun _ => .inl

/-- **Under its name an expansion is pending**: a bundle closes over the references back. -/
theorem packaged_pending {expanded : Node}
    (h : expansion limits evaluate scope s c.name c.parameters c.body c.arguments = .done expanded) :
    Pending context name allowed (packaged c.key expanded) := by
  have hsettled := expansion_settled hsettles hbase hfollows hclear hcalled hbound hgeneric harguments h
  unfold packaged
  split
  · exact .bundle rfl
  · rename_i hback
    rw [List.contains_iff_mem] at hback
    refine hsettled.pending.imp (fun x hx hr => ?_) fun x _ hr => hr
    refine hr.imp_right fun ha => ha.resolve_right ?_
    rintro rfl
    exact hback hx

/-- **A call of a generic is settled**, unless it is misread. -/
theorem expandGeneric_settled (hmisread : c.Misread s → allowed c.key)
    (h : expandGeneric limits evaluate scope s c.name c.parameters c.body c.arguments = .done m) :
    Settled context name allowed scope m := by
  rw [expandGeneric] at h
  split at h
  · rename_i hrepeats
    cases h
    rw [Bool.and_eq_true] at hrepeats
    refine .reference rfl (.inr ?_)
    -- The name of a call in progress is allowed; without such a call the repeated one is misread.
    by_cases hframe : ∃ frame ∈ s.frames, frame.key = c.key
    · obtain ⟨frame, hf, hk⟩ := hframe
      have ha := hfollows.frames frame hf
      rwa [hk] at ha
    · exact hmisread ⟨by simpa using hrepeats.1, hrepeats.2, fun frame hf hk => hframe ⟨frame, hf, hk⟩⟩
  · obtain ⟨expanded, hexpands, h⟩ := Outcome.bind_eq_done.1 h
    refine hsettles allowed scope s _ m hbase hfollows ?_ h
    exact packaged_pending hsettles hbase hfollows hclear hcalled hbound hgeneric harguments hexpands

end

/-! ## Steps -/

section
variable (hsettles : Settling context name base evaluate) (hbase : ∀ x, base x → allowed x)
  (hclear : Unobstructed context name)
include hsettles hbase hclear

theorem call_settled (hfollows : Follows context allowed scope s) {target : Node} {operands : List Node}
    (hnode : Pending context name allowed (.call target operands))
    (hmisread : ∀ c : GenericCall, operands.mapM (evaluate scope s) = .done c.arguments →
      callee evaluate scope s target = .done (.generic c.name c.parameters c.body) → c.Misread s → allowed c.key)
    (h : call limits evaluate scope s target operands = .done m) : Settled context name allowed scope m := by
  obtain ⟨f, hnamed, hcalled, hoperands⟩ : ∃ f, target.kind = .ref f ∧ Reached context name true f ∧
      ∀ a ∈ operands, Pending context name allowed a := by
    cases hnode with
    | call kind named meets operands =>
      cases kind
      exact ⟨_, named, meets, operands⟩
    | plain structural => cases structural
    | reference kind | bundle kind => cases kind
  obtain ⟨arguments, harguments, h⟩ := Outcome.bind_eq_done.1 h
  have hsettled : ∀ a ∈ arguments, Settled context name allowed scope a := by
    intro a ha
    obtain ⟨operand, hoperand, he⟩ := Outcome.exists_of_mem_mapM harguments ha
    exact hsettles allowed scope s _ _ hbase hfollows (hoperands operand hoperand) he
  have hfree : arguments.any s.dependsOnDeclared = false := by
    rw [List.any_eq_false]
    intro a _
    rw [State.dependsOnDeclared, hfollows.undeclared]
    simp
  rw [if_neg (by simp [hfree])] at h
  cases hscope : scope.get? f with
  | none =>
    -- Defaults are instantiated where parameters hide generics: such a call stays until the body is instantiated.
    have hcallee : callee evaluate scope s target = .done (.other target) := by
      unfold callee
      rw [hnamed]
      simp only [chase_of_unbound hscope]
      rfl
    rw [hcallee] at h
    cases h
    exact .call rfl hnamed ⟨hcalled, by rw [Fields.has, hscope]; rfl⟩ hsettled
  | some g =>
    have hbound := hfollows.within f g hscope
    obtain ⟨parameters, body, hgeneric⟩ : ∃ parameters body, g.kind = .generic parameters body := by
      have hb := hcalled.2
      rw [Context.binds, hbound] at hb
      cases hk : g.kind with
      | generic parameters body => exact ⟨parameters, body, rfl⟩
      | _ => simp [hk, Kind.isGeneric] at hb
    have hcallee : callee evaluate scope s target = .done (.generic f parameters body) := by
      unfold callee
      rw [hnamed]
      simp only [chase_of_generic hscope hgeneric]
      rfl
    rw [hcallee] at h
    let c : GenericCall := ⟨f, parameters, body, arguments⟩
    exact expandGeneric_settled (c := c) hsettles hbase hfollows hclear hcalled hbound hgeneric
      (fun a ha => (hsettled a ha).pending) (hmisread c harguments hcallee) h

/-- **A step settles what is pending**, unless a call is misread in it. -/
theorem stepAt_settled {p : Point} (hmisread : ∀ s c, Calls limits evaluate p s c → c.Misread s → allowed c.key)
    (hfollows : Follows context allowed p.context p.state) (hnode : Pending context name allowed p.node)
    (h : stepAt limits p evaluate = .done m) : Settled context name allowed p.context m := by
  obtain ⟨s, hd, h⟩ := Outcome.bind_eq_done.1 h
  have hs := hfollows.descend hd
  obtain ⟨scope, state, kind, modifiers, annotations⟩ := p
  by_cases hstructural : kind.isStructural = true
  · rw [step_of_isStructural hstructural] at h
    obtain ⟨rebuilt, htraverse, h⟩ := Outcome.bind_eq_done.1 h
    cases h
    cases hnode with
    | plain _ plain parts =>
      exact Expandable.traverse hstructural plain htraverse fun c hc d hcd =>
        hsettles allowed scope s c d hbase hs (parts c hc) hcd
    | reference kind | call kind | bundle kind =>
      cases kind
      cases hstructural
  · cases kind with
    | cyclic definitions root =>
      cases h
      exact .bundle rfl
    | ref x =>
      have hmeets : Reached context name false x ∨ allowed x := by
        cases hnode with
        | reference kind meets =>
          cases kind
          exact meets
        | plain structural => cases structural
        | call kind | bundle kind => cases kind
      simp only [step] at h
      cases htarget : scope.get? x with
      | none =>
        rw [htarget] at h
        cases h
        refine .reference rfl (hmeets.imp_left fun hx => ⟨hx, fun hb => ?_⟩)
        rw [Fields.has, htarget] at hb
        cases hb
      | some target =>
        -- Names that are allowed are free, so a bound one is reached.
        have hreached : Reached context name false x := hmeets.resolve_right fun ha => by
          have hnone := hs.has_eq_false ha
          rw [Fields.has, htarget] at hnone
          cases hnone
        rw [htarget] at h
        dsimp only at h
        split at h
        · rename_i hback
          cases h
          refine .reference rfl (.inl ⟨hreached, fun _ => ?_⟩)
          rw [isCyclic, htarget]
          exact hback
        · obtain ⟨d, hd, h⟩ := Outcome.bind_eq_done.1 h
          cases h
          have hdefinition : Pending context name allowed target := hclear.pending hreached (hs.within x target htarget)
          exact (hsettles allowed scope s _ _ hbase hs hdefinition hd).of_kind rfl
    | call target operands =>
      obtain ⟨d, hcall, h⟩ := Outcome.bind_eq_done.1 h
      cases h
      have hcalls : Pending context name allowed (.call target operands) := hnode.of_kind rfl
      refine (call_settled hsettles hbase hclear hs hcalls (fun c ha hc => ?_) hcall).of_kind rfl
      exact hmisread s c ⟨hd, target, operands, rfl, ha, hc⟩
    | deferred | generic =>
      cases hnode with
      | plain structural => cases structural
      | reference kind | call kind | bundle kind => cases kind
    | _ => exact absurd rfl hstructural

end

/-- **The steps of a run settle what is pending**, where the names that are misread in it are allowed.  By induction on the
fuel, with an evaluator that answers what the step comes to and nothing else. -/
theorem run_settled {query : Query} (hclear : Unobstructed context name) (fuel : Nat) {k : Nat} {p : Point}
    (hp : Nested limits query k p) (hmisreads : ∀ x, Misreads limits query x → allowed x)
    (hfollows : Follows context allowed p.context p.state) (hnode : Pending context name allowed p.node)
    (h : (run limits fuel).answer p = .done m) : Settled context name allowed p.context m := by
  induction fuel generalizing k p allowed m with
  | zero => cases h
  | succ fuel ih =>
    obtain ⟨s, evaluate, hs, hstep, hanswer, hasked⟩ := exists_step_of_run h
    have hsettles : Settling context name (Misreads limits query) evaluate := by
      intro allowed scope s n m hmisreads hfollows hnode hm
      obtain ⟨hinvokes, hdone⟩ := hasked scope s n m hm
      exact ih (p := ⟨scope, s, n⟩) (.invokes hp hinvokes) hmisreads hfollows hnode hdone
    rw [← stepAt_of_descend hs] at hstep
    refine stepAt_settled hsettles hmisreads hclear (fun s c hc hmisread => ?_) hfollows hnode hstep
    exact hmisreads c.key ⟨k, p, fuel, s, c, hp, hc.imp hanswer, hmisread, rfl⟩

/-! ## Definitions of a module -/

theorem has_of_binds {generic : Bool} (h : context.binds generic x = true) : context.has x = true := by
  rw [Context.binds] at h
  rw [Fields.has]
  cases hn : context.get? x with
  | none =>
    rw [hn] at h
    cases h
  | some n => rfl

/-- Nothing stands in the way of a definition that is not obstructed. -/
theorem unobstructed_of_not_obstructed (hmodular : context.isModular = true) (h : ¬ Obstructed limits context name) :
    Unobstructed context name where
  modular := hmodular
  flat _ hx _ hn c hc := by
    by_contra hflat
    exact h (.inner hx hn hc (Bool.eq_false_iff.2 hflat))
  ordered _ hx _ _ _ hn hk := by
    by_contra horder
    exact h (.default hx hn hk (Bool.eq_false_iff.2 horder))
  unspelt _ _ := Bool.eq_false_iff.2 fun hb => h (.spelling hb)

/-- **A definition that is not cyclic becomes concrete**, or it is obstructed: what is left of what it reaches would be
cyclic, and what is left besides would be misread. -/
theorem concrete_of_instantiate (hmodular : context.isModular = true) (hn : context.get? name = some n)
    (hform : n.kind.isGeneric = false) (hacyclic : isCyclic context name = false)
    (h : instantiate limits context n = .done m) : m.isConcrete = true ∨ Obstructed limits context name := by
  refine or_iff_not_imp_right.2 fun hobstructed => ?_
  have hclear := unobstructed_of_not_obstructed hmodular hobstructed
  have hfollows : Follows context (Misreads limits (.node context n)) context .initial := by
    refine ⟨fun _ _ hx => hx, rfl, fun frame hf => absurd hf List.not_mem_nil, ?_⟩
    rintro _ ⟨-, -, -, -, c, -, -, -, rfl⟩
    exact hclear.unspelt c.name c.arguments
  have hreached : Reached context name false name := by
    refine ⟨ReferenceGraph.mem_closure_self (mem_distinct.2 (List.mem_append_left _ ?_)), ?_⟩
    · exact Fields.mem_names_iff.2 (by rw [Fields.has, hn]; rfl)
    · rw [Context.binds, hn]
      simp [hform]
  have hopens : Nested limits (.node context n) 0 ⟨context, .initial, n⟩ := .opens (Query.opens_node limits context n)
  have hsettled : Settled context name (Misreads limits (.node context n)) context m :=
    run_settled hclear _ hopens (fun _ hx => hx) hfollows (hclear.pending hreached hn) h
  refine hsettled.isConcrete (fun x hx => ?_) fun x hx => ?_
  · rcases hx with ⟨hx, hcyclic⟩ | hmisread
    · exact hobstructed (.cycle hacyclic hx.1 (hcyclic (has_of_binds hx.2)))
    · exact hobstructed (.misread hn hmisread)
  · exact absurd (has_of_binds hx.1.2) (by simp [hx.2])

/-- **The output of a module is concrete**: every definition but the generics, unless it is obstructed. -/
theorem concrete_of_module (hmodular : context.isModular = true) {out : Context}
    (h : instantiateModule limits context = .done out) : ∀ e ∈ out, ∀ n, context.get? e.1 = some n →
      n.kind.isGeneric = false → e.2.isConcrete = true ∨ Obstructed limits context e.1 := by
  intro e he n hn hform
  obtain ⟨n', hn', hentry⟩ := (assemble_done h).2 e he
  obtain rfl : n = n' := Option.some.inj (hn.symm.trans hn')
  split at hentry
  · -- A candidate is packed, and bundles are concrete.
    obtain ⟨definitions, hbundle, -⟩ := package_done hentry
    exact .inl (isConcrete_of_bundle (congrArg Node.kind hbundle))
  · rename_i hcandidate
    have hacyclic : isCyclic context e.1 = false := by
      rw [Bool.eq_false_iff]
      intro hcyclic
      refine hcandidate (List.contains_iff_mem.2 (List.mem_filter.2 ⟨?_, hcyclic⟩))
      exact Fields.mem_names_iff.2 (by rw [Fields.has, hn]; rfl)
    exact concrete_of_instantiate hmodular hn hform hacyclic hentry

/-- A list of numbers becomes a bundle, and nothing in it is left to instantiate. -/
theorem concrete_of_module_list :
    let list : Node := .generic [.free "T"]
      (.object [("head", .reference "T"), ("tail", .call (.reference "List") [.reference "T"])])
    let context : Context := [("List", list), ("Numbers", .call (.reference "List") [.number])]
    let out : Context := [("List", list), ("Numbers", .cyclic [("List<number>",
      .object [("head", .number), ("tail", .reference "List<number>")])] "List<number>")]
    context.isModular = true ∧ instantiateModule {} context = .done out ∧
      ∀ e ∈ out, ∀ n, context.get? e.1 = some n → n.kind.isGeneric = false →
        e.2.isConcrete = true ∨ Obstructed {} context e.1 := by
  intro list context out
  have hmodular : context.isModular = true := by decide +kernel
  have hout : instantiateModule {} context = .done out := by with_unfolding_all rfl
  exact ⟨hmodular, hout, concrete_of_module hmodular hout⟩

/-- Something is left to instantiate in the output for a definition of a module. -/
def LeavesOpen (context : Context) (name : String) : Prop :=
  context.isModular = true ∧ ∃ n out m, context.get? name = some n ∧ n.kind.isGeneric = false ∧
    instantiateModule {} context = .done out ∧ out.get? name = some m ∧ m.isConcrete = false

/-- **Whatever obstructs a definition, leaves something open.**  A cyclic definition is referred to in the body of a generic,
where the check for candidates does not look, so the definition that calls the generic is not packed; a call is repeated with
the properties of an argument in another order; a default refers to a later parameter; a generic stands inside of the
definition; and a name is spelt like a call, so that a reference back is taken for it. -/
theorem module_leaves_open :
    let ring : Node := .object [("next", .reference "A")]
    let owned : Node := .generic [.free "T"] (.object [("item", .reference "T"), ("owner", .reference "A")])
    let turned : Node := .generic [.free "T"]
      (.object [("next", .call (.reference "F") [.object [("b", .number), ("a", .number)]])])
    let later : Node := .generic [.withDefault "S" .unknown (.reference "T"), .withDefault "T" .unknown .string]
      (.reference "S")
    let field (key f : String) : Node := .generic [.free "T"] (.object [(key, .call (.reference f) [.reference "T"])])
    LeavesOpen [("A", ring), ("F", owned), ("B", .call (.reference "F") [.number])] "B" ∧
      LeavesOpen [("F", turned), ("B", .call (.reference "F") [.object [("a", .number), ("b", .number)]])] "B" ∧
      LeavesOpen [("F", later), ("B", .call (.reference "F") [])] "B" ∧
      LeavesOpen [("B", .object [("f", .generic [.free "T"] (.reference "T"))])] "B" ∧
      LeavesOpen [("A", ring), ("H", .generic [] (.object [("owner", .reference "A")])),
        ("F<number>", .call (.reference "H") []), ("F", field "g" "G"), ("G", field "f" "F"),
        ("B", .call (.reference "F") [.number])] "B" := by
  refine ⟨?_, ?_, ?_, ?_, ?_⟩ <;>
    exact ⟨by decide +kernel, _, _, _, rfl, rfl, by with_unfolding_all rfl, rfl, by decide +kernel⟩

end Schemata
