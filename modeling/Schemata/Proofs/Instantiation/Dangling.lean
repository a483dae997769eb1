import Schemata.Proofs.Instantiation.Limits
import Schemata.Proofs.Node.Names
/-!
# Names that are left dangling

A reference back to a call is emitted before it is known where the bundle for it will be, and the call looks for it in
the open references of its own expansion only.

- `GenericCall.Leaks` lists the ways in which a call lets a name get out of the scope that would bind it.
- `Strays limits query x`: some call in the run of a query leaks `x`.
- `Sound allowed declared context s` is what a run keeps up around each node, `Node.Grounded allowed declared` what it
  keeps up of the node and of its result.

Main statement: `loose_of_instantiate`, a name that nothing in the result binds is bound in the context, or it strayed.
-/
namespace Schemata

open Planned Node

variable {limits : Limits} {evaluate : Evaluator} {context scope : Context} {s : State}

/-! ## Calls that leak -/

def Frame.key (frame : Frame) : String := expansionName frame.name frame.arguments

namespace GenericCall

/-- **A call lets a name get out of the scope that would bind it.** -/
inductive Leaks (limits : Limits) (evaluate : Evaluator) (context : Context) (s : State) (c : GenericCall) : String → Prop
  /-- It repeats a call whose arguments are equal, but are displayed otherwise. -/
  | displayed (named : c.name ≠ anonymous) (repeats : s.isExpanding c.name c.arguments = true)
      (unlike : ∀ frame ∈ s.frames, frame.name ≠ anonymous → frame.key ≠ c.key) : Leaks limits evaluate context s c c.key
  /-- Its body refers to a parameter after all are bound: a default may refer to its own parameter, or to a later one. -/
  | unbound {bindings : Fields Node} {x : String}
      (binds : bindParameters evaluate (Fields.without context (c.parameters.map (·.name))) s [] c.parameters c.arguments =
        .done bindings)
      (parameter : x ∈ c.parameters.map (·.name))
      (left : x ∈ (c.body.substitute bindings).references ∨ x ∈ (c.body.substitute bindings).trapped) :
      Leaks limits evaluate context s c x
  /-- All references back to it are inside of bundles. -/
  | buried {expanded : Node} (named : c.name ≠ anonymous)
      (expands : expansion limits evaluate context s c.name c.parameters c.body c.arguments = .done expanded)
      (inside : c.key ∈ expanded.trapped) (outside : c.key ∉ expanded.references) :
      Leaks limits evaluate context s c c.key
  /-- A bundle is made of what refers to parameters of the generics around it. -/
  | enclosed {expanded : Node} {x : String} (unnamed : c.name = anonymous)
      (expands : expansion limits evaluate context s c.name c.parameters c.body c.arguments = .done expanded)
      (back : c.key ∈ expanded.references) (refers : x ∈ expanded.references) (other : x ≠ c.key)
      (declared : x ∈ s.declared) : Leaks limits evaluate context s c x

end GenericCall

/-- **A name strays in the run of a query** when some call leaks it. -/
def Strays (limits : Limits) (query : Query) (x : String) : Prop :=
  ∃ k p fuel s c, Nested limits query k p ∧ Calls limits (run limits fuel) p s c ∧
    c.Leaks limits (run limits fuel) p.context s x

/-! ## Scopes without dangling names -/

/-- **No name dangles around a node**: all that the context binds is grounded, the declared names can be reached, and the
calls being expanded have allowed names. -/
structure Sound (allowed : String → Prop) (declared : List String) (context : Context) (s : State) : Prop where
  bound : ∀ name n, context.get? name = some n → n.Grounded allowed []
  declared : ∀ x ∈ declared, x ∈ s.declared
  frames : ∀ frame ∈ s.frames, frame.name ≠ anonymous → allowed frame.key

/-- **An evaluator lets no name dangle**, whatever is allowed besides `base`. -/
def Tidy (base : String → Prop) (evaluate : Evaluator) : Prop :=
  ∀ allowed declared context s n m, (∀ x, base x → allowed x) → Sound allowed declared context s →
    n.Grounded allowed declared → evaluate context s n = .done m → m.Grounded allowed declared

theorem Tidy.grounded {base allowed : String → Prop} {declared : List String} {n m : Node} (h : Tidy base evaluate)
    (hbase : ∀ x, base x → allowed x) (hsound : Sound allowed declared context s) (hn : n.Grounded allowed declared)
    (hm : evaluate context s n = .done m) : m.Grounded allowed declared :=
  h allowed declared context s n m hbase hsound hn hm

namespace Sound

variable {allowed wider : String → Prop} {declared : List String}

theorem mono (h : Sound allowed declared context s) (ha : ∀ x, allowed x → wider x) : Sound wider declared context s :=
  ⟨fun name n hn => (h.bound name n hn).mono ha fun _ hx => hx, h.declared, fun frame hf hn => ha _ (h.frames frame hf hn)⟩

theorem closed (h : Sound allowed declared context s) : Sound allowed [] context s := ⟨h.bound, by simp, h.frames⟩

theorem without (h : Sound allowed declared context s) (hidden : List String) :
    Sound allowed declared (Fields.without context hidden) s := by
  refine ⟨fun name n hn => ?_, h.declared, h.frames⟩
  rw [Fields.get?_without] at hn
  split at hn
  · cases hn
  · exact h.bound name n hn

theorem declare (h : Sound allowed declared context s) (parameters : List (Parameter Node)) :
    Sound allowed (declared ++ parameters.map (·.name)) context (s.declare parameters) := by
  refine ⟨h.bound, fun x hx => ?_, h.frames⟩
  rw [List.mem_append] at hx
  exact List.mem_append.2 (hx.imp_left (h.declared x))

theorem descend {t : State} (h : Sound allowed declared context s) (hd : s.descend limits = .done t) :
    Sound allowed declared context t := by
  obtain ⟨-, rfl⟩ := State.eq_of_descend hd
  exact ⟨h.bound, h.declared, h.frames⟩

/-- Inside of a call its own name is allowed as well. -/
theorem enter {name : String} {arguments : List Node} {inner : State} (h : Sound allowed declared context s)
    (he : s.enter limits name arguments = .done inner) (ha : ∀ x, allowed x → wider x)
    (hkey : name ≠ anonymous → wider (expansionName name arguments)) : Sound wider declared context inner := by
  obtain ⟨frames, hframes, rfl⟩ := State.eq_of_enter he
  have hw := h.mono ha
  refine ⟨hw.bound, hw.declared, fun frame hf hn => ?_⟩
  rcases List.mem_cons.1 hf with rfl | hf
  · exact hkey hn
  · have hmem : frame ∈ s.frames := by
      rcases hframes with rfl | rfl
      · exact hf
      · exact List.mem_of_mem_tail hf
    exact hw.frames frame hmem hn

theorem chase {name found : String} {parameters : List (Parameter Node)} {body : Node}
    (h : Sound allowed declared context s) (hc : chase context name = .generic found parameters body) :
    (Node.of (.generic parameters body)).Grounded allowed [] := by
  unfold Schemata.chase at hc
  generalize context.length = fuel at hc
  induction fuel generalizing name with
  | zero => cases hc
  | succ fuel ih =>
    rw [Context.chaseFor] at hc
    cases hn : context.get? name with
    | none =>
      rw [hn] at hc
      cases hc
    | some n =>
      rw [hn] at hc
      dsimp only at hc
      split at hc
      · exact ih hc
      · rename_i hk
        cases hc
        exact (h.bound _ n hn).of_kind hk.symm
      · cases hc

end Sound

/-! ## Calls -/

theorem exists_of_bindParameters_cons {bindings out : Fields Node} {p : Parameter Node} {ps : List (Parameter Node)}
    {arguments : List Node} (h : bindParameters evaluate scope s bindings (p :: ps) arguments = .done out) :
    ∃ candidate, (arguments.head? = some candidate ∨
        arguments = [] ∧ evaluate scope s (p.default.substitute bindings) = .done candidate) ∧
      bindParameters evaluate scope s (bindings.insert p.name candidate) ps arguments.tail = .done out := by
  rw [bindParameters] at h
  obtain ⟨constraint, -, h⟩ := Outcome.bind_eq_done.1 h
  cases arguments with
  | cons argument arguments =>
    refine ⟨argument, .inl rfl, ?_⟩
    simp only [Outcome.pure_eq, Outcome.done_bind] at h
    split at h
    · cases h
    · exact h
  | nil =>
    obtain ⟨candidate, hcandidate, h⟩ := Outcome.bind_eq_done.1 h
    refine ⟨candidate, .inr ⟨rfl, hcandidate⟩, ?_⟩
    dsimp only at h
    split at h
    · cases h
    · exact h

section
variable {base allowed : String → Prop} {declared : List String} (htidy : Tidy base evaluate)
  (hbase : ∀ x, base x → allowed x)
include htidy hbase

/-- **All parameters are bound to grounded nodes**, where the names that defaults may refer to are allowed. -/
theorem bindParameters_grounded (hsound : Sound allowed declared scope s) (ps : List (Parameter Node))
    {bindings out : Fields Node} {arguments : List Node}
    (hbindings : ∀ name m, bindings.get? name = some m → m.Grounded allowed declared)
    (harguments : ∀ a ∈ arguments, a.Grounded allowed declared)
    (hdefaults : ∀ p ∈ ps, p.default.Grounded allowed declared)
    (h : bindParameters evaluate scope s bindings ps arguments = .done out) :
    (∀ name m, out.get? name = some m → m.Grounded allowed declared) ∧
      ∀ x, x ∈ ps.map (·.name) ∨ bindings.has x = true → out.has x = true := by
  induction ps generalizing bindings arguments with
  | nil =>
    cases h
    exact ⟨hbindings, by simp⟩
  | cons p ps ih =>
    obtain ⟨candidate, hcandidate, h⟩ := exists_of_bindParameters_cons h
    have hgrounded : candidate.Grounded allowed declared := by
      rcases hcandidate with hargument | ⟨rfl, hdefault⟩
      · exact harguments candidate (List.mem_of_mem_head? hargument)
      · have hsubstituted : (p.default.substitute bindings).Grounded allowed declared :=
          (hdefaults p List.mem_cons_self).substitute hbindings fun _ => .inl
        exact htidy.grounded hbase hsound hsubstituted hdefault
    have hinsert : ∀ name m, (bindings.insert p.name candidate).get? name = some m → m.Grounded allowed declared := by
      intro name m hm
      rw [Fields.get?_insert] at hm
      split at hm
      · cases hm
        exact hgrounded
      · exact hbindings name m hm
    obtain ⟨hout, hhas⟩ := ih hinsert (fun a ha => harguments a (List.mem_of_mem_tail ha))
      (fun q hq => hdefaults q (List.mem_cons_of_mem _ hq)) h
    refine ⟨hout, fun x hx => hhas x ?_⟩
    rw [Fields.has_insert_iff]
    rcases hx with hx | hx
    · rcases List.mem_cons.1 hx with rfl | hx
      · exact .inr (.inl rfl)
      · exact .inl hx
    · exact .inr (.inr hx)

variable {c : GenericCall} (hleaks : ∀ x, c.Leaks limits evaluate context s x → allowed x)
  (hsound : Sound allowed declared context s) (harguments : ∀ a ∈ c.arguments, a.Grounded allowed declared)
  (hgeneric : (Node.of (.generic c.parameters c.body)).Grounded allowed declared)
include hleaks hsound harguments hgeneric

/-- The body of a generic is grounded when all parameters are bound, unless a name leaks. -/
theorem body_grounded {bindings : Fields Node}
    (h : bindParameters evaluate (Fields.without context (c.parameters.map (·.name))) s [] c.parameters c.arguments =
      .done bindings) : (c.body.substitute bindings).Grounded allowed declared := by
  -- While parameters are bound their names count as allowed; what is left of them in the body leaks.
  let wider : String → Prop := fun x => allowed x ∨ x ∈ c.parameters.map (·.name)
  have hwider : ∀ x, allowed x → wider x := fun _ => .inl
  have hparts : ∀ m ∈ (Kind.generic c.parameters c.body).parts, m.Grounded allowed (declared ++ c.parameters.map (·.name)) :=
    (grounded_iff_parts (n := .of (.generic c.parameters c.body)) rfl).1 hgeneric
  have hdefaults : ∀ p ∈ c.parameters, p.default.Grounded wider declared := by
    intro p hp
    have hpart := hparts p.default (List.mem_append_left _ (List.mem_flatMap.2 ⟨p, hp, by simp [Parameter.parts]⟩))
    exact (hpart.mono hwider fun _ hx => hx).narrow fun x _ hx => (List.mem_append.1 hx).imp_right .inr
  have hbody : c.body.Grounded wider (declared ++ c.parameters.map (·.name)) :=
    (hparts c.body (by simp [Kind.parts])).mono hwider fun _ hx => hx
  obtain ⟨hbindings, hhas⟩ := bindParameters_grounded htidy (fun x hx => hwider x (hbase x hx))
    ((hsound.without _).mono hwider) c.parameters (by simp) (fun a ha => (harguments a ha).mono hwider fun _ hx => hx)
    hdefaults h
  have hsubstituted : (c.body.substitute bindings).Grounded wider declared :=
    hbody.substitute hbindings fun x hx => (List.mem_append.1 hx).imp_right fun hx => hhas x (.inl hx)
  refine ⟨hsubstituted.settled, fun x hx => ?_, fun x hx => ?_⟩
  · rcases hsubstituted.references x hx with hd | ha | hp
    · exact .inl hd
    · exact .inr ha
    · exact .inr (hleaks x (.unbound h hp (.inl hx)))
  · exact (hsubstituted.trapped x hx).elim id fun hp => hleaks x (.unbound h hp (.inr hx))

/-- **What a generic expands to is grounded**, where its own name is allowed when it has one. -/
theorem expansion_grounded {expanded : Node}
    (h : expansion limits evaluate context s c.name c.parameters c.body c.arguments = .done expanded) :
    expanded.Grounded (fun x => allowed x ∨ c.name ≠ anonymous ∧ x = c.key) declared := by
  obtain ⟨bindings, hbind, h⟩ := Outcome.bind_eq_done.1 h
  obtain ⟨inner, henter, h⟩ := Outcome.bind_eq_done.1 h
  have hbody := body_grounded htidy hbase hleaks hsound harguments hgeneric hbind
  refine htidy.grounded (fun x hx => .inl (hbase x hx)) (hsound.enter henter (fun _ => .inl) fun hn => ?_) ?_ h
  · exact .inr ⟨hn, rfl⟩
  · exact hbody.mono (fun _ => .inl) fun _ hx => hx

/-- **Under its name an expansion is grounded**: a bundle binds the references back, and a name that they do not get to
leaks. -/
theorem packaged_grounded (hdeclared : c.name = anonymous ∨ declared = []) {expanded : Node}
    (h : expansion limits evaluate context s c.name c.parameters c.body c.arguments = .done expanded) :
    (packaged c.key expanded).Grounded allowed declared := by
  have hexpanded := expansion_grounded htidy hbase hleaks hsound harguments hgeneric h
  unfold packaged
  by_cases hback : c.key ∈ expanded.references
  · rw [if_pos (List.contains_iff_mem.2 hback)]
    refine grounded_bundle (by simpa using hexpanded.settled) fun x hloose => ?_
    obtain ⟨m, hm, hx, hunbound⟩ := (mem_loose_iff (by intro name hk; cases hk)).1 hloose
    rw [List.mem_singleton.1 hm] at hx
    have hkey : x ≠ c.key := fun he => hunbound (List.mem_singleton.2 he)
    -- A substitution from outside cannot reach into the bundle, so a name declared around it is lost.
    rcases mem_references_or_trapped hx with hx | hx
    · rcases hexpanded.references x hx with hd | ha | ⟨-, he⟩
      · rcases hdeclared with hu | hd'
        · exact hleaks x (.enclosed hu h hback hx hkey (hsound.declared x hd))
        · rw [hd'] at hd
          cases hd
      · exact ha
      · exact absurd he hkey
    · exact (hexpanded.trapped x hx).resolve_right fun he => hkey he.2
  · rw [if_neg fun hc => hback (List.contains_iff_mem.1 hc)]
    refine ⟨hexpanded.settled, fun x hx => ?_, fun x hx => ?_⟩
    · rcases hexpanded.references x hx with hd | ha | ⟨-, rfl⟩
      · exact .inl hd
      · exact .inr ha
      · exact absurd hx hback
    · rcases hexpanded.trapped x hx with ha | ⟨hn, rfl⟩
      · exact ha
      · exact hleaks _ (.buried hn h hx hback)

theorem expandGeneric_grounded (hdeclared : c.name = anonymous ∨ declared = []) {m : Node}
    (h : expandGeneric limits evaluate context s c.name c.parameters c.body c.arguments = .done m) :
    m.Grounded allowed declared := by
  rw [expandGeneric] at h
  split at h
  · rename_i hrepeats
    cases h
    refine .reference ?_
    rw [Bool.and_eq_true] at hrepeats
    have hnamed : c.name ≠ anonymous := by simpa using hrepeats.1
    by_cases hframe : ∃ frame ∈ s.frames, frame.name ≠ anonymous ∧ frame.key = c.key
    · obtain ⟨frame, hf, hn, hk⟩ := hframe
      have ha := hsound.frames frame hf hn
      rw [hk] at ha
      exact ha
    · exact hleaks _ (.displayed hnamed hrepeats.2 fun frame hf hn hk => hframe ⟨frame, hf, hn, hk⟩)
  · obtain ⟨expanded, hexpands, h⟩ := Outcome.bind_eq_done.1 h
    refine htidy.grounded hbase hsound ?_ h
    exact packaged_grounded htidy hbase hleaks hsound harguments hgeneric hdeclared hexpands

end

/-- What turns out to be called is grounded: outside of all generics, when it is a generic under a name. -/
def Callee.Grounded (allowed : String → Prop) (declared : List String) : Callee → Prop
  | .generic name parameters body =>
    (Node.of (.generic parameters body)).Grounded allowed [] ∨
      name = anonymous ∧ (Node.of (.generic parameters body)).Grounded allowed declared
  | .other target => target.Grounded allowed declared

section
variable {base allowed : String → Prop} {declared : List String} (htidy : Tidy base evaluate)
  (hbase : ∀ x, base x → allowed x)

theorem grounded_of_dependsOnDeclared {n : Node} (hsound : Sound allowed declared context s)
    (h : n.Grounded allowed declared) (hd : s.dependsOnDeclared n = false) : n.Grounded allowed [] := by
  refine h.narrow fun x hx hdeclared => False.elim ?_
  have hmem : x ∈ s.declared := hsound.declared x hdeclared
  rw [State.dependsOnDeclared, Bool.and_eq_false_iff] at hd
  rcases hd with hempty | hnone
  · rw [Bool.not_eq_false', List.isEmpty_iff] at hempty
    rw [hempty] at hmem
    cases hmem
  · exact List.any_eq_false.1 hnone x hx (List.contains_iff_mem.2 hmem)

include htidy hbase

theorem callee_grounded (hsound : Sound allowed declared context s) {target : Node}
    (htarget : target.Grounded allowed declared) {found : Callee} (h : callee evaluate context s target = .done found) :
    found.Grounded allowed declared := by
  unfold callee at h
  split at h
  · rename_i hk
    cases h
    exact .inr ⟨rfl, htarget.of_kind hk.symm⟩
  · split at h
    · rename_i hchase
      cases h
      exact .inl (hsound.chase hchase)
    · cases h
      exact htarget
  · obtain ⟨resolved, hresolved, h⟩ := Outcome.bind_eq_done.1 h
    have hgrounded := htidy.grounded hbase hsound htarget hresolved
    split at h
    · rename_i hk
      cases h
      exact .inr ⟨rfl, hgrounded.of_kind hk.symm⟩
    · cases h
      exact hgrounded

omit htidy hbase in
theorem grounded_call {target : Node} {arguments : List Node} (ht : target.Grounded allowed declared)
    (ha : ∀ a ∈ arguments, a.Grounded allowed declared) : (Node.call target arguments).Grounded allowed declared := by
  refine (grounded_iff_parts rfl).2 fun c hc => ?_
  have hg : c.Grounded allowed declared := by
    rcases List.mem_cons.1 hc with rfl | hc
    · exact ht
    · exact ha c hc
  exact hg.mono (fun _ hx => hx) fun x hx => List.mem_append_left _ hx

/-- **A call gives a grounded node**, unless a name leaks from it. -/
theorem call_grounded {p : Point} (hd : p.state.descend limits = .done s)
    (hleaks : ∀ c x, Calls limits evaluate p s c → c.Leaks limits evaluate p.context s x → allowed x)
    (hsound : Sound allowed declared p.context s) {target : Node} {operands : List Node}
    (hk : p.node.kind = .call target operands) (hnode : p.node.Grounded allowed declared) {m : Node}
    (h : call limits evaluate p.context s target operands = .done m) : m.Grounded allowed declared := by
  have hparts : ∀ c ∈ target :: operands, c.Grounded allowed declared := by
    have hall := (grounded_iff_parts (by rw [hk]; rfl)).1 hnode
    rw [hk] at hall
    simp only [Kind.declared, List.append_nil] at hall
    exact hall
  obtain ⟨arguments, harguments, h⟩ := Outcome.bind_eq_done.1 h
  have hgrounded : ∀ a ∈ arguments, a.Grounded allowed declared := by
    intro a ha
    obtain ⟨operand, hoperand, he⟩ := Outcome.exists_of_mem_mapM harguments ha
    exact htidy.grounded hbase hsound (hparts operand (List.mem_cons_of_mem _ hoperand)) he
  split at h
  · cases h
    exact grounded_call (hparts target List.mem_cons_self) hgrounded
  · rename_i hfree
    obtain ⟨found, hfound, h⟩ := Outcome.bind_eq_done.1 h
    have hcallee := callee_grounded htidy hbase hsound (hparts target List.mem_cons_self) hfound
    cases found with
    | other other =>
      cases h
      exact grounded_call hcallee hgrounded
    | generic name parameters body =>
      let c : GenericCall := ⟨name, parameters, body, arguments⟩
      have hc : ∀ x, c.Leaks limits evaluate p.context s x → allowed x :=
        fun x => hleaks c x ⟨hd, target, operands, hk, harguments, hfound⟩
      have hclosed : ∀ a ∈ c.arguments, a.Grounded allowed [] := by
        intro a ha
        refine grounded_of_dependsOnDeclared hsound (hgrounded a ha) ?_
        rw [Bool.not_eq_true, List.any_eq_false] at hfree
        exact Bool.not_eq_true _ ▸ hfree a ha
      -- A generic under a name and its arguments are grounded without what is declared around the call.
      rcases hcallee with hgeneric | ⟨hu, hgeneric⟩
      · have hm := expandGeneric_grounded htidy hbase hc hsound.closed hclosed hgeneric (.inr rfl) h
        exact hm.mono (fun _ ha => ha) (by simp)
      · exact expandGeneric_grounded htidy hbase hc hsound hgrounded hgeneric (.inl hu) h

theorem structural_grounded {n m : Node} (hsound : Sound allowed declared context s) (hn : n.kind.isStructural = true)
    (hnode : n.Grounded allowed declared) (h : step limits evaluate context s n = .done m) :
    m.Grounded allowed declared := by
  rw [step_of_isStructural hn] at h
  obtain ⟨kind, htraverse, h⟩ := Outcome.bind_eq_done.1 h
  cases h
  have hbranch : n.kind.isBranch = true ∧ n.kind.declared = [] := by
    cases hk : n.kind <;> rw [hk] at hn <;> first | exact ⟨rfl, rfl⟩ | cases hn
  have hparts := (grounded_iff_parts hbranch.1).1 hnode
  refine Grounded.traverse hbranch.1 htraverse fun c hc d hcd => ?_
  have hg := hparts c hc
  rw [hbranch.2, List.append_nil] at hg ⊢
  exact htidy.grounded hbase hsound hg hcd

/-- **A step keeps a node grounded**, unless a name leaks from it. -/
theorem stepAt_grounded {p : Point}
    (hleaks : ∀ s c x, Calls limits evaluate p s c → c.Leaks limits evaluate p.context s x → allowed x)
    (hsound : Sound allowed declared p.context p.state) (hnode : p.node.Grounded allowed declared) {m : Node}
    (h : stepAt limits p evaluate = .done m) : m.Grounded allowed declared := by
  obtain ⟨s, hd, h⟩ := Outcome.bind_eq_done.1 h
  have hs := hsound.descend hd
  by_cases hstructural : p.node.kind.isStructural = true
  · exact structural_grounded htidy hbase hs hstructural hnode h
  · obtain ⟨context, state, kind, modifiers, annotations⟩ := p
    cases kind with
    | cyclic definitions root =>
      cases h
      exact hnode
    | ref name =>
      simp only [step] at h
      cases htarget : context.get? name with
      | none =>
        rw [htarget] at h
        cases h
        exact hnode
      | some target =>
        rw [htarget] at h
        dsimp only at h
        split at h
        · cases h
          exact hnode
        · obtain ⟨d, hd, h⟩ := Outcome.bind_eq_done.1 h
          cases h
          have hg := htidy.grounded hbase hs.closed (hs.bound name target htarget) hd
          exact (hg.mono (fun _ ha => ha) (by simp)).of_kind rfl
    | call target operands =>
      obtain ⟨d, hcall, h⟩ := Outcome.bind_eq_done.1 h
      cases h
      exact (call_grounded htidy hbase hd (hleaks s) hs rfl hnode hcall).of_kind rfl
    | deferred operator operands options => cases (everywhere_iff.1 hnode.settled).1
    | generic parameters body =>
      obtain ⟨kind, htraverse, h⟩ := Outcome.bind_eq_done.1 h
      cases h
      have hparts := (grounded_iff_parts rfl).1 hnode
      refine Grounded.traverse rfl htraverse fun c hc d hcd => ?_
      exact htidy.grounded hbase ((hs.without _).declare parameters) (hparts c hc) hcd
    | _ => exact absurd rfl hstructural

end

/-! ## Whole runs -/

section
variable {other : Evaluator} (he : ∀ q, (evaluate.answer q).LiftsTo (other.answer q))
include he

theorem Calls.imp {p : Point} {c : GenericCall} (h : Calls limits evaluate p s c) : Calls limits other p s c := by
  obtain ⟨hd, target, operands, hk, hoperands, hcallee⟩ := h
  have hmapM : Planned (fun _ => True) fun evaluate => operands.mapM fun operand => evaluate p.context s operand :=
    Planned.mapM fun operand _ => Planned.question trivial
  have hfind : Planned (fun _ => True) fun evaluate => callee evaluate p.context s target :=
    planned_callee (fun _ _ => trivial) target
  exact ⟨hd, target, operands, hk, (hmapM.liftsTo he).done hoperands, (hfind.liftsTo he).done hcallee⟩

theorem GenericCall.Leaks.imp {c : GenericCall} {x : String} (h : c.Leaks limits evaluate context s x) :
    c.Leaks limits other context s x := by
  have hexpansion : Planned (fun _ => True) fun evaluate =>
      expansion limits evaluate context s c.name c.parameters c.body c.arguments :=
    planned_expansion (fun _ _ => trivial) (fun _ _ _ => trivial) c.parameters c.body
  have hbind : Planned (fun _ => True) fun evaluate =>
      bindParameters evaluate (Fields.without context (c.parameters.map (·.name))) s [] c.parameters c.arguments :=
    planned_bindParameters (fun _ _ => trivial) _ c.parameters [] c.arguments
  cases h with
  | displayed named repeats unlike => exact .displayed named repeats unlike
  | unbound binds parameter left => exact .unbound ((hbind.liftsTo he).done binds) parameter left
  | buried named expands inside outside => exact .buried named ((hexpansion.liftsTo he).done expands) inside outside
  | enclosed unnamed expands back refers other declared =>
    exact .enclosed unnamed ((hexpansion.liftsTo he).done expands) back refers other declared

end

/-- **The steps of a run keep nodes grounded**, where the names that stray in it are allowed.  By induction on the fuel,
with an evaluator that answers what the step comes to and nothing else. -/
theorem run_grounded {query : Query} (fuel : Nat) {k : Nat} {p : Point} (hp : Nested limits query k p)
    {allowed : String → Prop} {declared : List String} (hstrays : ∀ x, Strays limits query x → allowed x)
    (hsound : Sound allowed declared p.context p.state) (hnode : p.node.Grounded allowed declared) {m : Node}
    (h : (run limits fuel).answer p = .done m) : m.Grounded allowed declared := by
  induction fuel generalizing k p allowed declared m with
  | zero => cases h
  | succ fuel ih =>
    obtain ⟨s, evaluate, hs, hstep, hanswer, hasked⟩ := exists_step_of_run h
    have htidy : Tidy (Strays limits query) evaluate := by
      intro allowed declared context s n m hstrays hsound hnode hm
      obtain ⟨hinvokes, hdone⟩ := hasked context s n m hm
      exact ih (p := ⟨context, s, n⟩) (.invokes hp hinvokes) hstrays hsound hnode hdone
    rw [← stepAt_of_descend hs] at hstep
    refine stepAt_grounded htidy hstrays (fun s c x hc hl => ?_) hsound hnode hstep
    exact hstrays x ⟨k, p, fuel, s, c, hp, hc.imp hanswer, hl.imp hanswer⟩

/-- **A node to instantiate in a context**: no deferred operator, no bundle, and every open reference bound. -/
structure Node.ClosedIn (context : Context) (n : Node) : Prop where
  direct : n.everywhere Kind.isDirect = true
  bound : ∀ x ∈ n.references, context.has x = true

/-- **A context of nodes to instantiate in it.** -/
def Context.Closed (context : Context) : Prop := ∀ name m, context.get? name = some m → m.ClosedIn context

/-- **Only names that strayed dangle.**  What is made of a node whose references are bound, in a context of such nodes,
refers to bound names, inside of bundles too, and to names that strayed in the run.  No other name is left without a
generic, a bundle or the context to bind it. -/
theorem loose_of_instantiate {context : Context} {n out : Node} (hcontext : context.Closed) (hnode : n.ClosedIn context)
    (h : instantiate limits context n = .done out) :
    ∀ x ∈ out.loose, context.has x = true ∨ Strays limits (.node context n) x := by
  have hgrounded : ∀ {m : Node}, m.ClosedIn context →
      m.Grounded (fun x => context.has x = true ∨ Strays limits (.node context n) x) [] :=
    fun hm => grounded_of_isDirect hm.direct fun x hx => .inl (hm.bound x hx)
  have hsound : Sound (fun x => context.has x = true ∨ Strays limits (.node context n) x) [] context .initial := by
    refine ⟨fun name m hm => hgrounded (hcontext name m hm), by simp, fun frame hf => ?_⟩
    cases hf
  have hopens : Nested limits (.node context n) 0 ⟨context, .initial, n⟩ := .opens (Query.opens_node limits context n)
  have hout := run_grounded _ hopens (fun x => .inr) hsound (hgrounded hnode) h
  intro x hx
  exact (hout.loose hx).resolve_left List.not_mem_nil

theorem Context.closed_of_forall {context : Context}
    (h : ∀ e ∈ context, e.2.everywhere Kind.isDirect = true ∧ ∀ x ∈ e.2.references, context.has x = true) :
    context.Closed :=
  fun name m hm => ⟨(h (name, m) (Fields.mem_of_get? hm)).1, (h (name, m) (Fields.mem_of_get? hm)).2⟩

/-- Two generics that call each other share one bundle. -/
theorem loose_of_instantiate_ring :
    let left : Node := .generic [.free "T"] (.object [("right", .call (.reference "Right") [.reference "T"])])
    let right : Node := .generic [.free "T"] (.object [("left", .call (.reference "Left") [.reference "T"])])
    let context : Context := [("Left", left), ("Right", right)]
    let n : Node := .call (.reference "Left") [.number]
    let out : Node := .of (.cyclic [("Left<number>",
      .object [("right", .object [("left", .reference "Left<number>")])])] "Left<number>")
    context.Closed ∧ n.ClosedIn context ∧ instantiate {} context n = .done out ∧
      ∀ x ∈ out.loose, context.has x = true ∨ Strays {} (.node context n) x := by
  intro left right context n out
  have hcontext : context.Closed := Context.closed_of_forall (by decide +kernel)
  have hnode : n.ClosedIn context := ⟨by decide +kernel, by decide +kernel⟩
  have hout : instantiate {} context n = .done out := by with_unfolding_all rfl
  exact ⟨hcontext, hnode, hout, loose_of_instantiate hcontext hnode hout⟩

/-- A name that nothing binds is left in the result, although all references were bound. -/
def LeavesDangling (context : Context) (n : Node) (x : String) : Prop :=
  context.Closed ∧ n.ClosedIn context ∧
    ∃ out, instantiate {} context n = .done out ∧ x ∈ out.loose ∧ context.has x = false

/-- **A reference back that an inner bundle hides** dangles: the outer call does not find it.  So do a default that refers
to a later parameter, a repeated call with its properties in another order, and a parameter inside of a bundle. -/
theorem leaves_dangling :
    LeavesDangling
        [("A", .generic [.free "T"] (.object [("b", .call (.reference "B") [.reference "T"])])),
          ("B", .generic [.free "T"] (.object [("a", .call (.reference "A") [.reference "T"]),
            ("self", .call (.reference "B") [.reference "T"])]))]
        (.call (.reference "A") [.number]) "A<number>" ∧
      LeavesDangling
        [("F", .generic [.withDefault "A" .unknown (.reference "B"), .withDefault "B" .unknown .string] (.reference "A"))]
        (.call (.reference "F") []) "B" ∧
      LeavesDangling
        [("F", .generic [.free "T"]
          (.object [("next", .call (.reference "F") [.object [("b", .number), ("a", .number)]])]))]
        (.call (.reference "F") [.object [("a", .number), ("b", .number)]]) "F<{ b: number, a: number }>" ∧
      LeavesDangling
        [("(anonymous)<>", .array (.reference "(anonymous)<>"))]
        (.call (.call (.generic [] (.generic [.free "T"]
          (.call (.generic [] (.tuple [.reference "T", .reference "(anonymous)<>"])) []))) []) [.string]) "T" := by
  refine ⟨?_, ?_, ?_, ?_⟩
  · refine ⟨Context.closed_of_forall (by decide +kernel), ⟨by decide +kernel, by decide +kernel⟩,
      .object [("b", .of (.cyclic [("B<number>",
        .object [("a", .reference "A<number>"), ("self", .reference "B<number>")])] "B<number>"))], ?_⟩
    exact ⟨by with_unfolding_all rfl, by decide +kernel, by decide +kernel⟩
  · refine ⟨Context.closed_of_forall (by decide +kernel), ⟨by decide +kernel, by decide +kernel⟩, .reference "B", ?_⟩
    exact ⟨by with_unfolding_all rfl, by decide +kernel, by decide +kernel⟩
  · refine ⟨Context.closed_of_forall (by decide +kernel), ⟨by decide +kernel, by decide +kernel⟩,
      .object [("next", .reference "F<{ b: number, a: number }>")], ?_⟩
    exact ⟨by with_unfolding_all rfl, by decide +kernel, by decide +kernel⟩
  · refine ⟨Context.closed_of_forall (by decide +kernel), ⟨by decide +kernel, by decide +kernel⟩,
      .of (.cyclic [("(anonymous)<>", .tuple [.reference "T", .reference "(anonymous)<>"])] "(anonymous)<>"), ?_⟩
    exact ⟨by with_unfolding_all rfl, by decide +kernel, by decide +kernel⟩

end Schemata
