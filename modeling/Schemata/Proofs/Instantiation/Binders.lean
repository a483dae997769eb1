import Schemata.Proofs.Instantiation.Renaming
import Schemata.Proofs.Node.Binders
/-!
# The names of binders

The key of a mapped type is bound by an entry of the context, so definitions of the context that refer to a name of that
kind see it too: the name of a binder matters (`captures_definition`).

It does not matter for a name that the context does not have, as long as a run keeps names apart from texts
(`instantiate_renameBinders`).
-/
namespace Schemata

open Planned

variable {limits : Limits} {context : Context} {n : Node}

/-- All names in a context: those that it binds, and those in what it binds. -/
def Context.allNames (context : Context) : List String := context.flatMap fun e => e.1 :: e.2.names

theorem Context.rename_of_fixed {ρ : String → String} (h : ∀ x ∈ context.allNames, ρ x = x) :
    context.rename ρ = context := by
  refine (List.map_congr_left fun e he => ?_).trans (List.map_id context)
  have hnames : ∀ x ∈ e.1 :: e.2.names, ρ x = x := fun x hx => h x (List.mem_flatMap.2 ⟨e, he, hx⟩)
  rw [List.forall_mem_cons] at hnames
  exact Prod.ext hnames.1 (Node.rename_of_fixed hnames.2)

/-- Where a name is free of other uses, renaming its binders is exchanging it with a name that does not occur. -/
theorem Node.renameBinders_eq_exchange {a b : PlainName} (hnode : ∀ x ∈ n.names, x ≠ a.name → exchange a b x = x)
    (hbound : a.name ∉ (n.renameBinders a.name b.name).names) :
    n.renameBinders a.name b.name = n.rename (exchange a b) := by
  refine (Node.renameBound_eq_rename hbound).trans (Node.rename_congr fun x hx => ?_)
  by_cases hxa : x = a.name
  · rw [replaceName, if_pos hxa, hxa, exchange_of_simple a b a.simple, if_pos rfl]
  · rw [replaceName, if_neg hxa, hnode x hx hxa]

/-- **The name of a binder does not matter** where it is that of a binder only: the result with another name is the result,
renamed alike, and the same result if nothing in it has either name. -/
theorem instantiate_renameBinders (limits : Limits) {context : Context} {n : Node} (a b : PlainName)
    (hcontext : ∀ x ∈ context.allNames, exchange a b x = x)
    (hnode : ∀ x ∈ n.names, x ≠ a.name → exchange a b x = x)
    (hbound : a.name ∉ (n.renameBinders a.name b.name).names)
    (hnatural : Natural (exchange a b) limits (.node context n)) :
    instantiate limits context (n.renameBinders a.name b.name) =
        (instantiate limits context n).rename (exchange a b) (Node.rename (exchange a b)) ∧
      ∀ r, instantiate limits context n = .done r → (∀ x ∈ r.names, exchange a b x = x) →
        instantiate limits context (n.renameBinders a.name b.name) = .done r := by
  have hrenamed := instantiate_rename (consistent_exchange a b) hnatural
  rw [Context.rename_of_fixed hcontext, ← Node.renameBinders_eq_exchange hnode hbound] at hrenamed
  refine ⟨hrenamed, fun r hr hnames => ?_⟩
  rw [hrenamed, hr]
  exact congrArg Outcome.done (Node.rename_of_fixed hnames)

/-! ## Runs without calls -/

/-- A kind at which nothing is called and nothing is reduced. -/
def Kind.isInert {α : Type} : Kind α → Bool
  | .call .. | .deferred .. => false
  | _ => true

/-- **Nothing is called and nothing is reduced** around a node. -/
structure Point.Inert (p : Point) : Prop where
  context : ∀ name n, p.context.get? name = some n → n.everywhere Kind.isInert = true
  node : p.node.everywhere Kind.isInert = true

theorem Point.Inert.part {p : Point} (h : p.Inert) {c : Node} (hc : c ∈ p.node.kind.parts) (s : State) :
    Point.Inert ⟨p.context, s, c⟩ :=
  ⟨h.context, (Node.everywhere_iff.1 h.node).2 c hc⟩

/-- Where nothing is called and nothing is reduced, steps come to nothing else. -/
theorem planned_stepAt_inert {p : Point} (h : p.Inert) : Planned Point.Inert (stepAt limits p) := by
  cases hd : p.state.descend limits with
  | done s =>
    have heq : stepAt limits p = fun evaluate => step limits evaluate p.context s p.node :=
      funext fun evaluate => stepAt_of_descend hd evaluate
    rw [heq]
    obtain ⟨context, state, kind, modifiers, annotations⟩ := p
    cases kind with
    | call | deferred => cases (Node.everywhere_iff.1 h.node).1
    | cyclic definitions root => exact const _
    | ref name =>
      simp only [step]
      cases hget : context.get? name with
      | none => exact const _
      | some target =>
        dsimp only
        split
        · exact const _
        · exact then_const (question ⟨h.context, h.context name target hget⟩) _
    | generic parameters body =>
      refine then_const (traverse fun c hc => question ⟨fun name n hn => ?_, (h.part hc s).node⟩) _
      rw [Fields.get?_without] at hn
      split at hn
      · cases hn
      · exact h.context name n hn
    | _ => exact then_const (traverse fun c hc => question (h.part hc s)) _
  | failed e =>
    have heq : stepAt limits p = fun _ => .failed e := funext fun evaluate => by rw [stepAt, hd]; rfl
    rw [heq]
    exact const _
  | exhausted =>
    have heq : stepAt limits p = fun _ => .exhausted := funext fun evaluate => by rw [stepAt, hd]; rfl
    rw [heq]
    exact const _

theorem eq_of_run_text {fuel : Nat} {s : State} {text : String} {m : Node}
    (h : run limits fuel context s (.text text) = .done m) : m = .text text := by
  cases fuel with
  | zero => cases h
  | succ fuel =>
    obtain ⟨t, -, h⟩ := Outcome.bind_eq_done.1 h
    cases h
    rfl

/-- **A mapped type with one key** comes to the key, and to its body with the key bound. -/
theorem invokes_mapped {s t : State} (hd : s.descend limits = .done t) {binder key : String} {body : Node} {q : Point}
    (hq : Invokes limits ⟨context, s, .mapped (.bounded binder (.text key)) body none⟩ q) :
    q = ⟨context, t, .text key⟩ ∨ q = ⟨context.insert binder (.text key), t, body⟩ := by
  obtain ⟨fuel, hq⟩ := hq
  let operands : List Node := [.parameter (.bounded binder (.text key)), body]
  let setting : Evaluator → Setting := settingOf limits.maxTemplateCombinations context t .mapped
  have hcan : canReduce context .mapped operands = true := rfl
  have heq : stepAt limits ⟨context, s, .mapped (.bounded binder (.text key)) body none⟩ = fun evaluate =>
      reduce (setting evaluate) (.mapped (.bounded binder (.text key)) body none) operands [] :=
    funext fun evaluate => stepAt_of_descend hd evaluate
  have hmapped : Planned (fun _ => True) fun evaluate => mappedType (setting evaluate) operands :=
    planned_mappedType (fun _ _ => trivial) operands
  have hproperties : ∀ keys, Planned (fun _ => True) fun evaluate => mappedProperties (setting evaluate) binder body none [] keys :=
    planned_mappedProperties (fun _ _ => trivial) binder body none []
  simp only [heq, reduce, setting, settingOf, hcan, if_true] at hq
  replace hq : Asks (fun evaluate => mappedType (setting evaluate) operands) (run limits fuel) q := asks_of_then_const hmapped hq
  simp only [mappedType, operands, setting, settingOf, Node.parameter, Node.of, List.length_nil, Nat.not_lt_zero, if_false] at hq
  have hsource : Planned (fun r => r = ⟨context, t, .text key⟩) fun evaluate => evaluate context t (.text key) := question rfl
  refine Or.elim ((asks_bind_iff hsource fun source => (?planned : Planned (fun _ => True) _)).1 hq) ?key ?body
  case planned =>
    split
    · exact then_const (hproperties _) _
    · exact then_const (question trivial) _
    · exact const _
  case key => exact fun hq => .inl (hsource.allowed_of_asks hq)
  case body =>
    rintro ⟨source, hrun, hq⟩
    obtain rfl : source = .text key := eq_of_run_text hrun
    have hone : (fun evaluate => mappedProperties (setting evaluate) binder body none [] [.string key]) = fun evaluate =>
        evaluate (context.insert binder (.text key)) t body >>= fun type => .done [(key, type)] := rfl
    have hbody : Planned (fun r => r = ⟨context.insert binder (.text key), t, body⟩) fun evaluate =>
        evaluate (context.insert binder (.text key)) t body := question rfl
    have hproperties := then_const hbody fun type => .done [(key, type)]
    rw [← hone] at hproperties
    exact .inr (hproperties.allowed_of_asks (asks_of_then_const hproperties hq))

/-- **A mapped type with one key, around a body without calls**, in a context without calls, keeps names apart from
texts. -/
theorem natural_mapped {ρ : String → String} {binder key : String} {body : Node}
    (hcontext : ∀ name m, context.get? name = some m → m.everywhere Kind.isInert = true)
    (hbody : body.everywhere Kind.isInert = true) :
    Natural ρ limits (.node context (.mapped (.bounded binder (.text key)) body none)) := by
  let n : Node := .mapped (.bounded binder (.text key)) body none
  have hkey : (Node.text key).everywhere Kind.isInert = true := Node.everywhere_iff.2 ⟨rfl, fun _ hc => by cases hc⟩
  have hall : ∀ k p, Nested limits (.node context n) k p → p = ⟨context, .initial, n⟩ ∨ p.Inert := by
    intro k p hp
    induction hp with
    | opens hopens =>
      obtain ⟨fuel, hasks⟩ := hopens
      have hstart : Planned (fun q => q = ⟨context, .initial, n⟩) fun evaluate => evaluate context .initial n := question rfl
      exact .inl ((then_const hstart _).allowed_of_asks hasks)
    | invokes _ hinvokes ih =>
      refine .inr ?_
      rcases ih with rfl | hinert
      · obtain ⟨t, hd, -⟩ := hinvokes.heir
        rcases invokes_mapped hd hinvokes with rfl | rfl
        · exact ⟨hcontext, hkey⟩
        · refine ⟨fun name m hm => ?_, hbody⟩
          rw [Fields.get?_insert] at hm
          split at hm
          · cases hm
            exact hkey
          · exact hcontext name m hm
      · obtain ⟨fuel, hasks⟩ := hinvokes
        exact (planned_stepAt_inert hinert).allowed_of_asks hasks
  constructor
  · intro k p fuel s c hp hc
    obtain ⟨-, target, operands, hk, -⟩ := hc
    rcases hall k p hp with rfl | hp
    · cases hk
    · have hinert := (Node.everywhere_iff.1 hp.node).1
      rw [hk] at hinert
      cases hinert
  · intro k p operator operands options hp hk
    rcases hall k p hp with rfl | hp
    · cases hk
      intro operand definitions hoperator
      cases hoperator
    · have hinert := (Node.everywhere_iff.1 hp.node).1
      rw [hk] at hinert
      cases hinert

/-- A mapped type over a definition of the context, with its key called `K` or `L`. -/
theorem instantiate_renameBinders_mapped :
    instantiate {} [("Held", .number)]
      (Node.renameBinders "K" "L" (.mapped (.bounded "K" (.text "a")) (.tuple [.reference "K", .reference "Held"]) none)) =
        .done (.object [("a", .tuple [.text "a", .number])]) := by
  let a : PlainName := ⟨"K", by decide, by decide⟩
  let b : PlainName := ⟨"L", by decide, by decide⟩
  let context : Context := [("Held", .number)]
  let n : Node := .mapped (.bounded "K" (.text "a")) (.tuple [.reference "K", .reference "Held"]) none
  have hheld : exchange a b "Held" = "Held" := (exchange_of_simple a b (by decide)).trans (by decide)
  have hcontext : ∀ x ∈ context.allNames, exchange a b x = x := by
    rw [show context.allNames = ["Held"] by decide +kernel]
    simpa using hheld
  have hnode : ∀ x ∈ n.names, x ≠ a.name → exchange a b x = x := by
    rw [show n.names = ["K", "K", "Held"] by decide +kernel]
    simpa [a] using hheld
  have hbound : a.name ∉ (n.renameBinders a.name b.name).names := by decide +kernel
  have hnatural : Natural (exchange a b) {} (.node context n) := by
    refine natural_mapped (fun name m hm => ?_) (by decide +kernel)
    have hmem := Fields.mem_of_get? hm
    simp only [context, List.mem_singleton, Prod.mk.injEq] at hmem
    rw [hmem.2]
    decide +kernel
  refine (instantiate_renameBinders {} a b hcontext hnode hbound hnatural).2 _ (by with_unfolding_all rfl) ?_
  rw [show (Node.object [("a", .tuple [.text "a", .number])]).names = [] by decide +kernel]
  simp

/-! ## Where the name matters -/

/-- **The result depends on the name of a binder**, though the other name occurs nowhere: what was instantiated under the
old name, with its binders renamed, is not what is instantiated under the new one. -/
def BinderMatters (context : Context) (n : Node) (old new : String) : Prop :=
  new ∉ context.allNames ∧ new ∉ n.names ∧ ∃ r r', instantiate {} context n = .done r ∧
    instantiate {} context (n.renameBinders old new) = .done r' ∧ Node.sameAs (r.renameBinders old new) r' = false

/-- **A binder captures a name that a definition of the context refers to**: the key of a mapped type is seen in its place,
and the parameter of a generic hides it. -/
theorem captures_definition :
    BinderMatters [("K", .number), ("Held", .object [("v", .reference "K")])]
        (.mapped (.bounded "K" (.text "a")) (.reference "Held") none) "K" "L" ∧
      BinderMatters [("K", .number), ("Held", .object [("v", .reference "K")])]
        (.generic [.free "K"] (.reference "Held")) "K" "L" := by
  constructor
  · refine ⟨by decide +kernel, by decide +kernel, .object [("a", .object [("v", .text "a")])],
      .object [("a", .object [("v", .number)])], ?_⟩
    exact ⟨by with_unfolding_all rfl, by with_unfolding_all rfl, by decide +kernel⟩
  · refine ⟨by decide +kernel, by decide +kernel, .generic [.free "K"] (.object [("v", .reference "K")]),
      .generic [.free "L"] (.object [("v", .number)]), ?_⟩
    exact ⟨by with_unfolding_all rfl, by with_unfolding_all rfl, by decide +kernel⟩

end Schemata
