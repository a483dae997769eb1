import Schemata.Proofs.Instantiation.Concrete
import Schemata.Proofs.Node.Names
/-!
# Nodes to expand

- `Node.Expandable refers calls n`: the node is made of plain forms, of references that satisfy `refers`, and of calls of
  names that satisfy `calls`; bundles in it are closed and stay.

Traversals and substitution keep a node expandable, and it is concrete when there is nothing that it may refer to or call
(`Expandable.isConcrete`).
-/
namespace Schemata

theorem Kind.isPlain_of_shape {α β : Type} {kind : Kind α} {other : Kind β} (h : kind.shape = other.shape) :
    kind.isPlain = other.isPlain := by
  cases kind <;> cases other <;> first | rfl | cases h

theorem Kind.isStructural_of_shape {α β : Type} {kind : Kind α} {other : Kind β} (h : kind.shape = other.shape) :
    kind.isStructural = other.isStructural := by
  cases kind <;> cases other <;> first | rfl | cases h

namespace Node

/-- **A node to expand**: there are references and calls of names in it, and nothing else to instantiate. -/
inductive Expandable (refers calls : String → Prop) : Node → Prop
  | reference {n : Node} {name : String} (kind : n.kind = .ref name) (meets : refers name) : Expandable refers calls n
  | call {n target : Node} {arguments : List Node} {name : String} (kind : n.kind = .call target arguments)
      (named : target.kind = .ref name) (meets : calls name) (operands : ∀ a ∈ arguments, Expandable refers calls a) :
      Expandable refers calls n
  | bundle {n : Node} {definitions : Fields Node} {root : String} (kind : n.kind = .cyclic definitions root) :
      Expandable refers calls n
  | plain {n : Node} (structural : n.kind.isStructural = true) (plain : n.kind.isPlain = true)
      (parts : ∀ c ∈ n.kind.parts, Expandable refers calls c) : Expandable refers calls n

namespace Expandable

variable {refers calls wider more : String → Prop} {n m : Node}

theorem of_kind (h : n.Expandable refers calls) (hk : m.kind = n.kind) : m.Expandable refers calls := by
  cases h with
  | reference kind meets => exact .reference (hk.trans kind) meets
  | call kind named meets operands => exact .call (hk.trans kind) named meets operands
  | bundle kind => exact .bundle (hk.trans kind)
  | plain structural plain parts => exact .plain (hk ▸ structural) (hk ▸ plain) (hk ▸ parts)

/-- **What matters of a node to expand are its open references**, those that it calls included. -/
theorem imp (h : n.Expandable refers calls) (hr : ∀ x ∈ n.references, refers x → wider x)
    (hcalls : ∀ x ∈ n.references, calls x → more x) : n.Expandable wider more := by
  -- Nothing is declared in a node to expand, so the references of the parts are references of the node.
  have hpart : ∀ {n c : Node}, (∀ name, n.kind ≠ .ref name) → c ∈ n.children → n.kind.declared = [] →
      ∀ x ∈ c.references, x ∈ n.references := fun href hc hd x hx =>
    (mem_references_iff href).2 ⟨_, hc, hx, hd ▸ List.not_mem_nil⟩
  have hself : ∀ {n : Node} {name : String}, n.kind = .ref name → name ∈ n.references := fun hk => by
    rw [references, referencesUnder_eq, hk]
    exact List.mem_singleton_self _
  induction h with
  | reference kind meets => exact .reference kind (hr _ (hself kind) meets)
  | @call n target arguments name kind named meets _ ih =>
    have hchild : ∀ c ∈ target :: arguments, ∀ x ∈ c.references, x ∈ n.references := fun c hc =>
      hpart (by simp [kind]) (by rw [children, kind]; exact hc) (by rw [kind]; rfl)
    refine .call kind named (hcalls name (hchild target List.mem_cons_self name (hself named)) meets) fun a ha => ?_
    have hrefs := hchild a (List.mem_cons_of_mem _ ha)
    exact ih a ha (fun x hx => hr x (hrefs x hx)) fun x hx => hcalls x (hrefs x hx)
  | bundle kind => exact .bundle kind
  | @plain n structural plain _ ih =>
    obtain ⟨hchildren, hdeclared, href⟩ := form_of_isStructural structural
    refine .plain structural plain fun c hc => ?_
    have hrefs := hpart href (hchildren ▸ hc) hdeclared
    exact ih c hc (fun x hx => hr x (hrefs x hx)) fun x hx => hcalls x (hrefs x hx)

theorem mono (h : n.Expandable refers calls) (hr : ∀ x, refers x → wider x) (hc : ∀ x, calls x → more x) :
    n.Expandable wider more := h.imp (fun x _ => hr x) fun x _ => hc x

/-- **Where nothing may be referred to or called, nothing is left to instantiate.** -/
theorem isConcrete (h : n.Expandable refers calls) (hr : ∀ x, ¬ refers x) (hc : ∀ x, ¬ calls x) : n.isConcrete = true := by
  induction h with
  | reference _ meets => exact absurd meets (hr _)
  | call _ _ meets => exact absurd meets (hc _)
  | bundle kind => exact isConcrete_of_bundle kind
  | @plain n structural plain _ ih =>
    refine isConcrete_of_parts plain (fun name hk => ?_) fun c hc => ih c (Kind.mem_parts_of_mem_children hc)
    rw [hk] at structural
    cases structural

theorem traverse (hstructural : n.kind.isStructural = true) (hplain : n.kind.isPlain = true) {f : Node → Outcome Node}
    {kind : Kind Node} (ht : n.kind.traverse f = .done kind)
    (hf : ∀ c ∈ n.kind.parts, ∀ d, f c = .done d → d.Expandable refers calls) :
    (n.rebuild kind).Expandable refers calls := by
  obtain ⟨hshape, hparts⟩ := Kind.forall₂_of_traverse ht
  refine .plain ((Kind.isStructural_of_shape hshape).trans hstructural) ((Kind.isPlain_of_shape hshape).trans hplain) ?_
  intro d hd
  obtain ⟨c, hc, hcd⟩ := exists_of_mem_right hparts hd
  exact hf c hc d hcd

/-- **Substitution keeps a node to expand**: what is referred to is bound, or may be referred to outside, and what is called
is not bound. -/
theorem substitute {bindings : Fields Node} (h : n.Expandable refers calls)
    (hb : ∀ name m, bindings.get? name = some m → m.Expandable wider more)
    (hr : ∀ x, refers x → bindings.has x = true ∨ wider x) (hc : ∀ x, calls x → bindings.has x = false ∧ more x) :
    (n.substitute bindings).Expandable wider more := by
  induction h with
  | @reference n name kind meets =>
    rw [substitute_eq, kind]
    dsimp only
    cases hg : bindings.get? name with
    | some m => exact (hb name m hg).of_kind rfl
    | none =>
      refine .reference kind ((hr name meets).resolve_left ?_)
      rw [Fields.has, hg]
      decide
  | @call n target arguments name kind named meets _ ih =>
    obtain ⟨hfree, hcall⟩ := hc name meets
    have hg : bindings.get? name = none := by simpa [Fields.has] using hfree
    have htarget : target.substitute bindings = target := by
      rw [substitute_eq, named]
      simp only [hg]
    have hkind : (n.substitute bindings).kind = .call target (arguments.map (Node.substitute bindings)) := by
      rw [substitute_eq, kind]
      simp only [rebuild, Kind.map, htarget]
    exact .call hkind named hcall (List.forall_mem_map.2 ih)
  | @bundle n definitions root kind =>
    rw [substitute_eq, kind]
    exact .bundle kind
  | @plain n structural plain _ ih =>
    have hrebuilt : n.substitute bindings = n.rebuild (n.kind.map (Node.substitute bindings)) := by
      rw [substitute_eq]
      cases hk : n.kind <;> rw [hk] at structural <;> first
        | rfl
        | cases structural
    have hshape : (n.kind.map (Node.substitute bindings)).shape = n.kind.shape := Kind.shape_map _ _
    rw [hrebuilt]
    refine .plain ((Kind.isStructural_of_shape hshape).trans structural) ((Kind.isPlain_of_shape hshape).trans plain) ?_
    simp only [rebuild, Kind.parts_map, List.forall_mem_map]
    exact ih

end Expandable
end Node
end Schemata
