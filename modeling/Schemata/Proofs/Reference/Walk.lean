import Schemata.Proofs.Reference.Cycle
/-!
# The cycle check and chains of names

The check walks the references of a node depth first and keeps a memory of the names that led nowhere back, filled under
one path and consulted under others.

- `Visible`: a reference stands in a node outside of generics and bundles.
- `Chain`: names that lead from a node, each visible in the binding of the one before.
- `Walks`: the walk with its memory, and without a bound on how deep it goes.

Main statement: `leadsBack_iff_chain`.  The walk ends, and neither the memory nor the bound shows in its answer: it is yes
exactly if some chain comes to a name of the path, or to one of its own names, again.
-/
namespace Schemata

/-! ## Chains -/

/-- **A reference to the name stands in a node**, outside of generics and bundles. -/
inductive Visible (name : String) : Node → Prop
  | reference {n : Node} (h : n.kind = .ref name) : Visible name n
  | child {n c : Node} (unbinding : ∀ parameters body, n.kind ≠ .generic parameters body) (mem : c ∈ n.children)
    (h : Visible name c) : Visible name n

theorem visible_iff_mem_exposed {name : String} {n : Node} : Visible name n ↔ name ∈ n.exposed := by
  constructor
  · intro h
    induction h with
    | reference h =>
      rw [Node.exposed_eq, h]
      exact List.mem_singleton_self name
    | @child n c unbinding mem _ ih =>
      rw [Node.exposed_eq]
      rw [Node.children] at mem
      cases hk : n.kind with
      | generic parameters body => exact absurd hk (unbinding parameters body)
      | ref =>
        rw [hk] at mem
        cases mem
      | _ => exact List.mem_flatMap.2 ⟨c, mem, ih⟩
  · intro h
    induction n using Node.induction_on_parts with
    | node n ih =>
      rw [Node.exposed_eq] at h
      cases hk : n.kind with
      | ref other =>
        rw [hk, List.mem_singleton] at h
        exact .reference (h ▸ hk)
      | generic =>
        rw [hk] at h
        cases h
      | _ =>
        rw [hk] at h
        obtain ⟨c, hc, h⟩ := List.mem_flatMap.1 h
        exact .child (by simp [hk]) hc (ih c (Kind.mem_parts_of_mem_children hc) h)

/-- **A chain of names from a node**: the first is visible in it, each further one in the binding of the one before. -/
inductive Chain (context : Context) : Node → List String → Prop
  | one {n : Node} {name : String} (visible : Visible name n) : Chain context n [name]
  | cons {n target : Node} {name : String} {rest : List String} (visible : Visible name n)
    (bound : context.get? name = some target) (h : Chain context target rest) : Chain context n (name :: rest)

/-- **Some walk meets a name again exactly if some chain does**, at its end. -/
theorem meets_iff_chain {context : Context} {path : List String} {n : Node} :
    Meets context path n ↔
      ∃ earlier last, Chain context n (earlier ++ [last]) ∧ (last ∈ path ∨ last ∈ earlier) := by
  constructor
  · intro h
    induction h with
    | @here path n name exposed again => exact ⟨[], name, .one (visible_iff_mem_exposed.2 exposed), .inl again⟩
    | @there path n target name exposed bound _ ih =>
      obtain ⟨earlier, last, hchain, hlast⟩ := ih
      refine ⟨name :: earlier, last, .cons (visible_iff_mem_exposed.2 exposed) bound hchain, ?_⟩
      rcases hlast with hlast | hlast
      · rcases List.mem_cons.1 hlast with rfl | hlast
        · exact .inr List.mem_cons_self
        · exact .inl hlast
      · exact .inr (List.mem_cons_of_mem name hlast)
  · rintro ⟨earlier, last, hchain, hlast⟩
    induction earlier generalizing path n with
    | nil =>
      have hpath : last ∈ path := hlast.resolve_right List.not_mem_nil
      cases hchain with
      | one visible => exact .here (visible_iff_mem_exposed.1 visible) hpath
      | cons visible _ _ => exact .here (visible_iff_mem_exposed.1 visible) hpath
    | cons name earlier ih =>
      obtain ⟨target, visible, bound, hrest⟩ : ∃ target, Visible name n ∧ context.get? name = some target ∧
          Chain context target (earlier ++ [last]) := by
        rw [List.cons_append] at hchain
        generalize hnames : earlier ++ [last] = names at hchain
        cases hchain with
        | one => simp at hnames
        | cons visible bound h => exact ⟨_, visible, bound, h⟩
      refine .there (visible_iff_mem_exposed.1 visible) bound (ih hrest ?_)
      rcases hlast with hlast | hlast
      · exact .inl (List.mem_cons_of_mem name hlast)
      · rcases List.mem_cons.1 hlast with rfl | hlast
        · exact .inl List.mem_cons_self
        · exact .inr hlast

/-! ## The walk by itself -/

/-- **Walking names one after the other**, without a bound.  The outcome is the memory at the end, or none where a name
of the path is met again. -/
inductive Walks (context : Context) : List String → List String → List String → Option (List String) → Prop
  | nil {path cleared : List String} : Walks context path cleared [] (some cleared)
  | again {path cleared names : List String} {name : String} (h : name ∈ path) :
    Walks context path cleared (name :: names) none
  | remembered {path cleared names : List String} {name : String} {outcome : Option (List String)} (new : name ∉ path)
    (h : name ∈ cleared) (rest : Walks context path cleared names outcome) :
    Walks context path cleared (name :: names) outcome
  | unbound {path cleared names : List String} {name : String} {outcome : Option (List String)} (new : name ∉ path)
    (unknown : name ∉ cleared) (h : context.get? name = none) (rest : Walks context path cleared names outcome) :
    Walks context path cleared (name :: names) outcome
  | back {path cleared names : List String} {name : String} {target : Node} (new : name ∉ path)
    (unknown : name ∉ cleared) (bound : context.get? name = some target)
    (below : Walks context (name :: path) cleared target.exposed none) :
    Walks context path cleared (name :: names) none
  | cleared {path cleared known names : List String} {name : String} {target : Node} {outcome : Option (List String)}
    (new : name ∉ path) (unknown : name ∉ cleared) (bound : context.get? name = some target)
    (below : Walks context (name :: path) cleared target.exposed (some known))
    (rest : Walks context path (name :: known) names outcome) : Walks context path cleared (name :: names) outcome

/-- A walk has one outcome. -/
theorem Walks.unique {context : Context} {path cleared names : List String} {outcome other : Option (List String)}
    (h : Walks context path cleared names outcome) (h' : Walks context path cleared names other) : other = outcome := by
  induction h generalizing other with
  | nil =>
    cases h'
    rfl
  | again hpath =>
    cases h' with
    | again => rfl
    | remembered new | unbound new | back new | cleared new => exact absurd hpath new
  | remembered new hknown _ ih =>
    cases h' with
    | again hpath => exact absurd hpath new
    | remembered _ _ rest => exact ih rest
    | unbound _ unknown | back _ unknown | cleared _ unknown => exact absurd hknown unknown
  | unbound new unknown hnone _ ih =>
    cases h' with
    | again hpath => exact absurd hpath new
    | remembered _ hknown => exact absurd hknown unknown
    | unbound _ _ _ rest => exact ih rest
    | back _ _ bound | cleared _ _ bound =>
      rw [hnone] at bound
      cases bound
  | back new unknown bound _ ih =>
    cases h' with
    | again => rfl
    | remembered _ hknown => exact absurd hknown unknown
    | unbound _ _ hnone =>
      rw [bound] at hnone
      cases hnone
    | back => rfl
    | cleared _ _ bound' below =>
      rw [bound] at bound'
      cases bound'
      cases ih below
  | cleared new unknown bound _ _ ih ih' =>
    cases h' with
    | again hpath => exact absurd hpath new
    | remembered _ hknown => exact absurd hknown unknown
    | unbound _ _ hnone =>
      rw [bound] at hnone
      cases hnone
    | back _ _ bound' below =>
      rw [bound] at bound'
      cases bound'
      cases ih below
    | cleared _ _ bound' below rest =>
      rw [bound] at bound'
      cases bound'
      cases ih below
      exact ih' rest

/-- Where as many names are bound as the context has, no other name is. -/
theorem get?_eq_none_of_length_le {context : Context} {names : List String} (hnd : names.Nodup)
    (hb : ∀ name ∈ names, context.has name) (hall : context.length ≤ names.length) {name : String} (hn : name ∉ names) :
    context.get? name = none := by
  by_contra hbound
  have hlen : (name :: names).length ≤ context.length := by
    refine length_le_of_bound (List.nodup_cons.2 ⟨hn, hnd⟩) fun other ho => ?_
    rcases List.mem_cons.1 ho with rfl | ho
    · exact Option.ne_none_iff_isSome.1 hbound
    · exact hb other ho
  simp only [List.length_cons] at hlen
  omega

/-- **The bound never ends a walk**: a path holds each bound name once, so with as much fuel as the context has names the
walk ends by itself.  By induction on the fuel, and along the names. -/
theorem walks_foldlM {context : Context} {start : List String} {fuel : Nat} {stack cleared names : List String}
    (hnd : stack.Nodup) (hb : ∀ name ∈ stack, context.has name) (hfuel : context.length ≤ stack.length + fuel) :
    Walks context (stack ++ start) cleared names (names.foldlM (context.follow fuel (stack ++ start)) cleared) := by
  induction fuel generalizing stack cleared names with
  | zero =>
    induction names generalizing cleared with
    | nil => exact .nil
    | cons name names ih =>
      rw [List.foldlM_cons, Context.follow]
      by_cases hpath : name ∈ stack ++ start
      · rw [if_pos (by simpa using hpath)]
        exact .again hpath
      rw [if_neg (by simpa using hpath)]
      have hunbound : context.get? name = none :=
        get?_eq_none_of_length_le hnd hb hfuel fun hs => hpath (List.mem_append_left _ hs)
      by_cases hknown : name ∈ cleared
      · exact .remembered hpath hknown ih
      · exact .unbound hpath hknown hunbound ih
  | succ fuel ihFuel =>
    induction names generalizing cleared with
    | nil => exact .nil
    | cons name names ih =>
      rw [List.foldlM_cons, Context.follow]
      by_cases hpath : name ∈ stack ++ start
      · rw [if_pos (by simpa using hpath)]
        exact .again hpath
      rw [if_neg (by simpa using hpath)]
      by_cases hknown : name ∈ cleared
      · rw [if_pos (by simpa using hknown)]
        exact .remembered hpath hknown ih
      rw [if_neg (by simpa using hknown)]
      cases hbound : context.get? name with
      | none => exact .unbound hpath hknown hbound ih
      | some target =>
        have hstack : (name :: stack).Nodup :=
          List.nodup_cons.2 ⟨fun hs => hpath (List.mem_append_left _ hs), hnd⟩
        have hhas : ∀ other ∈ name :: stack, context.has other := by
          intro other ho
          rcases List.mem_cons.1 ho with rfl | ho
          · simp [Fields.has, hbound]
          · exact hb other ho
        have hbelow : Walks context (name :: (stack ++ start)) cleared target.exposed
            (target.exposed.foldlM (context.follow fuel (name :: (stack ++ start))) cleared) :=
          ihFuel hstack hhas (by simp only [List.length_cons]; omega)
        dsimp only
        cases hfold : target.exposed.foldlM (context.follow fuel (name :: (stack ++ start))) cleared with
        | none =>
          rw [hfold] at hbelow
          exact .back hpath hknown hbound hbelow
        | some known =>
          rw [hfold] at hbelow
          exact .cleared hpath hknown hbound hbelow ih

/-! ## The check -/

/-- **The memoised cycle check is exactly reachability.**  The walk from the references of a node ends, with one outcome,
and the check answers by it.  The answer is yes if and only if there is a chain of names from the node whose last name is
on the path or stands in the chain before. -/
theorem leadsBack_iff_chain (path : List String) (context : Context) (n : Node) :
    (∃ outcome, (∀ other, Walks context path [] n.exposed other ↔ other = outcome) ∧
      leadsBack path context n = outcome.isNone) ∧
    (leadsBack path context n = true ↔
      ∃ earlier last, Chain context n (earlier ++ [last]) ∧ (last ∈ path ∨ last ∈ earlier)) := by
  have hwalks : Walks context path [] n.exposed (n.exposed.foldlM (context.follow context.length path) []) :=
    walks_foldlM (List.nodup_nil : ([] : List String).Nodup) (fun _ h => by cases h) (by simp)
  refine ⟨⟨_, fun other => ⟨hwalks.unique, ?_⟩, rfl⟩, (leadsBack_iff path context n).trans meets_iff_chain⟩
  rintro rfl
  exact hwalks

end Schemata
