import Schemata.Proofs.Module.Assembly
import Schemata.Proofs.Operator.Opening
/-!
# Following references

To open a reference is to open the bundle around its definition, which may show further references.  As many are
followed one after the other as the context has names, and one more.

- `Setting.followed`: what a reference is opened to, with so many references left.
- `Outcome.Extends x y`: `y` is what `x` is, unless `x` was left open.

Main statement: `openSubject_eq_exhausted_iff`.  The bound cuts nothing short: what is still open there is open however
many references are followed.
-/
namespace Schemata

/-! ## Outcomes that were left open -/

/-- **An outcome is the same, unless it was left open.** -/
def Outcome.Extends {α : Type} (x y : Outcome α) : Prop := x = .exhausted ∨ y = x

namespace Outcome

variable {α β : Type} {x y : Outcome α}

theorem Extends.refl (x : Outcome α) : x.Extends x := .inr rfl

theorem Extends.ne_exhausted (h : x.Extends y) (hx : x ≠ .exhausted) : y ≠ .exhausted := by
  rcases h with rfl | rfl
  · exact absurd rfl hx
  · exact hx

theorem Extends.bind {f g : α → Outcome β} (h : x.Extends y) (hf : ∀ a, (f a).Extends (g a)) :
    (x >>= f).Extends (y >>= g) := by
  rcases h with rfl | rfl
  · exact .inl rfl
  · cases y with
    | done a => exact hf a
    | failed e => exact .refl _
    | exhausted => exact .refl _

theorem Extends.collect? {f g : α → Outcome (Option β)} {xs : List α} (h : ∀ a ∈ xs, (f a).Extends (g a)) :
    (Outcome.collect? f xs).Extends (Outcome.collect? g xs) := by
  induction xs with
  | nil => exact .refl _
  | cons a xs ih =>
    refine (h a List.mem_cons_self).bind fun b => ?_
    cases b with
    | none => exact .refl _
    | some b => exact (ih fun c hc => h c (List.mem_cons_of_mem a hc)).bind fun _ => .refl _

end Outcome

theorem Fields.length_le_of_nodup {α : Type} {fields : Fields α} {names : List String} (hnodup : names.Nodup)
    (hbound : ∀ name ∈ names, name ∈ fields.names) : names.length ≤ fields.length := by
  have hle : names.length ≤ fields.names.length := (List.subperm_of_subset hnodup hbound).length_le
  rwa [Fields.names, List.length_map] at hle

namespace Setting

variable {s : Setting} {join : List Node → Node} {leaf follow follow' : Node → Outcome (Option Node)}

/-! ## What a reference is opened to -/

/-- **What a reference is opened to**, with so many references left to follow. -/
def followed (s : Setting) (join : List Node → Node) (leaf : Node → Outcome (Option Node)) (follows : Nat)
    (reference : Node) : Outcome (Option Node) := do
  let subject ← s.subject reference
  match subject.kind with
  | .ref _ => leaf subject
  | _ => s.openWithin join leaf follows subject

theorem openWithin_succ (follows : Nat) (n : Node) :
    s.openWithin join leaf (follows + 1) n = s.openNode join leaf (s.followed join leaf follows) n := rfl

/-- **Following a reference** opens the bundle around its definition, if it has one. -/
theorem followed_eq {m : Node} {name : String} (hk : m.kind = .ref name) (follows : Nat) :
    s.followed join leaf follows m =
      match s.context.get? name with
      | none => leaf m
      | some target => packageDefinition s.evaluate s.context name target >>= s.openWithin join leaf follows := by
  rw [followed, subject_reference hk]
  cases s.context.get? name with
  | none => simp only [Outcome.done_bind, hk]
  | some target =>
    dsimp only
    cases hp : packageDefinition s.evaluate s.context name target with
    | done bundle =>
      obtain ⟨definitions, rfl, -⟩ := package_done hp
      -- Flags and annotations of a bundle do not count for what it is opened to.
      cases follows <;> rfl
    | failed e => rfl
    | exhausted => rfl

/-! ## More references -/

theorem openNode_extends {n : Node}
    (hfollow : ∀ m ∈ n.shown, ∀ name, m.kind = .ref name → (follow m).Extends (follow' m)) :
    (s.openNode join leaf follow n).Extends (s.openNode join leaf follow' n) := by
  induction n using Node.induction_on_parts with
  | node n ih =>
    rw [Node.shown_eq] at hfollow
    obtain ⟨kind, modifiers, annotations⟩ := n
    cases kind with
    | union variants =>
      simp only [openNode, openEach_eq_collect?]
      refine Outcome.Extends.bind (.collect? fun c hc => ih c hc fun m hm => ?_) fun _ => .refl _
      exact hfollow m (List.mem_flatMap.2 ⟨c, hc, hm⟩)
    | cyclic definitions root =>
      simp only [openNode, openRoot_eq]
      refine Outcome.Extends.bind ?_ fun _ => .refl _
      cases hr : Fields.get? definitions root with
      | none => exact .refl _
      | some target =>
        simp only [hr] at hfollow
        exact ih target (List.mem_map.2 ⟨_, Fields.mem_of_get? hr, rfl⟩) hfollow
    | ref name => simpa only [openNode] using hfollow _ (List.mem_singleton_self _) name rfl
    | _ =>
      simp only [openNode]
      exact .refl _

/-- What ends with fewer references to follow ends alike with more. -/
theorem openWithin_extends {k l : Nat} (h : k ≤ l) (n : Node) :
    (s.openWithin join leaf k n).Extends (s.openWithin join leaf l n) := by
  induction k generalizing l n with
  | zero => exact .inl rfl
  | succ k ih =>
    obtain ⟨l, rfl⟩ : ∃ j, l = j + 1 := ⟨l - 1, by omega⟩
    refine openNode_extends fun m _ _ _ => (Outcome.Extends.refl _).bind fun subject => ?_
    split
    · exact .refl _
    · exact ih (by omega) subject

/-- **What ends with one more reference only** follows that many, each of another name: by induction on them, where the
name that comes first is still open when the others have ended. -/
theorem exists_followed {follows : Nat} {n : Node} (hopen : s.openWithin join leaf follows n = .exhausted)
    (hends : s.openWithin join leaf (follows + 1) n ≠ .exhausted) :
    ∃ names : List String, names.length = follows ∧ names.Nodup ∧ ∀ a ∈ names, ∃ target bundle,
      s.context.get? a = some target ∧ packageDefinition s.evaluate s.context a target = .done bundle ∧
      s.openWithin join leaf follows bundle ≠ .exhausted := by
  induction follows generalizing n with
  | zero => exact ⟨[], rfl, .nil, by simp⟩
  | succ follows ih =>
    obtain ⟨m, name, hk, hdiffer⟩ : ∃ m name, m.kind = .ref name ∧
        s.followed join leaf (follows + 1) m ≠ s.followed join leaf follows m := by
      by_contra hnone
      push Not at hnone
      refine hends (Eq.trans ?_ hopen)
      exact openNode_congr rfl (fun _ _ => rfl) fun m _ name hk => hnone m name hk
    rw [followed_eq hk, followed_eq hk] at hdiffer
    cases ht : s.context.get? name with
    | none => simp [ht] at hdiffer
    | some target =>
      cases hp : packageDefinition s.evaluate s.context name target with
      | failed e => simp [ht, hp] at hdiffer
      | exhausted => simp [ht, hp] at hdiffer
      | done bundle =>
        simp only [ht, hp, Outcome.done_bind] at hdiffer
        have hopen : s.openWithin join leaf follows bundle = .exhausted :=
          (openWithin_extends (by omega) bundle).resolve_right hdiffer
        rw [hopen] at hdiffer
        obtain ⟨names, rfl, hnodup, hnames⟩ := ih hopen hdiffer
        have hnew : name ∉ names := by
          intro hm
          obtain ⟨target', bundle', ht', hp', hends⟩ := hnames name hm
          obtain rfl : target = target' := Option.some.inj (ht.symm.trans ht')
          obtain rfl : bundle = bundle' := Outcome.done.inj (hp.symm.trans hp')
          exact hends hopen
        refine ⟨name :: names, rfl, List.nodup_cons.2 ⟨hnew, hnodup⟩, List.forall_mem_cons.2 ⟨?_, fun a ha => ?_⟩⟩
        · exact ⟨target, bundle, ht, hp, hdiffer⟩
        · obtain ⟨target', bundle', ht', hp', hends⟩ := hnames a ha
          exact ⟨target', bundle', ht', hp', (openWithin_extends (Nat.le_succ _) _).ne_exhausted hends⟩

/-- **The bound on references cuts nothing short**: what is open when as many references have been followed as there are
names, and one more, is open however many are followed. -/
theorem openSubject_eq_exhausted_iff {n : Node} :
    s.openSubject join leaf n = .exhausted ↔ ∀ follows, s.openWithin join leaf follows n = .exhausted := by
  refine ⟨fun h follows => ?_, fun h => h _⟩
  induction follows with
  | zero => rfl
  | succ follows hopen =>
    by_contra hends
    obtain ⟨names, rfl, hnodup, hnames⟩ := exists_followed hopen hends
    have hle : names.length ≤ s.context.length := Fields.length_le_of_nodup hnodup fun a ha => by
      obtain ⟨target, -, ht, -⟩ := hnames a ha
      exact Fields.mem_names_iff.2 (by simp [Fields.has, ht])
    exact (openWithin_extends (Nat.succ_le_succ hle) n).ne_exhausted hends h

end Setting
end Schemata
