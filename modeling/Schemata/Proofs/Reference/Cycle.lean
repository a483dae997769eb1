import Mathlib.Data.List.Perm.Subperm
import Mathlib.Data.Nat.Init
import Mathlib.Tactic.ByContra
import Schemata.Reference.Cycle
/-!
# The cycle check is exact

The check walks references depth first and remembers the names that led nowhere back.  What it remembers under one path
stays true under every other path of the same walk, because the names stand in an order in which each leads to later
ones only (`Clear`), and no name of a path is among them.

Main statement: `leadsBack_iff`, the check answers yes exactly if some walk along references meets a name again.
-/
namespace Schemata

/-! ## Walks -/

/-- **Some walk along the references of a node meets** a name of the path, or a name on the way, again. -/
inductive Meets (context : Context) : List String → Node → Prop
  | here {path : List String} {n : Node} {name : String} (exposed : name ∈ n.exposed) (again : name ∈ path) :
    Meets context path n
  | there {path : List String} {n target : Node} {name : String} (exposed : name ∈ n.exposed)
    (bound : context.get? name = some target) (rest : Meets context (name :: path) target) : Meets context path n

theorem Meets.mono {context wider : Context} (hw : ∀ name n, context.get? name = some n → wider.get? name = some n)
    {path longer : List String} {n : Node} (hp : ∀ name ∈ path, name ∈ longer) (h : Meets context path n) :
    Meets wider longer n := by
  induction h generalizing longer with
  | here exposed again => exact .here exposed (hp _ again)
  | @there path n target name exposed bound rest ih =>
    refine .there exposed (hw _ _ bound) (ih fun other ho => ?_)
    rcases List.mem_cons.1 ho with rfl | ho
    · exact List.mem_cons_self
    · exact List.mem_cons_of_mem _ (hp _ ho)

/-! ## What the check finds -/

theorem exists_of_foldlM_eq_none {f : List String → String → Option (List String)} {names cleared : List String}
    (h : names.foldlM f cleared = none) : ∃ name ∈ names, ∃ known, f known name = none := by
  induction names generalizing cleared with
  | nil => cases h
  | cons name names ih =>
    rw [List.foldlM_cons] at h
    cases hf : f cleared name with
    | none => exact ⟨name, List.mem_cons_self, cleared, hf⟩
    | some known =>
      rw [hf] at h
      obtain ⟨other, ho, known, hk⟩ := ih h
      exact ⟨other, List.mem_cons_of_mem _ ho, known, hk⟩

/-- Where following a name fails, there is a walk. -/
theorem meets_of_follow_eq_none (context : Context) (fuel : Nat) (path cleared : List String) (name : String)
    (h : context.follow fuel path cleared name = none) :
    name ∈ path ∨ ∃ target, context.get? name = some target ∧ Meets context (name :: path) target := by
  induction fuel generalizing path cleared name with
  | zero =>
    rw [Context.follow] at h
    split at h
    · rename_i hc
      exact .inl (by simpa using hc)
    · cases h
  | succ fuel ih =>
    rw [Context.follow] at h
    split at h
    · rename_i hc
      exact .inl (by simpa using hc)
    · split at h
      · cases h
      · cases ht : context.get? name with
        | none => simp [ht] at h
        | some target =>
          simp only [ht, Option.map_eq_none_iff] at h
          obtain ⟨next, hn, known, hk⟩ := exists_of_foldlM_eq_none h
          refine .inr ⟨target, rfl, ?_⟩
          rcases ih _ _ _ hk with hp | ⟨deeper, hd, hm⟩
          · exact .here hn hp
          · exact .there hn hd hm

/-! ## What the check remembers -/

/-- **Names that lead nowhere back**, each before those that it leads to; what is not bound leads nowhere, unless it is
on the path that the walk starts from. -/
inductive Clear (context : Context) (path : List String) : List String → Prop
  | nil : Clear context path []
  | cons {name : String} {rest : List String} {target : Node} (new : name ∉ rest)
    (bound : context.get? name = some target)
    (leads : ∀ next ∈ target.exposed, next ∈ rest ∨ context.get? next = none ∧ next ∉ path)
    (clear : Clear context path rest) : Clear context path (name :: rest)

theorem Clear.split {context : Context} {path cleared : List String} (h : Clear context path cleared) {name : String}
    (hn : name ∈ cleared) :
    ∃ rest target, rest.length < cleared.length ∧ (∀ other ∈ rest, other ∈ cleared) ∧ name ∉ rest ∧
      context.get? name = some target ∧
      (∀ next ∈ target.exposed, next ∈ rest ∨ context.get? next = none ∧ next ∉ path) ∧ Clear context path rest := by
  induction h with
  | nil => cases hn
  | @cons first rest target new bound leads clear ih =>
    rcases List.mem_cons.1 hn with rfl | hn
    · exact ⟨rest, target, Nat.lt_succ_self _, fun _ h => List.mem_cons_of_mem _ h, new, bound, leads, clear⟩
    · obtain ⟨below, t, hlt, hsub, rest'⟩ := ih hn
      exact ⟨below, t, Nat.lt_succ_of_lt hlt, fun o ho => List.mem_cons_of_mem _ (hsub o ho), rest'⟩

/-- **No walk begins with cleared names**, by induction on how many there are. -/
theorem Clear.not_meets {context : Context} {start : List String} :
    ∀ (count : Nat) {cleared path : List String} {n : Node}, cleared.length = count → Clear context start cleared →
      (∀ name ∈ path, name ∉ cleared ∧ (context.get? name = none → name ∈ start)) →
      (∀ name ∈ n.exposed, name ∈ cleared ∨ context.get? name = none ∧ name ∉ start) → ¬ Meets context path n := by
  intro count
  induction count using Nat.strong_induction_on with
  | _ count ih =>
    intro cleared path n hlen hc hpath hexposed hmeets
    cases hmeets with
    | @here _ _ name exposed again =>
      rcases hexposed name exposed with hn | ⟨hn, hs⟩
      · exact (hpath name again).1 hn
      · exact hs ((hpath name again).2 hn)
    | @there _ _ target name exposed bound rest =>
      rcases hexposed name exposed with hn | ⟨hn, -⟩
      · obtain ⟨below, t, hlt, hsub, hnew, hbound, hleads, hclear⟩ := hc.split hn
        rw [bound] at hbound
        cases hbound
        refine ih below.length (by omega) rfl hclear (fun other ho => ?_) hleads rest
        rcases List.mem_cons.1 ho with rfl | ho
        · exact ⟨hnew, fun h => by rw [bound] at h; cases h⟩
        · exact ⟨fun hb => (hpath other ho).1 (hsub other hb), (hpath other ho).2⟩
      · rw [bound] at hn
        cases hn

/-- **What is kept while walking**: the names cleared so far, none of them on the path. -/
structure Walking (context : Context) (start stack cleared : List String) : Prop where
  clear : Clear context start cleared
  apart : ∀ name ∈ stack ++ start, name ∉ cleared

/-- A name that was followed to its end: it is cleared or not bound, and not on the path. -/
def Followed (context : Context) (path cleared : List String) (name : String) : Prop :=
  (name ∈ cleared ∨ context.get? name = none) ∧ name ∉ path

theorem length_le_of_bound {context : Context} {names : List String} (hnd : names.Nodup)
    (hb : ∀ name ∈ names, context.has name) : names.length ≤ context.length := by
  have hsub : names ⊆ context.names := fun name hn => Fields.mem_names_iff.2 (hb name hn)
  have hle : names.length ≤ context.names.length := (List.subperm_of_subset hnd hsub).length_le
  simpa [Fields.names] using hle

section
variable {context : Context} {start : List String}

/-- Following names one after the other keeps what following one name keeps. -/
theorem walking_of_foldlM {follow : List String → String → Option (List String)} {stack : List String}
    (hfollow : ∀ {cleared known name}, Walking context start stack cleared → follow cleared name = some known →
      Walking context start stack known ∧ (∀ other ∈ cleared, other ∈ known) ∧
        Followed context (stack ++ start) known name)
    {names cleared known : List String} (hw : Walking context start stack cleared)
    (h : names.foldlM follow cleared = some known) :
    Walking context start stack known ∧ (∀ other ∈ cleared, other ∈ known) ∧
      ∀ name ∈ names, Followed context (stack ++ start) known name := by
  induction names generalizing cleared with
  | nil =>
    cases h
    exact ⟨hw, fun _ h => h, fun _ h => by cases h⟩
  | cons name names ih =>
    rw [List.foldlM_cons] at h
    cases hf : follow cleared name with
    | none =>
      rw [hf] at h
      cases h
    | some between =>
      rw [hf] at h
      obtain ⟨hw', hsub, hname⟩ := hfollow hw hf
      obtain ⟨hw'', hsub', hnames⟩ := ih hw' h
      refine ⟨hw'', fun other ho => hsub' other (hsub other ho), fun other ho => ?_⟩
      rcases List.mem_cons.1 ho with rfl | ho
      · exact ⟨hname.1.imp (hsub' other) id, hname.2⟩
      · exact hnames other ho

/-- **Following a name clears it**, by induction on the fuel, of which there is enough for every name that is bound. -/
theorem walking_of_follow {fuel : Nat} {stack cleared known : List String} {name : String} (hnd : stack.Nodup)
    (hb : ∀ name ∈ stack, context.has name) (hfuel : context.length ≤ stack.length + fuel)
    (hw : Walking context start stack cleared) (h : context.follow fuel (stack ++ start) cleared name = some known) :
    Walking context start stack known ∧ (∀ other ∈ cleared, other ∈ known) ∧
      Followed context (stack ++ start) known name := by
  induction fuel generalizing stack cleared known name with
  | zero =>
    rw [Context.follow] at h
    split at h
    · cases h
    · rename_i hc
      cases h
      have hpath : name ∉ stack ++ start := by simpa using hc
      refine ⟨hw, fun _ h => h, .inr ?_, hpath⟩
      -- All bound names are on the stack already.
      by_contra hbound
      have hlen : (name :: stack).length ≤ context.length := by
        refine length_le_of_bound (List.nodup_cons.2 ⟨fun hs => hpath (List.mem_append_left _ hs), hnd⟩) ?_
        intro other ho
        rcases List.mem_cons.1 ho with rfl | ho
        · exact Option.ne_none_iff_isSome.1 hbound
        · exact hb other ho
      simp only [List.length_cons] at hlen
      omega
  | succ fuel ih =>
    rw [Context.follow] at h
    split at h
    · cases h
    rename_i hc
    have hpath : name ∉ stack ++ start := by simpa using hc
    split at h
    · rename_i hknown
      cases h
      exact ⟨hw, fun _ h => h, .inl (by simpa using hknown), hpath⟩
    rename_i hnew
    have hnew : name ∉ cleared := by simpa using hnew
    cases ht : context.get? name with
    | none =>
      simp only [ht, Option.some.injEq] at h
      subst h
      exact ⟨hw, fun _ h => h, .inr ht, hpath⟩
    | some target =>
      simp only [ht, Option.map_eq_some_iff] at h
      obtain ⟨below, hfold, rfl⟩ := h
      have hstack : (name :: stack).Nodup :=
        List.nodup_cons.2 ⟨fun hs => hpath (List.mem_append_left _ hs), hnd⟩
      have hbound : ∀ other ∈ name :: stack, context.has other := by
        intro other ho
        rcases List.mem_cons.1 ho with rfl | ho
        · simp [Fields.has, ht]
        · exact hb other ho
      have hinner : Walking context start (name :: stack) cleared := by
        refine ⟨hw.clear, fun other ho => ?_⟩
        rcases List.mem_cons.1 ho with rfl | ho
        · exact hnew
        · exact hw.apart other ho
      obtain ⟨hw', hsub, hall⟩ := walking_of_foldlM
        (fun hw hf => ih hstack hbound (by simp only [List.length_cons]; omega) hw hf) hinner hfold
      have hfresh : name ∉ below := hw'.apart name List.mem_cons_self
      refine ⟨⟨.cons hfresh ht (fun next hn => ?_) hw'.clear, fun other ho => ?_⟩,
        fun other ho => List.mem_cons_of_mem _ (hsub other ho), .inl List.mem_cons_self, hpath⟩
      · obtain ⟨hdone, hnot⟩ := hall next hn
        exact hdone.imp id fun hnone => ⟨hnone, fun hs => hnot (List.mem_append_right _ hs)⟩
      · intro hmem
        rcases List.mem_cons.1 hmem with rfl | hmem
        · exact hpath ho
        · exact hw'.apart other (List.mem_cons_of_mem _ ho) hmem

end

/-! ## The check -/

/-- **The cycle check is exact**: it answers yes if and only if some walk meets a name of the path, or a name on the
way, again. -/
theorem leadsBack_iff (path : List String) (context : Context) (n : Node) :
    leadsBack path context n = true ↔ Meets context path n := by
  constructor
  · intro h
    rw [leadsBack, Option.isNone_iff_eq_none] at h
    obtain ⟨name, hn, known, hk⟩ := exists_of_foldlM_eq_none h
    rcases meets_of_follow_eq_none _ _ _ _ _ hk with hp | ⟨target, ht, hm⟩
    · exact .here hn hp
    · exact .there hn ht hm
  · intro hm
    rw [leadsBack, Option.isNone_iff_eq_none]
    by_contra hsome
    obtain ⟨known, hk⟩ := Option.ne_none_iff_exists'.1 hsome
    have hstart : Walking context path [] [] := ⟨.nil, fun _ _ h => by cases h⟩
    have hfollow : ∀ {cleared known : List String} {name : String}, Walking context path [] cleared →
        context.follow context.length path cleared name = some known →
        Walking context path [] known ∧ (∀ other ∈ cleared, other ∈ known) ∧ Followed context path known name :=
      fun hw hf => walking_of_follow List.nodup_nil (fun _ h => by cases h) (by simp) hw hf
    obtain ⟨hw, -, hall⟩ := walking_of_foldlM hfollow hstart hk
    refine Clear.not_meets _ rfl hw.clear (fun name hn => ⟨hw.apart name hn, fun _ => hn⟩) (fun name hn => ?_) hm
    obtain ⟨hdone, hnot⟩ := hall name hn
    exact hdone.imp id fun hnone => ⟨hnone, hnot⟩

theorem isCyclic_eq_false_of_all {context : Context} (h : (context.all fun e => !isCyclic context e.1) = true)
    (name : String) : isCyclic context name = false := by
  cases ht : context.get? name with
  | none => simp [isCyclic, ht]
  | some target => simpa using List.all_eq_true.1 h _ (Fields.mem_of_get? ht)

/-- A definition that does not lead back mentions none that does. -/
theorem isCyclic_eq_false_of_exposed {context : Context} {name : String} {n : Node} (hn : context.get? name = some n)
    (h : isCyclic context name = false) : ∀ next ∈ n.exposed, isCyclic context next = false := by
  intro next hnext
  rw [Bool.eq_false_iff] at h ⊢
  intro hback
  refine h ?_
  rw [isCyclic] at hback
  cases ht : context.get? next with
  | none => simp [ht] at hback
  | some target =>
    simp only [ht, leadsBack_iff] at hback
    simp only [isCyclic, hn, leadsBack_iff]
    exact .there hnext ht (hback.mono (fun _ _ hb => hb) fun other ho => by simp_all)

end Schemata
