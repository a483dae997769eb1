import Schemata.Proofs.Comparison.Matching
import Schemata.Proofs.Comparison.Soundness
import Schemata.Proofs.Comparison.Steps
/-!
# Comparison at other places

A comparison tells pairs apart by their places, so that the same nodes may be compared elsewhere, and matching nodes in
their place: what holds here holds there (`Comparison.Follows.fitsStep`), to any depth (`follows_compareWithin`).

- `Relocation`: where the parts below one place on each side stand instead.
- `Surroundings.Like`: all definitions that are known here are known there, and all pairs taken to hold here are taken to
  hold there.
-/
namespace Schemata

open List (Forall₂)

/-! ## Places -/

/-- What stands on a side, of two. -/
def Side.pick {α : Type} : Side → α × α → α
  | .left => Prod.fst
  | .right => Prod.snd

/-- **Other places for the parts of both sides**: what stands below the origin stands below the target. -/
structure Relocation where
  origin : Side → List Step
  target : Side → List Step

namespace Relocation

/-- A place and the one that stands for it. -/
def Moves (ρ : Relocation) (a b : Place) : Prop :=
  b.side = a.side ∧ ∃ steps, a.steps = steps ++ ρ.origin a.side ∧ b.steps = steps ++ ρ.target a.side

variable {ρ : Relocation} {a b b' : Place}

theorem Moves.down (h : ρ.Moves a b) (step : Step) : ρ.Moves (a.down step) (b.down step) := by
  obtain ⟨hside, steps, ha, hb⟩ := h
  exact ⟨hside, step :: steps, congrArg (step :: ·) ha, congrArg (step :: ·) hb⟩

/-- One place at most stands for another. -/
theorem Moves.unique (h : ρ.Moves a b) (h' : ρ.Moves a b') : b = b' := by
  obtain ⟨hside, steps, ha, hb⟩ := h
  obtain ⟨hside', steps', ha', hb'⟩ := h'
  have hsteps : steps = steps' := List.append_cancel_right (ha.symm.trans ha')
  cases b
  cases b'
  dsimp only at hside hside' hb hb'
  rw [hside, hside', hb, hb', hsteps]

end Relocation

/-! ## Parts, fields and surroundings -/

/-- **A node and one that stands for it**: they match, and so do their places. -/
structure Placed.Like (ρ : Relocation) (p q : Placed) : Prop where
  node : p.node.Matches q.node
  place : ρ.Moves p.place q.place

/-- Parts that stand for each other, flags included. -/
def Placed.LikePart (ρ : Relocation) (p q : Placed) : Prop := p.Like ρ q ∧ p.node.modifiers = q.node.modifiers

/-- Fields that stand for each other, name by name. -/
def Fields.Like (ρ : Relocation) (fs gs : Fields Placed) : Prop :=
  ∀ name, Option.Rel (Placed.LikePart ρ) (fs.get? name) (gs.get? name)

/-- **Surroundings that know and take for granted no less.** -/
structure Surroundings.Like (ρ : Relocation) (s s' : Surroundings) : Prop where
  lookup : ∀ name p, s.lookup name = some p → ∃ q, s'.lookup name = some q ∧ p.Like ρ q
  assumed : ∀ a a' b b', ρ.Moves a a' → ρ.Moves b b' → (a, b) ∈ s.assumed → (a', b') ∈ s'.assumed

variable {ρ : Relocation} {check check' : Comparison} {s s' : Surroundings} {p q left left' right right' : Placed}

namespace Placed.Like

theorem item (h : p.Like ρ q) (index : Nat) {x y : Node} (hxy : x.MatchesPart y) :
    (p.item index x).LikePart ρ (q.item index y) := ⟨⟨hxy.1, h.place.down _⟩, hxy.2⟩

theorem items (h : p.Like ρ q) (first : Nat) {xs ys : List Node} (hxys : Forall₂ Node.MatchesPart xs ys) :
    Forall₂ (Placed.LikePart ρ) (p.items first xs) (q.items first ys) := by
  induction hxys generalizing first with
  | nil => exact .nil
  | cons hxy _ ih => exact .cons (h.item first hxy) (ih (first + 1))

theorem definitions (h : p.Like ρ q) {ds es : Fields Node} (hds : ds.Matched es) :
    (p.definitions ds).Like ρ (q.definitions es) := by
  intro name
  rw [p.get?_definitions, q.get?_definitions]
  have hname := hds.get? name
  generalize ds.get? name = found, es.get? name = found' at hname
  cases hname with
  | none => exact .none
  | some hxy => exact .some ⟨⟨hxy.1, h.place.down _⟩, hxy.2⟩

theorem properties (h : p.Like ρ q) {fs gs : Fields Node} (hfs : fs.Matched gs) :
    (p.properties fs).Like ρ (q.properties gs) := by
  intro name
  rw [p.get?_properties, q.get?_properties]
  have hname := hfs.get? name
  generalize fs.get? name = found, gs.get? name = found' at hname
  cases hname with
  | none => exact .none
  | some hxy => exact .some ⟨⟨hxy.1, h.place.down _⟩, hxy.2⟩

end Placed.Like

theorem Placed.names_properties (p : Placed) (fields : Fields Node) :
    (p.properties fields).map Prod.fst = fields.map Prod.fst := by
  rw [Placed.properties, List.map_map]
  rfl

theorem distinct_properties {p : Placed} {fields : Fields Node} (h : fields.Distinct) : (p.properties fields).Distinct := by
  rw [Fields.Distinct, p.names_properties]
  exact h

theorem Fields.Matched.eq_nil {fields : Fields Node} (h : Fields.Matched [] fields) : fields = [] := by
  cases fields with
  | nil => rfl
  | cons e rest =>
    have hname := h.get? e.1
    rw [Fields.get?_cons, if_pos rfl] at hname
    cases hname

theorem Fields.get?_append {α : Type} (fs gs : Fields α) (name : String) :
    Fields.get? (fs ++ gs) name = (fs.get? name).or (gs.get? name) := by
  induction fs with
  | nil => rfl
  | cons e rest ih =>
    obtain ⟨old, kept⟩ := e
    rw [List.cons_append, Fields.get?_cons, Fields.get?_cons]
    split
    · rfl
    · exact ih

theorem Fields.Like.append {fs gs fs' gs' : Fields Placed} (h : fs.Like ρ fs') (h' : gs.Like ρ gs') :
    Fields.Like ρ (fs ++ gs) (fs' ++ gs') := by
  intro name
  rw [Fields.get?_append, Fields.get?_append]
  have hname := h name
  generalize fs.get? name = found, fs'.get? name = found' at *
  cases hname with
  | none => exact h' name
  | some hlike => exact .some hlike

/-- **The properties that are gathered elsewhere** stand for those that are gathered here. -/
theorem gatherProperties_like {n n' : Node} (hn : n.Matches n') {a a' : Place} (ha : ρ.Moves a a') :
    Option.Rel (Fields.Like ρ) (gatherProperties a n) (gatherProperties a' n') := by
  induction n using Node.induction_on_parts generalizing n' a a' with
  | node n ih =>
    have hk := hn.matched
    obtain ⟨kind, modifiers, annotations⟩ := n
    obtain ⟨kind', modifiers', annotations'⟩ := n'
    dsimp only at hk
    cases hk with
    | object hfs =>
      have hlike : Placed.Like ρ ⟨⟨.object _, modifiers, annotations⟩, a⟩ ⟨⟨.object _, modifiers', annotations'⟩, a'⟩ := ⟨hn, ha⟩
      rw [gatherProperties, gatherProperties]
      exact .some (hlike.properties hfs)
    | intersect hs =>
      rw [gatherProperties, gatherProperties]
      clear hn
      generalize 0 = index
      induction hs generalizing index with
      | nil => exact .some fun _ => .none
      | @cons x y xs ys hxy _ ihs =>
        replace ih : ∀ c ∈ x :: xs, _ := ih
        rw [List.forall_mem_cons] at ih
        have hfirst := ih.1 hxy.1 (ha.down (.item index))
        have hrest := ihs ih.2 (index + 1)
        rw [gatherAll, gatherAll]
        generalize gatherProperties (a.down (.item index)) x = found, gatherProperties (a'.down (.item index)) y = found',
          gatherAll a (index + 1) xs = more, gatherAll a' (index + 1) ys = more' at *
        cases hfirst with
        | none => exact .none
        | some hlike =>
          cases hrest with
          | none => exact .none
          | some hlike' => exact .some (hlike.append hlike')
    | _ =>
      rw [gatherProperties, gatherProperties]
      · exact .none
      all_goals simp

/-- A part on one side, with the one that stands for it. -/
theorem Fields.Like.exists_left {fs gs : Fields Placed} (h : fs.Like ρ gs) (hg : gs.Distinct) {name : String}
    (hq : (name, q) ∈ gs) : ∃ p, (name, p) ∈ fs ∧ p.LikePart ρ q := by
  have hname := h name
  rw [Fields.get?_of_mem hg hq] at hname
  generalize hp : fs.get? name = found at hname
  cases hname with
  | some hlike => exact ⟨_, Fields.mem_of_get? hp, hlike⟩

namespace Surroundings.Like

theorem empty (ρ : Relocation) : Surroundings.Like ρ {} {} :=
  ⟨fun _ _ h => (by cases h), fun _ _ _ _ _ _ h => (by cases h)⟩

theorem enter (h : s.Like ρ s') {scope scope' : Fields Placed} (hscope : scope.Like ρ scope') :
    Surroundings.Like ρ { s with scopes := scope :: s.scopes } { s' with scopes := scope' :: s'.scopes } := by
  refine ⟨fun name p hp => ?_, h.assumed⟩
  rw [Surroundings.lookup, List.findSome?_cons] at hp
  simp only [Surroundings.lookup, List.findSome?_cons]
  have hname := hscope name
  generalize scope.get? name = found, scope'.get? name = found' at *
  cases hname with
  | none => exact h.lookup name p hp
  | some hlike =>
    cases hp
    exact ⟨_, rfl, hlike.1⟩

theorem assume (h : s.Like ρ s') (hl : left.Like ρ left') (hr : right.Like ρ right') :
    Surroundings.Like ρ { s with assumed := (left.place, right.place) :: s.assumed }
      { s' with assumed := (left'.place, right'.place) :: s'.assumed } := by
  refine ⟨h.lookup, fun a a' b b' ha hb hab => ?_⟩
  rcases List.mem_cons.1 hab with hab | hab
  · cases hab
    rw [ha.unique hl.place, hb.unique hr.place]
    exact List.mem_cons_self
  · exact List.mem_cons_of_mem _ (h.assumed a a' b b' ha hb hab)

end Surroundings.Like

/-! ## Comparisons that follow others -/

/-- **What holds by one comparison holds by another one elsewhere.** -/
def Comparison.Follows (ρ : Relocation) (check check' : Comparison) : Prop :=
  ∀ s s' left left' right right', Surroundings.Like ρ s s' → left.Like ρ left' → right.Like ρ right' →
    check s left right = true → check' s' left' right' = true

theorem all_of_forall₂ {α β : Type} {R : α → β → Prop} {f : α → Bool} {g : β → Bool} {xs : List α} {ys : List β}
    (h : Forall₂ R xs ys) (hfg : ∀ x y, R x y → f x = true → g y = true) (hall : xs.all f = true) : ys.all g = true := by
  rw [List.all_eq_true] at hall ⊢
  intro y hy
  obtain ⟨x, hx, hxy⟩ := exists_of_mem_right h hy
  exact hfg x y hxy (hall x hx)

theorem any_of_forall₂ {α β : Type} {R : α → β → Prop} {f : α → Bool} {g : β → Bool} {xs : List α} {ys : List β}
    (h : Forall₂ R xs ys) (hfg : ∀ x y, R x y → f x = true → g y = true) (hany : xs.any f = true) : ys.any g = true := by
  rw [List.any_eq_true] at hany ⊢
  obtain ⟨x, hx, hfx⟩ := hany
  obtain ⟨y, hy, hxy⟩ := exists_of_mem_left h hx
  exact ⟨y, hy, hfg x y hxy hfx⟩

theorem forall₂_zip {α β γ δ : Type} {R : α → γ → Prop} {S : β → δ → Prop} {xs : List α} {ys : List β} {zs : List γ}
    {ws : List δ} (h : Forall₂ R xs zs) (h' : Forall₂ S ys ws) :
    Forall₂ (fun e f => R e.1 f.1 ∧ S e.2 f.2) (xs.zip ys) (zs.zip ws) := by
  induction h generalizing ys ws with
  | nil => exact .nil
  | cons hxz _ ih =>
    cases h' with
    | nil => exact .nil
    | cons hyw h' => exact .cons ⟨hxz, hyw⟩ (ih h')

namespace Comparison.Follows

variable (hc : check.Follows ρ check') (hs : s.Like ρ s')
include hc hs

theorem assuming {tl tl' tr tr' : Placed} (hl : left.Like ρ left') (hr : right.Like ρ right') (htl : tl.Like ρ tl')
    (htr : tr.Like ρ tr') (h : assuming check s left right tl tr = true) :
    Schemata.assuming check' s' left' right' tl' tr' = true := by
  rw [Schemata.assuming, Bool.or_eq_true] at h ⊢
  rcases h with h | h
  · exact .inl (List.contains_iff_mem.2 (hs.assumed _ _ _ _ hl.place hr.place (List.contains_iff_mem.1 h)))
  · exact .inr (hc _ _ _ _ _ _ (hs.assume hl hr) htl htr h)

theorem fitsProperties {fs fs' gs gs' : Fields Placed} (hf : fs.Like ρ fs') (hg : gs.Like ρ gs') (hd : gs'.Distinct)
    (h : fitsProperties check s fs gs = true) : Schemata.fitsProperties check' s' fs' gs' = true := by
  rw [Schemata.fitsProperties, List.all_eq_true] at h ⊢
  intro e' he'
  obtain ⟨name, expected'⟩ := e'
  obtain ⟨expected, he, hlike⟩ := hg.exists_left hd he'
  have hfit := h _ he
  dsimp only at hfit ⊢
  have hname := hf name
  generalize fs.get? name = found, fs'.get? name = found' at *
  cases hname with
  | none => rwa [← hlike.2]
  | some hactual =>
    dsimp only at hfit ⊢
    rw [Bool.and_eq_true] at hfit ⊢
    exact ⟨by rw [← hactual.2, ← hlike.2]; exact hfit.1, hc _ _ _ _ _ _ hs hactual.1 hlike.1 hfit.2⟩

theorem fitsSignature {ls ls' rs rs' : List Placed} (hls : Forall₂ (Placed.LikePart ρ) ls ls')
    (hrs : Forall₂ (Placed.LikePart ρ) rs rs') (hl : left.Like ρ left') (hr : right.Like ρ right')
    (h : fitsSignature check s ls rs left right = true) : Schemata.fitsSignature check' s' ls' rs' left' right' = true := by
  simp only [Schemata.fitsSignature, Bool.and_eq_true] at h ⊢
  refine ⟨⟨?_, ?_⟩, hc _ _ _ _ _ _ hs hl hr h.2⟩
  · rw [← hls.length_eq, ← hrs.length_eq]
    exact h.1.1
  · exact all_of_forall₂ (forall₂_zip hls hrs) (fun _ _ hlr => hc _ _ _ _ _ _ hs hlr.2.1 hlr.1.1) h.1.2

theorem fitsItem {isRest : Bool} (hl : left.Like ρ left') (hr : right.Like ρ right')
    (h : fitsItem check s isRest left right = true) : Schemata.fitsItem check' s' isRest left' right' = true := by
  have hk := hl.node.matched
  unfold Schemata.fitsItem Placed.kind at h ⊢
  generalize left.node.kind = k, left'.node.kind = k' at *
  cases isRest <;> cases hk
  case true.array hxy => exact hc _ _ _ _ _ _ hs (hl.item 0 hxy).1 hr h
  all_goals exact hc _ _ _ _ _ _ hs hl hr h

theorem fitsItems {rest : Bool} (hr : right.Like ρ right') {ls ls' : List Placed}
    (hls : Forall₂ (Placed.LikePart ρ) ls ls') (h : fitsItems check s rest right ls = true) :
    Schemata.fitsItems check' s' rest right' ls' = true := by
  induction hls with
  | nil => rfl
  | @cons l l' ls ls' hl hls ih =>
    cases hls with
    | nil => exact hc.fitsItem hs hl.1 hr h
    | cons =>
      simp only [Schemata.fitsItems, Bool.and_eq_true] at h ⊢
      exact ⟨hc.fitsItem hs hl.1 hr h.1, ih h.2⟩

/-- **Comparison by structure** follows. -/
theorem fitsStructure (hl : left.Like ρ left') (hr : right.Like ρ right') (h : fitsStructure check s left right = true) :
    Schemata.fitsStructure check' s' left' right' = true := by
  have hlk := hl.node.matched
  have hrk := hr.node.matched
  unfold Schemata.fitsStructure Placed.kind at h ⊢
  generalize left.node.kind = lk, left'.node.kind = lk', right.node.kind = rk, right'.node.kind = rk' at *
  split at h
  case h_1 l r =>
    cases hlk
    cases hrk
    exact h
  case h_2 l r =>
    cases hlk
    cases hrk
    exact h
  case h_3 l r =>
    cases hlk
    cases hrk
    exact h
  case h_4 text fragments =>
    cases hlk
    cases hrk with
    | templatePattern hs =>
      rw [Node.ofFragments_eq hs] at h
      exact h
  case h_5 fragments =>
    cases hlk
    cases hrk
    rfl
  case h_6 l r =>
    cases hlk with
    | array hlx =>
      cases hrk with
      | array hrx => exact hc _ _ _ _ _ _ hs (hl.item 0 hlx).1 (hr.item 0 hrx).1 h
  case h_7 items rest r =>
    cases hlk with
    | tuple hls =>
      cases hrk with
      | array hrx => exact hc.fitsItems hs (hr.item 0 hrx).1 (hl.items 0 hls) h
  case h_8 ls lrest rs rrest =>
    cases hlk with
    | tuple hls =>
      cases hrk with
      | tuple hrs =>
        simp only [Bool.and_eq_true] at h ⊢
        refine ⟨⟨h.1.1, ?_⟩, ?_⟩
        · rw [← hls.length_eq, ← hrs.length_eq]
          exact h.1.2
        · exact all_of_forall₂ (forall₂_zip (hl.items 0 hls) (hr.items 0 hrs))
            (fun _ _ hlr => hc _ _ _ _ _ _ hs hlr.1.1 hlr.2.1) h.2
  case h_9 ls rs =>
    cases hlk with
    | object hls =>
      cases hrk with
      | object hrs => exact hc.fitsProperties hs (hl.properties hls) (hr.properties hrs) (distinct_properties hrs.right) h
  case h_10 p =>
    cases hlk
    cases hrk with
    | object hrs =>
      cases hrs.eq_nil
      exact h
  case h_11 hobject hprimitive =>
    cases hrk with
    | object hrs =>
      cases hrs.eq_nil
      cases hlk <;> first | rfl | exact (hprimitive _ rfl).elim
  case h_12 ls key value =>
    cases hlk with
    | object hls =>
      cases hrk with
      | dictionary hkey hvalue =>
        simp only [List.all_eq_true, Bool.and_eq_true] at h ⊢
        intro e' he'
        obtain ⟨name, property'⟩ := e'
        obtain ⟨property, he, hlike⟩ := (hl.properties hls).exists_left (distinct_properties hls.right) he'
        obtain ⟨hname, hfit⟩ := h _ he
        exact ⟨by rw [← hkey.1.admitsName_eq]; exact hname, hc _ _ _ _ _ _ hs hlike.1 (hr.item 1 hvalue).1 hfit⟩
  case h_13 lkey lvalue rkey rvalue =>
    cases hlk with
    | dictionary hlkey hlvalue =>
      cases hrk with
      | dictionary hrkey hrvalue =>
        simp only [Bool.and_eq_true] at h ⊢
        exact ⟨hc _ _ _ _ _ _ hs (hl.item 0 hlkey).1 (hr.item 0 hrkey).1 h.1,
          hc _ _ _ _ _ _ hs (hl.item 1 hlvalue).1 (hr.item 1 hrvalue).1 h.2⟩
  case h_14 lparams lresult rparams rresult =>
    cases hlk with
    | function hls hlr =>
      cases hrk with
      | function hrs hrr =>
        dsimp only at h ⊢
        rw [← hls.length_eq, ← hrs.length_eq]
        exact hc.fitsSignature hs (hl.items 0 hls) (hr.items 0 hrs) (hl.item _ hlr).1 (hr.item _ hrr).1 h
  case h_15 lparams lresult rparams rresult =>
    cases hlk with
    | constructor hls hlr =>
      cases hrk with
      | constructor hrs hrr =>
        dsimp only at h ⊢
        rw [← hls.length_eq, ← hrs.length_eq]
        exact hc.fitsSignature hs (hl.items 0 hls) (hr.items 0 hrs) (hl.item _ hlr).1 (hr.item _ hrr).1 h
  case h_16 lw l rw r =>
    cases hlk with
    | wrapper _ hlx =>
      cases hrk with
      | wrapper _ hrx =>
        simp only [Bool.and_eq_true] at h ⊢
        exact ⟨h.1, hc _ _ _ _ _ _ hs (hl.item 0 hlx).1 (hr.item 0 hrx).1 h.2⟩
  case h_17 => cases h

/-- **Comparison of unions and intersections** follows. -/
theorem fitsSets (hl : left.Like ρ left') (hr : right.Like ρ right') (h : fitsSets check s left right = true) :
    Schemata.fitsSets check' s' left' right' = true := by
  have hstructure := hc.fitsStructure hs hl hr
  have hgather := gatherProperties_like hl.node hl.place
  have hboolean := hl.node.isPrimitive_eq .boolean
  have hlk := hl.node.matched
  have hrk := hr.node.matched
  unfold Schemata.fitsSets Placed.kind at h ⊢
  generalize left.node.kind = lk, left'.node.kind = lk', right.node.kind = rk, right'.node.kind = rk' at *
  have hleft {ns ns' : List Node} (hns : Forall₂ Node.MatchesPart ns ns') := hl.items 0 hns
  have hright {ns ns' : List Node} (hns : Forall₂ Node.MatchesPart ns ns') := hr.items 0 hns
  split at h
  case h_1 variants =>
    cases hlk with
    | union hls => exact all_of_forall₂ (hleft hls) (fun _ _ hxy => hc _ _ _ _ _ _ hs hxy.1 hr) h
  case h_2 variants hunion =>
    cases hrk with
    | @union _ variants' hrs =>
      have hgoal : ((left'.node.isPrimitive .boolean && coversBoolean variants') ||
          (right'.items 0 variants').any fun v => check' s' left' v) = true := by
        rw [Bool.or_eq_true] at h ⊢
        rcases h with h | h
        · exact .inl (by rwa [← hboolean, ← Node.coversBoolean_eq hrs])
        · exact .inr (any_of_forall₂ (hright hrs) (fun _ _ hxy => hc _ _ _ _ _ _ hs hl hxy.1) h)
      cases hlk <;> first | exact hgoal | exact (hunion _ rfl).elim
  case h_3 members hunion =>
    cases hrk with
    | intersect hrs =>
      have hall := all_of_forall₂ (hright hrs) (fun _ _ hxy => hc _ _ _ _ _ _ hs hl hxy.1) h
      cases hlk <;> first | exact hall | exact (hunion _ rfl).elim
  case h_4 members hunion hintersect =>
    cases hlk with
    | intersect hls =>
      rw [Bool.or_eq_true] at h
      rcases h with h | h
      · have hany := any_of_forall₂ (hleft hls) (fun _ _ hxy => hc _ _ _ _ _ _ hs hxy.1 hr) h
        cases hrk <;> first
          | exact Bool.or_eq_true_iff.2 (.inl hany)
          | exact (hunion _ rfl).elim
          | exact (hintersect _ rfl).elim
      · split at h
        · rename_i properties gathered hg
          cases hrk with
          | object hrs =>
            rw [hg] at hgather
            generalize gatherProperties left'.place left'.node = found at hgather
            cases hgather with
            | some hlike =>
              exact Bool.or_eq_true_iff.2
                (.inr (hc.fitsProperties hs hlike (hr.properties hrs) (distinct_properties hrs.right) h))
        · cases h
  case h_5 hleftUnion hrightUnion hrightIntersect hleftIntersect =>
    have hgoal := hstructure h
    cases hlk <;> cases hrk <;> first
      | exact hgoal
      | exact (hleftUnion _ rfl).elim
      | exact (hleftIntersect _ rfl).elim
      | exact (hrightUnion _ rfl).elim
      | exact (hrightIntersect _ rfl).elim

/-- **Comparison of references** follows. -/
theorem fitsReferences (hl : left.Like ρ left') (hr : right.Like ρ right')
    (h : fitsReferences check s left right = true) : Schemata.fitsReferences check' s' left' right' = true := by
  have hsets := hc.fitsSets hs hl hr
  have hany := hl.node.isPrimitive_eq .any
  have hnever := hr.node.isNever_eq
  have hlk := hl.node.matched
  have hrk := hr.node.matched
  unfold Schemata.fitsReferences Placed.kind at h ⊢
  generalize left.node.kind = lk, left'.node.kind = lk', right.node.kind = rk, right'.node.kind = rk' at *
  split at h
  case h_1 name =>
    cases hlk
    split at h
    · rename_i target htarget
      obtain ⟨target', htarget', hlike⟩ := hs.lookup _ _ htarget
      dsimp only
      rw [htarget']
      exact hc.assuming hs hl hr hlike hr h
    · cases h
  case h_2 name hleft =>
    cases hrk
    split at h
    · rename_i target htarget
      obtain ⟨target', htarget', hlike⟩ := hs.lookup _ _ htarget
      have hgoal := hc.assuming hs hl hr hl hlike h
      cases hlk <;> first
        | exact (hleft _ rfl).elim
        | dsimp only
          rw [htarget']
          exact hgoal
    · cases h
  case h_3 hleft hright =>
    have hgoal : (if left'.node.isPrimitive .any then true
        else if right'.node.isNever then false else Schemata.fitsSets check' s' left' right') = true := by
      rw [← hany, ← hnever]
      split at h
      · rename_i hp
        rw [if_pos hp]
      · rename_i hp
        rw [if_neg hp]
        split at h
        · cases h
        · rename_i hq
          rw [if_neg hq]
          exact hsets h
    cases hlk <;> cases hrk <;> first
      | exact hgoal
      | exact (hleft _ rfl).elim
      | exact (hright _ rfl).elim

/-- **Comparison of bundles** follows. -/
theorem fitsBundles (hl : left.Like ρ left') (hr : right.Like ρ right') (h : fitsBundles check s left right = true) :
    Schemata.fitsBundles check' s' left' right' = true := by
  have hreferences := hc.fitsReferences hs hl hr
  have hlk := hl.node.matched
  have hrk := hr.node.matched
  unfold Schemata.fitsBundles Placed.kind at h ⊢
  generalize left.node.kind = lk, left'.node.kind = lk', right.node.kind = rk, right'.node.kind = rk' at *
  split at h
  case h_1 definitions root =>
    cases hrk with
    | @cyclic _ definitions' hds =>
      have hscope := hr.definitions hds
      have hname := hscope root
      dsimp only at h
      generalize (right.definitions definitions).get? root = found at h hname
      generalize hfound : (right'.definitions definitions').get? root = found' at hname
      cases hname with
      | none => cases h
      | some hlike =>
        have hgoal := hc _ _ _ _ _ _ (hs.enter hscope) hl hlike.1 h
        cases hlk <;>
        · dsimp only
          rw [hfound]
          exact hgoal
  case h_2 definitions root hright =>
    cases hlk with
    | @cyclic _ definitions' hds =>
      have hscope := hl.definitions hds
      have hname := hscope root
      dsimp only at h
      generalize (left.definitions definitions).get? root = found at h hname
      generalize hfound : (left'.definitions definitions').get? root = found' at hname
      cases hname with
      | none => cases h
      | some hlike =>
        have hgoal := hc _ _ _ _ _ _ (hs.enter hscope) hlike.1 hr h
        cases hrk <;> first
          | exact (hright _ _ rfl).elim
          | dsimp only
            rw [hfound]
            exact hgoal
  case h_3 hright hleft =>
    have hgoal := hreferences h
    cases hlk <;> cases hrk <;> first
      | exact hgoal
      | exact (hleft _ _ rfl).elim
      | exact (hright _ _ rfl).elim

omit hs in
/-- **One comparison follows another** where comparisons of parts do. -/
theorem fitsStep : Comparison.Follows ρ (fitsStep check) (fitsStep check') := by
  intro s s' left left' right right' hs hl hr h
  have hbundles := hc.fitsBundles hs hl hr
  simp only [Schemata.fitsStep, Bool.or_eq_true] at h ⊢
  rcases h with (((h | h) | h) | h) | h
  · exact .inl (.inl (.inl (.inl (hl.node.sameKind hr.node h))))
  · exact .inl (.inl (.inl (.inr (by rwa [← hr.node.isPrimitive_eq]))))
  · exact .inl (.inl (.inr (by rwa [← hr.node.isPrimitive_eq])))
  · exact .inl (.inr (by rwa [← hl.node.isNever_eq]))
  · exact .inr (hbundles h)

end Comparison.Follows

/-! ## Comparisons of any depth -/

variable (ρ)

/-- **What is seen to fit within some depth** is taken to fit over every depth. -/
theorem follows_compareWithin (fuel fuel' : Nat) : (compareWithin fuel).Follows ρ (compareOver fuel') := by
  induction fuel generalizing fuel' with
  | zero =>
    intro _ _ _ _ _ _ _ _ _ h
    cases h
  | succ fuel ih =>
    cases fuel' with
    | zero => exact fun _ _ _ _ _ _ _ _ _ _ => rfl
    | succ fuel' => exact (ih fuel').fitsStep

/-- **What is seen to fit within some depth** is seen to fit elsewhere within the same depth. -/
theorem follows_compareWithin_self (fuel : Nat) : (compareWithin fuel).Follows ρ (compareWithin fuel) := by
  induction fuel with
  | zero =>
    intro _ _ _ _ _ _ _ _ _ h
    cases h
  | succ fuel ih => exact ih.fitsStep

/-- **Matching nodes fit, and are fit, alike**, however deep the comparison goes. -/
theorem Node.Matches.fits_eq {left left' right right' : Node} (hl : left.Matches left') (hr : right.Matches right') :
    left.fits right = left'.fits right' := by
  let ρ : Relocation := ⟨fun _ => [], fun _ => []⟩
  have hlike : ∀ {x y : Node} (side : Side), x.Matches y → Placed.Like ρ ⟨x, side, []⟩ ⟨y, side, []⟩ :=
    fun _ h => ⟨h, rfl, [], rfl, rfl⟩
  refine Bool.eq_iff_iff.2 ⟨fun h => ?_, fun h => ?_⟩
  · exact follows_compareWithin_self ρ _ _ _ _ _ _ _ (.empty ρ) (hlike .left hl) (hlike .right hr) h
  · exact follows_compareWithin_self ρ _ _ _ _ _ _ _ (.empty ρ) (hlike .left hl.symm) (hlike .right hr.symm) h

end Schemata
