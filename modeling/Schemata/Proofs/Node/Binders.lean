import Mathlib.Data.List.TakeWhile
import Schemata.Instantiation.Call
import Schemata.Proofs.Instantiation.Naming
/-!
# Names of binders

- `n.renameBinders old new` renames the generics' parameters and the keys of mapped types that are called `old`, and
  exactly the references that they bind.  Where this leaves no `old`, it is a renaming of the whole tree
  (`renameBinders_eq_rename`).
- `exchange a b` is the permutation of all names that exchanges two plain names, in the names made up from them as well
  (`consistent_exchange`).
-/
namespace Schemata

/-! ## Renaming what a name binds -/

theorem Kind.relabel_eq_map {α β : Type} {ρ : String → String} {f : α → β} {kind : Kind α}
    (hlabels : ∀ x ∈ kind.labels, ρ x = x) : kind.relabel ρ f = kind.map f :=
  (Kind.relabel_congr hlabels fun _ _ => rfl).trans (by cases kind <;> simp [Kind.relabel, Kind.map])

theorem Kind.labels_map {α β : Type} (f : α → β) (kind : Kind α) : (kind.map f).labels = kind.labels := by
  cases kind <;> simp [map, labels]

/-- One name in the place of another. -/
def replaceName (old new name : String) : String := if name = old then new else name

namespace Node

/-- **Renames binders and the references that they bind**; `bound` tells whether a binder of the name is around.  A
generic binds in its parameters and in its body, the key of a mapped type in the other operands, and a bundle is closed. -/
def renameBound (old new : String) (bound : Bool) (n : Node) : Node :=
  match _h : n.kind with
  | .ref name => if bound && name == old then n.rebuild (.ref new) else n
  | .cyclic .. => n.rebuild (n.kind.mapParts fun c _ => c.renameBound old new false)
  | .generic parameters _ =>
    if (parameters.map (·.name)).contains old then
      n.rebuild ((n.kind.mapParts fun c _ => c.renameBound old new true).relabel (replaceName old new) id)
    else n.rebuild (n.kind.mapParts fun c _ => c.renameBound old new bound)
  | .deferred .mapped (key :: rest) options =>
    if key.boundKey.contains old then
      let renamed := key.renameBound old new bound
      n.rebuild (.deferred .mapped (renamed.rebuild (renamed.kind.relabel (replaceName old new) id) ::
        rest.attach.map fun ⟨c, _⟩ => c.renameBound old new true) options)
    else n.rebuild (n.kind.mapParts fun c _ => c.renameBound old new bound)
  | _ => n.rebuild (n.kind.mapParts fun c _ => c.renameBound old new bound)
termination_by n.size
decreasing_by
  all_goals apply size_lt_of_mem_parts
  all_goals first | assumption | (rw [_h]; first | exact List.mem_cons_self | exact List.mem_cons_of_mem _ ‹_›)

/-- **Renames the binders of a name**, and exactly the references that they bind. -/
def renameBinders (old new : String) (n : Node) : Node := n.renameBound old new false

theorem renameBound_eq (old new : String) (bound : Bool) (n : Node) : n.renameBound old new bound =
    match n.kind with
    | .ref name => if bound && name == old then n.rebuild (.ref new) else n
    | .cyclic .. => n.rebuild (n.kind.map (renameBound old new false))
    | .generic parameters _ =>
      if (parameters.map (·.name)).contains old then
        n.rebuild (n.kind.relabel (replaceName old new) (renameBound old new true))
      else n.rebuild (n.kind.map (renameBound old new bound))
    | .deferred .mapped (key :: rest) options =>
      if key.boundKey.contains old then
        let renamed := key.renameBound old new bound
        n.rebuild (.deferred .mapped (renamed.rebuild (renamed.kind.relabel (replaceName old new) id) ::
          rest.map (renameBound old new true)) options)
      else n.rebuild (n.kind.map (renameBound old new bound))
    | _ => n.rebuild (n.kind.map (renameBound old new bound)) := by
  rw [renameBound]; split <;> simp_all [Kind.mapParts_eq_map, Kind.relabel_map]

section
variable {old new : String}

theorem names_rebuild (n : Node) (kind : Kind Node) : (n.rebuild kind).names = kind.labels ++ kind.parts.flatMap names :=
  names_eq _

/-- Parts that are renamed throughout, below a label that is renamed, make a node that is renamed throughout. -/
theorem rebuild_relabel_eq_rename {n : Node} {f : Node → Node}
    (hfree : old ∉ (n.rebuild (n.kind.relabel (replaceName old new) f)).names)
    (ih : ∀ c ∈ n.kind.parts, old ∉ (f c).names → f c = c.rename (replaceName old new)) :
    n.rebuild (n.kind.relabel (replaceName old new) f) = n.rename (replaceName old new) := by
  rw [names_rebuild, Kind.parts_relabel, List.mem_append, not_or] at hfree
  rw [rename_eq]
  refine congrArg n.rebuild (Kind.relabel_congr (fun _ _ => rfl) fun c hc => ih c hc fun hold => ?_)
  exact hfree.2 (List.mem_flatMap.2 ⟨f c, List.mem_map_of_mem hc, hold⟩)

/-- Below labels that are not the old name nothing has to be done about them. -/
theorem rebuild_map_eq_rename {n : Node} {f : Node → Node} (hfree : old ∉ (n.rebuild (n.kind.map f)).names)
    (ih : ∀ c ∈ n.kind.parts, old ∉ (f c).names → f c = c.rename (replaceName old new)) :
    n.rebuild (n.kind.map f) = n.rename (replaceName old new) := by
  have hlabels : ∀ x ∈ n.kind.labels, replaceName old new x = x := by
    intro x hx
    refine if_neg fun he => hfree ?_
    rw [names_rebuild, Kind.labels_map, ← he]
    exact List.mem_append_left _ hx
  rw [← Kind.relabel_eq_map hlabels] at hfree ⊢
  exact rebuild_relabel_eq_rename hfree ih

/-- **Where no other name is the old one, renaming its binders is renaming the whole tree.** -/
theorem renameBound_eq_rename {bound : Bool} {n : Node} (hfree : old ∉ (n.renameBound old new bound).names) :
    n.renameBound old new bound = n.rename (replaceName old new) := by
  -- By induction on the size: what is bound by the key of a mapped type is two levels below.
  induction hsize : n.size using Nat.strong_induction_on generalizing n bound with
  | _ size ih =>
    replace ih : ∀ c : Node, c.size < n.size → ∀ b, old ∉ (c.renameBound old new b).names →
        c.renameBound old new b = c.rename (replaceName old new) :=
      fun c hc b hb => ih c.size (hsize ▸ hc) hb rfl
    have hmap : ∀ b, old ∉ (n.rebuild (n.kind.map (renameBound old new b))).names →
        n.rebuild (n.kind.map (renameBound old new b)) = n.rename (replaceName old new) :=
      fun b hb => rebuild_map_eq_rename hb fun c hc => ih c (size_lt_of_mem_parts hc) b
    have hrelabel : ∀ b, old ∉ (n.rebuild (n.kind.relabel (replaceName old new) (renameBound old new b))).names →
        n.rebuild (n.kind.relabel (replaceName old new) (renameBound old new b)) = n.rename (replaceName old new) :=
      fun b hb => rebuild_relabel_eq_rename hb fun c hc => ih c (size_lt_of_mem_parts hc) b
    rw [renameBound_eq] at hfree ⊢
    obtain ⟨kind, modifiers, annotations⟩ := n
    cases kind with
    | ref name =>
      dsimp only at hfree ⊢
      rw [rename_mk]
      split at hfree
      · rename_i hbound
        have hname : name = old := beq_iff_eq.1 (Bool.and_eq_true_iff.1 hbound).2
        rw [if_pos hbound, Kind.relabel, replaceName, if_pos hname]
        rfl
      · rename_i hbound
        have hname : name ≠ old := fun he => hfree (by rw [names_eq, he]; exact List.mem_append_left _ List.mem_cons_self)
        rw [if_neg hbound, Kind.relabel, replaceName, if_neg hname]
    | cyclic definitions root => exact hmap false hfree
    | generic parameters body =>
      dsimp only at hfree ⊢
      split at hfree
      · rename_i hbinds
        rw [if_pos hbinds]
        exact hrelabel true hfree
      · rename_i hbinds
        rw [if_neg hbinds]
        exact hmap bound hfree
    | deferred operator operands options =>
      cases operands with
      | nil => cases operator <;> exact hmap bound hfree
      | cons key rest =>
        cases operator
        case mapped =>
          dsimp only at hfree ⊢
          split at hfree
          · rename_i hbinds
            rw [if_pos hbinds]
            obtain ⟨form, flags, notes⟩ := key
            cases form
            case parameter p =>
              have hkey : (⟨.parameter p, flags, notes⟩ : Node).renameBound old new bound =
                  ⟨(Kind.parameter p).map (renameBound old new bound), flags, notes⟩ := renameBound_eq old new bound _
              rw [hkey] at hfree ⊢
              dsimp only at hfree ⊢
              rw [Kind.relabel_map, Function.id_comp] at hfree ⊢
              have hparts : ∀ c ∈ (⟨(Kind.parameter p).relabel (replaceName old new) (renameBound old new bound), flags,
                  notes⟩ : Node) :: rest.map (renameBound old new true), old ∉ c.names := by
                intro c hc hold
                refine hfree ?_
                rw [names_rebuild]
                exact List.mem_append_right _ (List.mem_flatMap.2 ⟨c, hc, hold⟩)
              rw [List.forall_mem_cons] at hparts
              have hsizes : ∀ {c : Node}, c ∈ ⟨.parameter p, flags, notes⟩ :: rest → c.size <
                  (⟨.deferred .mapped (⟨.parameter p, flags, notes⟩ :: rest) options, modifiers, annotations⟩ : Node).size :=
                fun hc => size_lt_of_mem_parts hc
              have hrenamed := rebuild_relabel_eq_rename (n := ⟨.parameter p, flags, notes⟩) hparts.1 fun c hc =>
                ih c ((size_lt_of_mem_parts hc).trans (hsizes List.mem_cons_self)) bound
              have hrest : rest.map (renameBound old new true) = rest.map (rename (replaceName old new)) :=
                List.map_congr_left fun c hc =>
                  ih c (hsizes (List.mem_cons_of_mem _ hc)) true (hparts.2 _ (List.mem_map_of_mem hc))
              rw [rename_mk]
              exact congrArg₂ (fun k r => Node.mk (.deferred .mapped (k :: r) options) modifiers annotations) hrenamed hrest
            all_goals cases hbinds
          · rename_i hbinds
            rw [if_neg hbinds]
            exact hmap bound hfree
        all_goals exact hmap bound hfree
    | _ => exact hmap bound hfree

end

end Node

/-! ## Exchanging two names -/

/-- **A name that is not made up**: not of a word and a name, as `word<name>`, and not that of a generic without one. -/
structure PlainName where
  name : String
  simple : '<' ∉ name.toList
  named : name ≠ anonymous

/-- The word and the name that a name `word<name>` is made of. -/
def madeUp? (cs : List Char) : Option (List Char × List Char) :=
  match cs.dropWhile (· != '<') with
  | [] => none
  | _ :: rest => if rest.getLast? = some '>' then some (cs.takeWhile (· != '<'), rest.dropLast) else none

theorem madeUp?_eq_some_iff {cs word name : List Char} :
    madeUp? cs = some (word, name) ↔ '<' ∉ word ∧ cs = word ++ '<' :: (name ++ ['>']) := by
  constructor
  · intro h
    unfold madeUp? at h
    split at h
    · cases h
    · rename_i head rest hdrop
      split at h
      · rename_i hlast
        cases h
        have hhead : head = '<' := by simpa [hdrop] using List.head?_dropWhile_not (· != '<') cs
        refine ⟨fun hmem => by simpa using List.mem_takeWhile_imp hmem, ?_⟩
        have hcs : cs = cs.takeWhile (· != '<') ++ head :: rest := by rw [← hdrop, List.takeWhile_append_dropWhile]
        rw [List.dropLast_append_getLast? '>' hlast]
        simpa only [hhead] using hcs
      · cases h
  · rintro ⟨hword, rfl⟩
    have hbefore : ∀ c ∈ word, (c != '<') = true := fun c hc => bne_iff_ne.2 fun he => hword (he ▸ hc)
    unfold madeUp?
    rw [List.dropWhile_append_of_pos hbefore, List.takeWhile_append_of_pos hbefore]
    simp

theorem madeUp?_eq_none {cs : List Char} (h : '<' ∉ cs) : madeUp? cs = none := by
  rw [Option.eq_none_iff_forall_ne_some]
  rintro ⟨word, name⟩ he
  exact h ((madeUp?_eq_some_iff.1 he).2 ▸ by simp)

/-- Two texts exchanged, in made-up names too. -/
def exchangeChars (a b cs : List Char) : List Char :=
  match _h : madeUp? cs with
  | some (word, name) => word ++ '<' :: (exchangeChars a b name ++ ['>'])
  | none => if cs = a then b else if cs = b then a else cs
termination_by cs.length
decreasing_by
  rw [(madeUp?_eq_some_iff.1 _h).2]
  simp
  omega

theorem exchangeChars_of_some {a b cs word name : List Char} (h : madeUp? cs = some (word, name)) :
    exchangeChars a b cs = word ++ '<' :: (exchangeChars a b name ++ ['>']) := by
  rw [exchangeChars]
  split
  · rename_i he
    cases h.symm.trans he
    rfl
  · rename_i he
    cases h.symm.trans he

theorem exchangeChars_of_none {a b cs : List Char} (h : madeUp? cs = none) :
    exchangeChars a b cs = if cs = a then b else if cs = b then a else cs := by
  rw [exchangeChars]
  split
  · rename_i he
    cases h.symm.trans he
  · rfl

theorem exchangeChars_exchangeChars {a b : List Char} (ha : '<' ∉ a) (hb : '<' ∉ b) (cs : List Char) :
    exchangeChars a b (exchangeChars a b cs) = cs := by
  induction hlength : cs.length using Nat.strong_induction_on generalizing cs with
  | _ length ih =>
    cases h : madeUp? cs with
    | some parts =>
      obtain ⟨word, name⟩ := parts
      obtain ⟨hword, hcs⟩ := madeUp?_eq_some_iff.1 h
      have hname : exchangeChars a b (exchangeChars a b name) = name :=
        ih name.length (by rw [← hlength, hcs]; simp; omega) name rfl
      rw [exchangeChars_of_some h, exchangeChars_of_some (madeUp?_eq_some_iff.2 ⟨hword, rfl⟩), hname, hcs]
    | none =>
      rw [exchangeChars_of_none h]
      split
      · rename_i hca
        rw [exchangeChars_of_none (madeUp?_eq_none hb), hca]
        split <;> simp_all
      · split
        · rename_i hcb
          rw [exchangeChars_of_none (madeUp?_eq_none ha), if_pos rfl, hcb]
        · rename_i hca hcb
          rw [exchangeChars_of_none h, if_neg hca, if_neg hcb]

/-- **Exchanges two names**, and all names that are made up from one of them. -/
def exchange (a b : PlainName) : Equiv.Perm String :=
  Function.Involutive.toPerm (fun x => String.ofList (exchangeChars a.name.toList b.name.toList x.toList)) fun x => by
    dsimp only
    rw [String.toList_ofList, exchangeChars_exchangeChars a.simple b.simple, String.ofList_toList]

section
variable (a b : PlainName)

theorem exchange_apply (x : String) :
    exchange a b x = String.ofList (exchangeChars a.name.toList b.name.toList x.toList) := rfl

theorem exchange_of_simple {x : String} (h : '<' ∉ x.toList) :
    exchange a b x = if x = a.name then b.name else if x = b.name then a.name else x := by
  rw [exchange_apply, exchangeChars_of_none (madeUp?_eq_none h)]
  simp only [String.toList_inj]
  split
  · exact String.ofList_toList
  · split <;> exact String.ofList_toList

theorem exchange_made {word : String} (h : '<' ∉ word.toList) (x : String) :
    exchange a b (word ++ "<" ++ x ++ ">") = word ++ "<" ++ exchange a b x ++ ">" := by
  have hchars : (word ++ "<" ++ x ++ ">").toList = word.toList ++ '<' :: (x.toList ++ ['>']) := by simp
  rw [exchange_apply, hchars, exchangeChars_of_some (madeUp?_eq_some_iff.2 ⟨h, rfl⟩), ← String.toList_inj, exchange_apply]
  simp

/-- **Names that operators make up follow an exchange of plain names.** -/
theorem consistent_exchange : Consistent (exchange a b) where
  bundle operator root := exchange_made a b (by cases operator <;> decide) root
  anonymous := by
    rw [exchange_of_simple a b (by decide), if_neg (Ne.symm a.named), if_neg (Ne.symm b.named)]

end
end Schemata
