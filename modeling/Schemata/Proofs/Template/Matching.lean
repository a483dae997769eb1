import Mathlib.Logic.Relation
import Mathlib.Tactic.Common
import Schemata.Template.Pattern
/-!
# The texts of a pattern

`Pattern.Matches` says which texts a pattern stands for, without any text around them.  Main statement: a usable pattern
accepts these texts and no others (`Pattern.accepts_iff`).

`Along cs L i j` says that a text of `L` stands between the places `i` and `j` of `cs`.  What marks do and what a
regular expression does are both told by it.
-/
namespace Schemata

open Relation (ReflTransGen)

/-! ## Places in a text -/

/-- A set of texts. -/
abbrev Texts := List Char → Prop

namespace Texts

/-- A text of one set, then one of another. -/
def append (A B : Texts) : Texts := fun cs => ∃ front back, cs = front ++ back ∧ A front ∧ B back

def either (A B : Texts) : Texts := fun cs => A cs ∨ B cs

/-- One character of a kind. -/
def one (kind : Char → Bool) : Texts := fun cs => ∃ c, cs = [c] ∧ kind c = true

/-- Any number of characters of a kind. -/
def many (kind : Char → Bool) : Texts := fun cs => ∀ c ∈ cs, kind c = true

/-- At least one character of a kind. -/
def some (kind : Char → Bool) : Texts := append (one kind) (many kind)

theorem either_none (A : Texts) : either A (fun _ => False) = A := funext fun _ => or_false _

theorem append_one_eq (t : Char) (text : List Char) : append (one (· == t)) (· = text) = (· = t :: text) := by
  refine funext fun cs => propext ⟨?_, ?_⟩
  · rintro ⟨_, _, rfl, ⟨c, rfl, hc⟩, rfl⟩
    rw [eq_of_beq hc]
    rfl
  · rintro rfl
    exact ⟨[t], text, rfl, ⟨t, rfl, beq_self_eq_true t⟩, rfl⟩

end Texts

/-- The characters between two places. -/
def between (cs : List Char) (i j : Nat) : List Char := (cs.take j).drop i

/-- **A text of `L` stands between two places.** -/
def Along (cs : List Char) (L : Texts) (i j : Nat) : Prop := i ≤ j ∧ j ≤ cs.length ∧ L (between cs i j)

section
variable {cs : List Char} {A B L : Texts} {i j k : Nat}

theorem between_self (cs : List Char) (i : Nat) : between cs i i = [] := by
  rw [between, List.drop_eq_nil_iff]
  exact List.length_take_le i cs

theorem between_append (hij : i ≤ j) (hjk : j ≤ k) : between cs i j ++ between cs j k = between cs i k := by
  have htake : cs.take j = (cs.take k).take j := by rw [List.take_take, Nat.min_eq_left hjk]
  rw [between, between, between, htake]
  generalize cs.take k = ds
  conv_rhs => rw [← List.take_append_drop j ds]
  by_cases hlen : j ≤ ds.length
  · rw [List.drop_append_of_le_length (by rw [List.length_take, Nat.min_eq_left hlen]; exact hij)]
  · rw [List.drop_eq_nil_of_le (Nat.le_of_not_le hlen), List.append_nil, List.append_nil]

theorem length_between (hj : j ≤ cs.length) : (between cs i j).length = j - i := by
  rw [between, List.length_drop, List.length_take, Nat.min_eq_left hj]

theorem between_succ (hij : i ≤ j) (hj : j < cs.length) : between cs i (j + 1) = between cs i j ++ [cs[j]] := by
  rw [between, between, List.take_succ_eq_append_getElem hj, List.drop_append_of_le_length]
  rw [List.length_take, Nat.min_eq_left (Nat.le_of_lt hj)]
  exact hij

/-- What stands between two places is taken apart at a place between them. -/
theorem exists_between {front back : List Char} (hij : i ≤ j) (hj : j ≤ cs.length)
    (h : between cs i j = front ++ back) :
    ∃ k, i ≤ k ∧ k ≤ j ∧ between cs i k = front ∧ between cs k j = back := by
  have hlen := congrArg List.length h
  rw [length_between hj, List.length_append] at hlen
  have hik : i ≤ i + front.length := Nat.le_add_right i _
  have hkj : i + front.length ≤ j := by omega
  refine ⟨i + front.length, hik, hkj, ?_⟩
  refine List.append_inj ((between_append hik hkj).trans h) ?_
  rw [length_between (Nat.le_trans hkj hj)]
  omega

theorem along_nil : Along cs (· = []) i j ↔ i = j ∧ i ≤ cs.length := by
  constructor
  · rintro ⟨hij, hj, h⟩
    have hlen : (between cs i j).length = j - i := length_between hj
    rw [h, List.length_nil] at hlen
    omega
  · rintro ⟨rfl, hi⟩
    exact ⟨Nat.le_refl i, hi, between_self cs i⟩

theorem along_none : ¬ Along cs (fun _ => False) i j := fun h => h.2.2

theorem along_append : Along cs (.append A B) i j ↔ ∃ k, Along cs A i k ∧ Along cs B k j := by
  constructor
  · rintro ⟨hij, hj, front, back, h, hA, hB⟩
    obtain ⟨k, hik, hkj, rfl, rfl⟩ := exists_between hij hj h
    exact ⟨k, ⟨hik, Nat.le_trans hkj hj, hA⟩, hkj, hj, hB⟩
  · rintro ⟨k, ⟨hik, -, hA⟩, hkj, hj, hB⟩
    exact ⟨Nat.le_trans hik hkj, hj, _, _, (between_append hik hkj).symm, hA, hB⟩

theorem along_either : Along cs (.either A B) i j ↔ Along cs A i j ∨ Along cs B i j := by
  simp only [Along, Texts.either]
  tauto

theorem along_one {kind : Char → Bool} :
    Along cs (.one kind) i j ↔ ∃ c, cs[i]? = some c ∧ kind c = true ∧ j = i + 1 := by
  constructor
  · rintro ⟨hij, hj, c, h, hc⟩
    have hlen : (between cs i j).length = j - i := length_between hj
    rw [h, List.length_singleton] at hlen
    obtain rfl : j = i + 1 := by omega
    rw [between_succ (Nat.le_refl i) hj, between_self, List.nil_append] at h
    exact ⟨c, by rw [List.getElem?_eq_getElem hj, List.singleton_inj.1 h], hc, rfl⟩
  · rintro ⟨c, h, hc, rfl⟩
    obtain ⟨hi, rfl⟩ := List.getElem?_eq_some_iff.1 h
    exact ⟨Nat.le_succ i, hi, cs[i], by rw [between_succ (Nat.le_refl i) hi, between_self, List.nil_append], hc⟩

/-- Any number of characters of a kind are passed one after the other. -/
theorem along_many {kind : Char → Bool} :
    Along cs (.many kind) i j ↔ i ≤ cs.length ∧ ReflTransGen (Along cs (.one kind)) i j := by
  constructor
  · rintro ⟨hij, hj, h⟩
    refine ⟨Nat.le_trans hij hj, ?_⟩
    induction hij with
    | refl => exact .refl
    | @step j hij ih =>
      rw [between_succ hij hj] at h
      refine .tail (ih (Nat.le_of_succ_le hj) fun c hc => h c (List.mem_append_left _ hc)) ?_
      exact along_one.2 ⟨cs[j], List.getElem?_eq_getElem hj, h _ (List.mem_append_right _ List.mem_cons_self), rfl⟩
  · rintro ⟨hi, h⟩
    induction h with
    | refl => exact ⟨Nat.le_refl i, hi, by simp [Texts.many, between_self]⟩
    | tail _ hstep ih =>
      obtain ⟨hij, -, h⟩ := ih
      obtain ⟨c, hget, hc, rfl⟩ := along_one.1 hstep
      obtain ⟨hj, rfl⟩ := List.getElem?_eq_some_iff.1 hget
      refine ⟨Nat.le_succ_of_le hij, hj, ?_⟩
      rw [between_succ hij hj]
      intro x hx
      rcases List.mem_append.1 hx with hx | hx
      · exact h x hx
      · rw [List.mem_singleton.1 hx]
        exact hc

theorem along_whole : Along cs L 0 cs.length ↔ L cs := by
  rw [Along, between, List.take_length, List.drop_zero]
  simp

end

/-! ## The texts of a pattern -/

namespace Pattern

/-- Nothing, or a minus. -/
def signTexts : Texts := .either (· = []) (.one (· == '-'))

/-- Digits, or digits around a point with some behind it. -/
def magnitudeTexts : Texts :=
  .either (.some decimalDigit.has)
    (.append (.many decimalDigit.has) (.append (.one (· == '.')) (.some decimalDigit.has)))

mutual
/-- **Which texts match a pattern.** -/
def Matches : Pattern → Texts
  | .exactly text => (· = text.toList)
  | .anything => .many (· != '\n')
  | .number => .append signTexts magnitudeTexts
  | .whole => .append signTexts (.some decimalDigit.has)
  | .nothing => fun _ => False
  | .choice alternatives => if alternatives = [] then (· = []) else MatchesAny alternatives
  | .sequence parts => MatchesAll parts

def MatchesAny : List Pattern → Texts
  | [] => fun _ => False
  | p :: ps => .either (Matches p) (MatchesAny ps)

def MatchesAll : List Pattern → Texts
  | [] => (· = [])
  | p :: ps => .append (Matches p) (MatchesAll ps)
end

/-! ## What marks do -/

/-- **`move` takes each mark along every text of `L`** that begins there. -/
def Takes (cs : List Char) (move : Marks → Marks) (L : Texts) : Prop :=
  ∀ marks : Marks, marks.length = cs.length + 1 → (move marks).length = cs.length + 1 ∧
    ∀ j, (move marks)[j]? = some true ↔ ∃ i, marks[i]? = some true ∧ Along cs L i j

variable {cs : List Char} {f g : Marks → Marks} {A B : Texts}

theorem takes_nil : Takes cs (fun marks => marks) (· = []) := fun marks hlen => by
  refine ⟨hlen, fun j => ⟨fun h => ⟨j, h, along_nil.2 ⟨rfl, ?_⟩⟩, ?_⟩⟩
  · have hj : j < marks.length := (List.getElem?_eq_some_iff.1 h).1
    omega
  · rintro ⟨i, h, hij⟩
    exact (along_nil.1 hij).1 ▸ h

theorem takes_none : Takes cs (fun marks => marks.map fun _ => false) (fun _ => False) := fun marks hlen => by
  refine ⟨by rw [List.length_map, hlen], fun j => ⟨fun h => ?_, fun ⟨_, _, h⟩ => absurd h along_none⟩⟩
  rw [List.getElem?_map, Option.map_eq_some_iff] at h
  obtain ⟨_, _, h⟩ := h
  cases h

theorem Takes.append (hf : Takes cs f A) (hg : Takes cs g B) : Takes cs (fun marks => g (f marks)) (.append A B) :=
  fun marks hlen => by
  obtain ⟨hflen, hf⟩ := hf marks hlen
  obtain ⟨hglen, hg⟩ := hg (f marks) hflen
  refine ⟨hglen, fun j => ?_⟩
  rw [hg]
  simp only [hf, along_append]
  constructor
  · rintro ⟨k, ⟨i, hi, hA⟩, hB⟩
    exact ⟨i, hi, k, hA, hB⟩
  · rintro ⟨i, hi, k, hA, hB⟩
    exact ⟨k, ⟨i, hi, hA⟩, hB⟩

theorem Takes.either (hf : Takes cs f A) (hg : Takes cs g B) :
    Takes cs (fun marks => Pattern.either (f marks) (g marks)) (.either A B) := fun marks hlen => by
  obtain ⟨hflen, hf⟩ := hf marks hlen
  obtain ⟨hglen, hg⟩ := hg marks hlen
  refine ⟨(List.length_zipWith).trans (by rw [hflen, hglen, Nat.min_self]), fun j => ?_⟩
  have hor : (Pattern.either (f marks) (g marks))[j]? = some true ↔
      (f marks)[j]? = some true ∨ (g marks)[j]? = some true := by
    rw [Pattern.either, List.getElem?_zipWith]
    by_cases hj : j < cs.length + 1
    · rw [List.getElem?_eq_getElem (hflen ▸ hj), List.getElem?_eq_getElem (hglen ▸ hj)]
      simp
    · rw [List.getElem?_eq_none (by omega), List.getElem?_eq_none (by omega)]
      simp
  rw [hor, hf, hg]
  simp only [along_either, and_or_left, exists_or]

theorem takes_advance (kind : Char → Bool) : Takes cs (advance kind cs) (.one kind) := fun marks hlen => by
  refine ⟨by rw [advance, List.length_cons, List.length_zipWith]; omega, fun j => ?_⟩
  simp only [along_one]
  cases j with
  | zero => simp [advance]
  | succ j =>
    rw [advance, List.getElem?_cons_succ, List.getElem?_zipWith]
    constructor
    · intro h
      split at h
      · rename_i c mark hc hmark
        simp only [Option.some.injEq, Bool.and_eq_true] at h
        exact ⟨j, by rw [hmark, h.1], c, hc, h.2, rfl⟩
      · cases h
    · rintro ⟨i, hi, c, hc, hkind, hij⟩
      cases hij
      rw [hc, hi]
      exact congrArg some hkind

/-- Marks spread as long as the characters are of the kind; what is carried in goes on as a mark would. -/
theorem spread_eq_some_true (kind : Char → Bool) (carried : Bool) (marks : Marks) (hlen : marks.length = cs.length + 1)
    (j : Nat) : (spread kind carried cs marks)[j]? = some true ↔ j ≤ cs.length ∧
      ((carried = true ∧ Texts.many kind (cs.take j)) ∨
        ∃ i ≤ j, marks[i]? = some true ∧ Texts.many kind (between cs i j)) := by
  induction cs generalizing carried marks j with
  | nil =>
    obtain ⟨mark, rfl⟩ := List.length_eq_one_iff.1 hlen
    cases j <;> simp [spread, Texts.many, between]
  | cons c cs ih =>
    obtain ⟨mark, marks, rfl⟩ := List.exists_cons_of_length_eq_add_one hlen
    rw [spread]
    cases j with
    | zero => simp [Texts.many, between]
    | succ j =>
      have hbetween (i : Nat) : between (c :: cs) (i + 1) (j + 1) = between cs i j := rfl
      have hcons : Texts.many kind (c :: cs.take j) ↔ kind c = true ∧ Texts.many kind (cs.take j) :=
        List.forall_mem_cons
      rw [List.getElem?_cons_succ, ih _ _ (Nat.succ.inj hlen), List.length_cons, Nat.succ_le_succ_iff,
        List.take_succ_cons, hcons]
      refine and_congr_right fun _ => ?_
      simp only [Bool.and_eq_true, Bool.or_eq_true]
      -- A mark inside of the rest is one place further to the left than before.
      have hfirst : (∃ i ≤ j + 1, (mark :: marks)[i]? = some true ∧ Texts.many kind (between (c :: cs) i (j + 1))) ↔
          (mark = true ∧ kind c = true ∧ Texts.many kind (cs.take j)) ∨
            ∃ i ≤ j, marks[i]? = some true ∧ Texts.many kind (between cs i j) := by
        constructor
        · rintro ⟨_ | i, hij, hi, h⟩
          · rw [List.getElem?_cons_zero, Option.some.injEq] at hi
            exact .inl ⟨hi, hcons.1 h⟩
          · exact .inr ⟨i, Nat.le_of_succ_le_succ hij, hi, h⟩
        · rintro (⟨rfl, h⟩ | ⟨i, hij, hi, h⟩)
          · exact ⟨0, Nat.zero_le _, rfl, hcons.2 h⟩
          · exact ⟨i + 1, Nat.succ_le_succ hij, hi, h⟩
      simp only [hfirst, or_and_right, and_assoc, or_assoc]

theorem length_spread (kind : Char → Bool) (carried : Bool) (marks : Marks) (hlen : marks.length = cs.length + 1) :
    (spread kind carried cs marks).length = cs.length + 1 := by
  induction cs generalizing carried marks with
  | nil =>
    obtain ⟨mark, rfl⟩ := List.length_eq_one_iff.1 hlen
    rfl
  | cons c cs ih =>
    obtain ⟨mark, marks, rfl⟩ := List.exists_cons_of_length_eq_add_one hlen
    rw [spread, List.length_cons, ih _ _ (Nat.succ.inj hlen), List.length_cons]

theorem takes_spread (kind : Char → Bool) : Takes cs (spread kind false cs) (.many kind) := fun marks hlen => by
  refine ⟨length_spread kind false marks hlen, fun j => ?_⟩
  rw [spread_eq_some_true kind false marks hlen]
  simp only [Bool.false_eq_true, false_and, false_or, Along]
  constructor
  · rintro ⟨hj, i, hij, hi, h⟩
    exact ⟨i, hi, hij, hj, h⟩
  · rintro ⟨i, hi, hij, hj, h⟩
    exact ⟨hj, i, hij, hi, h⟩

theorem takes_advanceAlong (text : List Char) : Takes cs (advanceAlong text cs) (· = text) := by
  induction text with
  | nil => exact takes_nil
  | cons t text ih =>
    rw [← Texts.append_one_eq]
    exact (takes_advance (· == t)).append ih

theorem takes_advanceDigits : Takes cs (advanceDigits cs) (.some decimalDigit.has) :=
  (takes_advance _).append (takes_spread _)

theorem takes_advanceSign : Takes cs (advanceSign cs) signTexts := takes_nil.either (takes_advance _)

theorem takes_advanceMagnitude : Takes cs (advanceMagnitude cs) magnitudeTexts :=
  takes_advanceDigits.either ((takes_spread _).append ((takes_advance _).append takes_advanceDigits))

mutual
/-- **Marks are taken along the texts of the pattern.** -/
theorem takes_reach (cs : List Char) (p : Pattern) : Takes cs (reach cs p) p.Matches := by
  cases p with
  | exactly text => exact takes_advanceAlong text.toList
  | anything => exact takes_spread _
  | number => exact takes_advanceSign.append takes_advanceMagnitude
  | whole => exact takes_advanceSign.append takes_advanceDigits
  | nothing => exact takes_none
  | choice alternatives =>
    cases alternatives with
    | nil => exact takes_nil
    | cons p ps => exact takes_reachAny cs (p :: ps)
  | sequence parts => exact takes_reachAll cs parts

theorem takes_reachAny (cs : List Char) (ps : List Pattern) : Takes cs (reachAny cs ps) (MatchesAny ps) := by
  cases ps with
  | nil => exact takes_none
  | cons p ps => exact (takes_reach cs p).either (takes_reachAny cs ps)

theorem takes_reachAll (cs : List Char) (ps : List Pattern) : Takes cs (reachAll cs ps) (MatchesAll ps) := by
  cases ps with
  | nil => exact takes_nil
  | cons p ps => exact (takes_reach cs p).append (takes_reachAll cs ps)
end

theorem startMark_eq_some_true {i : Nat} : (startMark cs)[i]? = some true ↔ i = 0 := by
  cases i with
  | zero => simp [startMark]
  | succ i =>
    rw [startMark, List.getElem?_cons_succ, List.getElem?_map]
    cases cs[i]? <;> simp

/-- **A pattern accepts the texts that match it**, unless it is nested too deeply. -/
theorem accepts_iff {p : Pattern} {text : String} :
    p.accepts text = true ↔ p.isUsable = true ∧ p.Matches text.toList := by
  obtain ⟨hlen, hreach⟩ := takes_reach text.toList p (startMark text.toList) (by simp [startMark])
  have hlast : (p.reach text.toList (startMark text.toList)).getLastD false = true ↔ p.Matches text.toList := by
    rw [List.getLastD_eq_getLast?, List.getLast?_eq_getElem?, hlen, Nat.add_sub_cancel,
      ← along_whole (L := p.Matches)]
    generalize hget : (p.reach text.toList (startMark text.toList))[text.toList.length]? = last at *
    have hiff := hreach text.toList.length
    rw [hget] at hiff
    simp only [startMark_eq_some_true, exists_eq_left] at hiff
    rw [← hiff]
    cases last <;> simp
  rw [accepts, Bool.and_eq_true, hlast]

end Pattern
end Schemata
