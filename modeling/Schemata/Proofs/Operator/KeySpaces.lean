import Schemata.Proofs.Comparison.Values
import Schemata.Proofs.Node.Normal
/-!
# Two readings of a key operand

Picking, omitting and access read names off a key operand (`literalKeys`); mapped types and records read a space of
literals off it (`keySpace`).

- The one lists names if and only if the other is finite, and the names are then the texts of the keys as they stand,
  with repetitions (`literalKeys_eq_done_iff`).
- The space leaves out repeated literals, and what is left may still repeat a text.  Without repetitions the texts are
  the same, for equal literals have one text (`Literal.toKey_eq_of_same`): all but the two zeros, one of which is
  written with its sign.

Main statement: `literalKeys_iff_keySpace`.
-/
namespace Schemata

/-! ## Minus zero -/

def Number.isMinusZero : Number → Bool
  | .finite negative m => negative && m.mantissa == 0
  | _ => false

def Literal.isMinusZero : Literal → Bool
  | .number x => x.isMinusZero
  | _ => false

def Kind.lacksMinusZero : Kind Node → Bool
  | .literal l => !l.isMinusZero
  | _ => true

/-- **Whether no literal of the tree is minus zero.** -/
def Node.lacksMinusZero (n : Node) : Bool := n.everywhere Kind.lacksMinusZero

theorem Node.lacksMinusZero_iff {n : Node} :
    n.lacksMinusZero = true ↔ n.kind.lacksMinusZero = true ∧ ∀ c ∈ n.kind.parts, c.lacksMinusZero = true :=
  everywhere_iff

theorem Number.isPlain_of_same {x y : Number} (hx : x.isMinusZero = false) (h : (x == y) = true) :
    x.isPlain = true := by
  cases x with
  -- NaN equals nothing.
  | nan => cases h
  | infinite negative => rfl
  | finite negative m =>
    rw [isMinusZero, Bool.and_eq_false_iff] at hx
    rw [isPlain, Bool.or_eq_true, Bool.not_eq_true', bne, Bool.not_eq_true']
    exact hx

theorem Literal.isPlain_of_same {l l' : Literal} (hl : l.isMinusZero = false) (h : (l == l') = true) :
    l.isPlain = true := by
  cases l with
  | number x =>
    cases l' with
    | number y => exact Number.isPlain_of_same hl h
    | _ => cases h
  | _ => rfl

/-- **Equal literals have one text**, unless one of them is minus zero. -/
theorem Literal.toKey_eq_of_same {l l' : Literal} (hl : l.isMinusZero = false) (hl' : l'.isMinusZero = false)
    (h : (l == l') = true) : l.toKey = l'.toKey :=
  congrArg toKey (eq_of_same (isPlain_of_same hl h) (isPlain_of_same hl' (sameAs_symm h)) h)

/-! ## Spaces -/

namespace KeySpace

/-- The texts of the keys, when there are finitely many. -/
def names? : KeySpace → Option (List String)
  | .finite keys => some (keys.map Literal.toKey)
  | _ => none

theorem names?_eq_some_iff {space : KeySpace} {names : List String} :
    space.names? = some names ↔ ∃ keys, space = .finite keys ∧ keys.map Literal.toKey = names := by
  cases space <;> simp [names?]

theorem names?_join (a b : KeySpace) : (a.join b).names? = a.names?.bind fun names => b.names?.map (names ++ ·) := by
  cases a <;> cases b <;> simp [join, names?]

theorem once_eq_finite_iff {space : KeySpace} {keys : List Literal} :
    space.once = .finite keys ↔ ∃ all, space = .finite all ∧ distinct all = keys := by
  cases space <;> simp [once]

/-- What holds of each of the keys that are listed. -/
def Each (P : Literal → Prop) : KeySpace → Prop
  | .finite keys => ∀ l ∈ keys, P l
  | _ => True

theorem Each.join {P : Literal → Prop} {a b : KeySpace} (ha : a.Each P) (hb : b.Each P) : (a.join b).Each P := by
  cases a <;> cases b <;> try trivial
  case finite.finite keys more =>
    intro l hl
    exact (List.mem_append.1 hl).elim (ha l) (hb l)

end KeySpace

/-! ## Operands -/

section
variable (s : Setting)

mutual
/-- **Names are listed when the keys are**, and are their texts, one for each key. -/
theorem literalKeys_eq_done_iff (n : Node) {names : List String} :
    literalKeys s n = .done (some names) ↔ (keysOf s.templateLimit n).names? = some names := by
  obtain ⟨kind, modifiers, annotations⟩ := n
  cases kind with
  | literal l =>
    change Outcome.done (some [l.toKey]) = _ ↔ some [l.toKey] = _
    rw [Outcome.done.injEq]
  | union variants => exact literalKeysAll_eq_done_iff variants
  | templatePattern fragments =>
    simp only [literalKeys, keysOf]
    cases expand s.templateLimit fragments with
    | finite texts =>
      have htexts : (texts.map Literal.string).map Literal.toKey = texts := by
        rw [List.map_map]
        exact List.map_id texts
      change Outcome.done (some texts) = _ ↔ some ((texts.map Literal.string).map Literal.toKey) = _
      rw [Outcome.done.injEq, htexts]
    | _ => exact ⟨nofun, nofun⟩
  | primitive p =>
    cases p with
    | never =>
      change Outcome.done (some []) = _ ↔ some [] = _
      rw [Outcome.done.injEq]
    | _ => exact ⟨nofun, nofun⟩
  -- Every other form lists neither: it is not known yet, or it is no key.
  | _ => exact ⟨nofun, nofun⟩

theorem literalKeysAll_eq_done_iff (ns : List Node) {names : List String} :
    literalKeysAll s ns = .done (some names) ↔ (keysOfAll s.templateLimit ns).names? = some names := by
  cases ns with
  | nil =>
    change Outcome.done (some []) = _ ↔ some [] = _
    rw [Outcome.done.injEq]
  | cons n ns =>
    rw [literalKeysAll, keysOfAll, KeySpace.names?_join, Outcome.bind_eq_done, Option.bind_eq_some_iff]
    constructor
    · rintro ⟨_ | front, hfront, h⟩
      · cases h
      · obtain ⟨rest, hrest, h⟩ := Outcome.bind_eq_done.1 h
        obtain ⟨back, rfl, rfl⟩ := Option.map_eq_some_iff.1 (Outcome.done.inj h)
        refine ⟨front, (literalKeys_eq_done_iff n).1 hfront, ?_⟩
        rw [(literalKeysAll_eq_done_iff ns).1 hrest]
        rfl
    · rintro ⟨front, hfront, h⟩
      obtain ⟨back, hback, rfl⟩ := Option.map_eq_some_iff.1 h
      refine ⟨some front, (literalKeys_eq_done_iff n).2 hfront, ?_⟩
      rw [(literalKeysAll_eq_done_iff ns).2 hback]
      rfl
end

end

section
variable {limit : Nat}

mutual
/-- The keys of an operand lack minus zero as it does; those of a template are texts. -/
theorem each_keysOf_of_lacksMinusZero {n : Node} (h : n.lacksMinusZero = true) :
    (keysOf limit n).Each (·.isMinusZero = false) := by
  rw [Node.lacksMinusZero_iff] at h
  obtain ⟨kind, modifiers, annotations⟩ := n
  cases kind with
  | literal l =>
    intro l' hl'
    rw [List.mem_singleton.1 hl']
    exact (Bool.not_eq_true' _).mp h.1
  | union variants => exact each_keysOfAll_of_lacksMinusZero h.2
  | templatePattern fragments =>
    rw [keysOf]
    cases expand limit fragments with
    | finite texts =>
      intro l hl
      obtain ⟨text, _, rfl⟩ := List.mem_map.1 hl
      rfl
    | _ => trivial
  | primitive p =>
    cases p with
    | never =>
      intro l hl
      cases hl
    | _ => trivial
  | _ => trivial

theorem each_keysOfAll_of_lacksMinusZero {ns : List Node} (h : ∀ n ∈ ns, n.lacksMinusZero = true) :
    (keysOfAll limit ns).Each (·.isMinusZero = false) := by
  cases ns with
  | nil =>
    intro l hl
    cases hl
  | cons n ns =>
    rw [List.forall_mem_cons] at h
    rw [keysOfAll]
    exact (each_keysOf_of_lacksMinusZero h.1).join (each_keysOfAll_of_lacksMinusZero h.2)
end

end

/-! ## Agreement -/

/-- **The two readings of a key operand agree**: names are listed if and only if the space of keys is finite, and
without repetitions they are the texts of its literals without repetitions, in the same order. -/
theorem literalKeys_iff_keySpace (s : Setting) {n : Node} (hn : n.lacksMinusZero = true) :
    ((∃ names, literalKeys s n = .done (some names)) ↔ ∃ keys, keySpace s.templateLimit n = .finite keys) ∧
      ∀ names keys, literalKeys s n = .done (some names) → keySpace s.templateLimit n = .finite keys →
        distinct names = distinct (keys.map Literal.toKey) := by
  simp only [keySpace, KeySpace.once_eq_finite_iff, literalKeys_eq_done_iff, KeySpace.names?_eq_some_iff]
  refine ⟨⟨fun ⟨_, all, hall, _⟩ => ⟨distinct all, all, hall, rfl⟩, fun ⟨_, all, hall, _⟩ => ⟨_, all, hall, rfl⟩⟩, ?_⟩
  rintro names keys ⟨all, hall, rfl⟩ ⟨all', hall', rfl⟩
  cases hall.symm.trans hall'
  have hzero : (KeySpace.finite all).Each (·.isMinusZero = false) := hall ▸ each_keysOf_of_lacksMinusZero hn
  have htext : ∀ l ∈ all, ∀ l' ∈ all, (l == l') = true → (l.toKey == l'.toKey) = true := fun l hl l' hl' h =>
    beq_iff_eq.2 (Literal.toKey_eq_of_same (hzero l hl) (hzero l' hl') h)
  exact (distinct_map_distinct (fun _ _ _ h h' => beq_iff_eq.2 ((beq_iff_eq.1 h).trans (beq_iff_eq.1 h'))) htext).symm

/-- The two zeros are one literal, of two texts. -/
example :
    let zeros : Node := .union [.literal (.number (.finite true .zero)), .natural 0]
    (keysOf 4 zeros).names? = some ["-0", "0"] ∧ (keySpace 4 zeros).names? = some ["-0"] := by decide +kernel

/-- Keys of one text, repeated ones and NaN, which equals no key; and the same keys beside one that has no end. -/
theorem literalKeys_iff_keySpace_mixed :
    let s : Setting := ⟨4, fun _ _ n => .done n, [], {}, .pick⟩
    let n : Node := .union [.natural 1, .templatePattern [.text "x", .union [.text "a", .text "b"]],
      .union [.text "1", .never, .literal (.number .nan), .text "xb"], .literal (.number .nan)]
    n.lacksMinusZero = true ∧ (Node.union [n, .string]).lacksMinusZero = true ∧
      literalKeys s n = .done (some ["1", "xa", "xb", "1", "NaN", "xb", "NaN"]) ∧
      (∃ keys, keySpace 4 n = .finite keys ∧ distinct (keys.map Literal.toKey) = ["1", "xa", "xb", "NaN"]) ∧
      ¬ ∃ names, literalKeys s (.union [n, .string]) = .done (some names) := by
  intro s n
  have hn : n.lacksMinusZero = true := by decide +kernel
  have hmore : (Node.union [n, .string]).lacksMinusZero = true := by decide +kernel
  have hnames : literalKeys s n = .done (some ["1", "xa", "xb", "1", "NaN", "xb", "NaN"]) :=
    (literalKeys_eq_done_iff s n).2 (by decide +kernel)
  obtain ⟨keys, hkeys⟩ := (literalKeys_iff_keySpace s hn).1.1 ⟨_, hnames⟩
  have htexts := (literalKeys_iff_keySpace s hn).2 _ keys hnames hkeys
  refine ⟨hn, hmore, hnames, ⟨keys, hkeys, htexts.symm.trans (by decide +kernel)⟩, fun h => ?_⟩
  obtain ⟨keys, hkeys⟩ := (literalKeys_iff_keySpace s hmore).1.1 h
  have hnone : (keySpace 4 (.union [n, .string])).names? = none := by decide +kernel
  have hsome := KeySpace.names?_eq_some_iff.2 ⟨keys, hkeys, rfl⟩
  cases hnone.symm.trans hsome

end Schemata
