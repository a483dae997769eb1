import Schemata.Comparison
import Schemata.Operator.Setting
/-!
# Operators on unions

Filtering sees the left operand as a list of branches, `boolean` as its two values, and keeps those that fit the right
operand or those that do not.
-/
namespace Schemata

mutual
/-- The branches of a type: unions opened, `boolean` split, `never` left out. -/
def branches : Node → List Node
  | ⟨.union variants, _, _⟩ => branchesAll variants
  | ⟨.primitive .boolean, _, _⟩ => [.truth true, .truth false]
  | ⟨.primitive .never, _, _⟩ => []
  | n => [n]

def branchesAll : List Node → List Node
  | [] => []
  | n :: ns => branches n ++ branchesAll ns
end

/-- **Keeps the branches that fit**, or those that do not; nothing is decided before all types are concrete. -/
def filterBranches (s : Setting) (keep : Bool) : List Node → Outcome (Option Node)
  | [left, right] =>
    let candidates := branches left
    if right.isConcrete && candidates.all Node.isConcrete then
      pure (some (.unionOf (candidates.filter fun branch => branch.fits right == keep)))
    else pure none
  | operands => s.wrongArity (.exactly 2) operands

/-- The variants of a type, one level deep. -/
def variantsOf (n : Node) : List Node :=
  match n.kind with
  | .union variants => variants
  | _ => [n]

/-- **Leaves `null` and `undefined` out.** -/
def nonNullable (s : Setting) : List Node → Outcome (Option Node)
  | [subject] =>
    if subject.isUnresolved then pure none
    else pure (some (.unionOf ((variantsOf subject).filter fun n => !(n.isPrimitive .null || n.isPrimitive .undefined))))
  | operands => s.wrongArity (.exactly 1) operands

end Schemata
