import Attribution.Ty.Basic
/-!
# Relations between types

Assignability, comparability, the common supertype of two types and the result of arithmetic.
-/
namespace Attribution
namespace Ty

/-- Whether a value of the first type can be stored where the second is expected. Integers widen
to floating point numbers, arrays follow their components, null fits every reference, and nothing
fits `Void` or comes from it. -/
def assignable : Ty → Ty → Bool
  | void, _ => false
  | _, void => false
  | int, float => true
  | array a, array b => a.assignable b
  | array _, _ => false
  | null, target => target.isNullable
  | a, b => a.same b

/-- Whether values of the two types can be tested for equality. -/
def comparable (a b : Ty) : Bool :=
  !a.isVoid && !b.isVoid &&
    ((a.isNullable && b.isNullable) || a.same b || (a.isNumeric && b.isNumeric))

/-- The one of two types to which both can be assigned; the second if either would do. -/
def commonSupertype (a b : Ty) : Option Ty :=
  if a.assignable b then some b
  else if b.assignable a then some a
  else none

/-- The result of an arithmetic operator. A sum with a string is a string; otherwise both operands
are numbers, and the result is an integer only if both are. -/
def arithmetic (op : BinaryOp) (left right : Ty) : Option Ty :=
  if op = .add ∧ (left.isString ∨ right.isString) then some string
  else if left.isInt ∧ right.isInt then some int
  else if left.isNumeric ∧ right.isNumeric then some float
  else none

/-- The number of types in the list when equal ones are counted once. -/
def distinct : List Ty → Nat
  | [] => 0
  | t :: ts => if ts.any t.same then distinct ts else distinct ts + 1

end Ty
end Attribution
