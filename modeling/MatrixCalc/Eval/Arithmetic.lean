import MatrixCalc.Binary64.Integral
import MatrixCalc.Value.Basic

/-!
# Operators between values

Two numbers combine as numbers. A number and a shaped value combine component by component;
two vectors of one size add and subtract; a matrix multiplies a matrix or a vector of its size.
Every other pair of operands is refused.
-/
namespace MatrixCalc

namespace Operator

/-- The operation on numbers, without a look at its domain. -/
def number : Operator → Float → Float → Float
  | add, x, y => x + y
  | sub, x, y => x - y
  | mul, x, y => x * y
  | div, x, y => x / y
  | mod, x, y => Binary64.remainder x y
  | pow, x, y => x.pow y

/-- Two numbers. A quotient needs a divisor other than zero; a remainder needs whole operands
first and then such a divisor. -/
def scalars (op : Operator) (x y : Float) : Except CalcError Float :=
  match op with
  | div => if y == 0 then .error .divisionByZero else .ok (op.number x y)
  | mod =>
    if !Binary64.isWhole x || !Binary64.isWhole y then .error (.fractionalRemainder x y)
    else if y == 0 then .error .divisionByZero
    else .ok (op.number x y)
  | _ => .ok (op.number x y)

def broadcasts : Operator → Bool
  | add | sub | mul | div => true
  | mod | pow => false

def broadcast (op : Operator) (left right : Value) : Except CalcError Value :=
  if !op.broadcasts then .error (.unsupportedOperator op left.shape right.shape)
  else if op = div ∧ right.cells.any (· == 0) then .error .divisionByZero
  else
    match left, right with
    | .scalar x, v => .ok (v.map fun y => op.number x y)
    | v, .scalar y => .ok (v.map fun x => op.number x y)
    | _, _ => .error (.unsupportedOperator op left.shape right.shape)

def vectors (op : Operator) (v w : Vec Float) : Except CalcError Value :=
  if op.level ≠ .sum then .error (.unsupportedOperator op (.vec v.dim) (.vec w.dim))
  else if v.dim ≠ w.dim then .error (.unequalSizes op (.vec v.dim) (.vec w.dim))
  else .ok (.vector (v.zipWith op.number w))

/-- A matrix with a matrix or a column vector: the product, of one size. -/
def matrices (op : Operator) (left right : Value) : Except CalcError Value :=
  if op ≠ mul then .error (.unsupportedOperator op left.shape right.shape)
  else if left.shape.size ≠ right.shape.size then
    .error (.unequalSizes op left.shape right.shape)
  else
    match left, right with
    | .matrix a, .matrix b => .ok (.matrix (a.product b))
    | .matrix m, .vector v => .ok (.vector (m.apply v))
    | _, _ => .error (.unsupportedOperator op left.shape right.shape)

def values (op : Operator) (left right : Value) : Except CalcError Value :=
  match left, right with
  | .scalar x, .scalar y => (op.scalars x y).map .scalar
  | .scalar _, _ | _, .scalar _ => op.broadcast left right
  | .vector v, .vector w => op.vectors v w
  | .matrix _, _ => op.matrices left right
  | .vector _, .matrix _ => .error (.unsupportedOperator op left.shape right.shape)

end Operator
end MatrixCalc
