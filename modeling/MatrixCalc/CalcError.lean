import MatrixCalc.Decimal.Positional
import MatrixCalc.Function
import MatrixCalc.Operator
import MatrixCalc.Shape

/-!
# Why a calculation has no value

Each cause is a constructor that holds what its message names. `CalcError.message` is the one
place for the wording.
-/
namespace MatrixCalc

inductive Wanted where
  | scalar
  | vector
  | matrix
  | scalarOrMatrix
  deriving DecidableEq

def Wanted.phrase : Wanted → String
  | scalar => "a scalar"
  | vector => "a vector"
  | matrix => "a matrix"
  | scalarOrMatrix => "a scalar or a matrix"

inductive CalcError where
  | divisionByZero
  | fractionalRemainder (left right : Float)
  | factorialOfNumber (x : Float)
  | factorialOfShape (found : Shape)
  | unsupportedSize (n : Nat)
  | raggedRow (row cells : Nat) (d : Dim)
  | unequalSizes (op : Operator) (left right : Shape)
  /-- An argument of the right kind and the wrong size. -/
  | argumentSize (argument : Nat) (f : Function) (wanted found : Shape)
  | wrongKind (operand : String) (wanted : Wanted) (found : Shape)
  | lengthOfMatrix
  | unlikeShapes (left right : Shape)
  | unsupportedOperator (op : Operator) (left right : Shape)
  /-- A function that nothing computes, or that is no constructor of the kind asked for. -/
  | unknownFunction (f : Function)
  | argumentCount (expected found : Nat)
  | zeroAxis
  | randomBound (x : Float)
  | singularMatrix
  | overflow
  deriving DecidableEq

def maxRandomBound : Nat := 32768

namespace CalcError

private def mismatch (details : String) : String := s!"Error: Type mismatch: {details}."

private def sizes (details : String) : String := s!"Error: Dimension mismatch: {details}."

private def number (x : Float) : String := String.ofList (Decimal.text x)

def message : CalcError → String
  | divisionByZero => "Error: Division by zero."
  | fractionalRemainder left right =>
    s!"Error: Modulo needs integral operands, found {number left} % {number right}."
  | factorialOfNumber x =>
    s!"Error: Factorial is only defined for non-negative integers: found {number x}."
  | factorialOfShape found =>
    s!"Error: Factorial is only defined for non-negative integers: found a {found.name}."
  | unsupportedSize n => sizes s!"{n} is not a supported size, expected 2 to 4"
  | raggedRow row cells d =>
    sizes s!"row {row} has {cells} cells in a {d.toNat}x{d.toNat} matrix"
  | unequalSizes op left right =>
    sizes s!"cannot apply '{op.symbol}' to {left.name} and {right.name}"
  | argumentSize argument f wanted found =>
    sizes s!"argument {argument} of {f.name} must be a {wanted.name}, found {found.name}"
  | wrongKind operand wanted found =>
    mismatch s!"{operand} must be {wanted.phrase}, found {found.name}"
  | lengthOfMatrix => mismatch "length expects a scalar or a vector, found a matrix"
  | unlikeShapes left right =>
    mismatch s!"mix expects two values of the same shape, found {left.name} and {right.name}"
  | unsupportedOperator op left right =>
    s!"Error: Operator '{op.symbol}' is not defined for {left.name} and {right.name}."
  | unknownFunction f => s!"Error: Unknown function '{f.name}'."
  | argumentCount expected found => s!"Error: Expected {expected} arguments, found {found}."
  | zeroAxis => "Error: Invalid argument: rotation axis must not be zero."
  | randomBound x =>
    s!"Error: Invalid argument: rand expects a whole number between 1 and {maxRandomBound}, found {number x}."
  | singularMatrix => "Error: Matrix is singular and has no inverse."
  | overflow => "Error: Result is too large to be represented."

end CalcError
end MatrixCalc
