import MatrixCalc.Binary64.Integral
import MatrixCalc.Eval.Arguments

/-!
# Functions of one argument

The real functions apply to each component or cell. Outside its domain such a function gives
a NaN or an infinity and no error. The factorial is for natural numbers only.
-/
namespace MatrixCalc

namespace Pointwise

def radiansPerDegree : Float := 3.141592653589793 / 180

def degreesPerRadian : Float := 57.2957795130823208767981548141051703

def real : Pointwise → Float → Float
  | rad, x => x * radiansPerDegree
  | deg, x => x * degreesPerRadian
  | sin, x => x.sin
  | cos, x => x.cos
  | tan, x => x.tan
  | asin, x => x.asin
  | acos, x => x.acos
  | atan, x => x.atan
  | sinh, x => x.sinh
  | cosh, x => x.cosh
  | tanh, x => x.tanh
  | abs, x => x.abs
  | ln, x => x.log
  | log, x => x.log10
  | exp, x => x.exp
  | sqrt, x => x.sqrt

end Pointwise

namespace Builtin

def pointwise (f : Pointwise) : List Value → Except CalcError Value
  | [v] => .ok (v.map f.real)
  | args => .error (.argumentCount 1 args.length)

def negate : List Value → Except CalcError Value
  | [v] => .ok (v.map fun x => -x)
  | args => .error (.argumentCount 1 args.length)

def maxFactorial : Int := 170

/-- The product of two, three, … up to `n`, rounded after every factor. -/
def factorialOf : Nat → Float
  | 0 => 1
  | 1 => 1
  | n + 2 => factorialOf (n + 1) * Float.ofNat (n + 2)

def factorial : List Value → Except CalcError Value
  | [.scalar x] =>
    match Binary64.whole? x with
    | some n =>
      if n < 0 then .error (.factorialOfNumber x)
      else if maxFactorial < n then .error .overflow
      else .ok (.scalar (factorialOf n.toNat))
    | none => .error (.factorialOfNumber x)
  | [v] => .error (.factorialOfShape v.shape)
  | args => .error (.argumentCount 1 args.length)

end Builtin
end MatrixCalc
