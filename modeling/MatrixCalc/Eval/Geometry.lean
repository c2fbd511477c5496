import MatrixCalc.Binary64.FusedMultiplyAdd
import MatrixCalc.Eval.Arguments

/-!
# Geometry of vectors

Length, direction, the two products of vectors, and mixing two values of one shape.
-/
namespace MatrixCalc.Builtin

/-- The length of a vector; a number is returned as it is. -/
def length : List Value → Except CalcError Value
  | [.scalar x] => .ok (.scalar x)
  | [.vector v] => .ok (.scalar v.length)
  | [.matrix _] => .error .lengthOfMatrix
  | args => .error (.argumentCount 1 args.length)

def normalize : List Value → Except CalcError Value
  | [arg] => do
    let v ← arg.asVector "argument of normalize"
    if v.length == 0 then throw .divisionByZero
    else return .vector (v.map fun x => x / v.length)
  | args => .error (.argumentCount 1 args.length)

def dot : List Value → Except CalcError Value
  | [left, right] => do
    let v ← Function.dot.anyVectorArg 1 left
    let w ← Function.dot.vectorArg 2 v.dim right
    return .scalar (v.dot w)
  | args => .error (.argumentCount 2 args.length)

def cross : List Value → Except CalcError Value
  | [left, right] => do
    let v ← Function.cross.vectorArg 1 .three left
    let w ← Function.cross.vectorArg 2 .three right
    return .vector (v.cross w)
  | args => .error (.argumentCount 2 args.length)

/-- The point between `x` and `y` that the weight `a` asks for: `x * (1 - a) + y * a`. -/
def between (a x y : Float) : Float := Binary64.fusedMulAdd x (1 - a) (y * a)

def mix : List Value → Except CalcError Value
  | [left, right, weight] => do
    let a ← Function.mix.scalarArg 3 weight
    match left, right with
    | .scalar x, .scalar y => return .scalar (between a x y)
    | .vector v, .vector w =>
      if v.dim = w.dim then return .vector (v.zipWith (between a) w)
      else throw (.unlikeShapes left.shape right.shape)
    | .matrix m, .matrix n =>
      if m.dim = n.dim then return .matrix (m.zipWith (between a) n)
      else throw (.unlikeShapes left.shape right.shape)
    | _, _ => throw (.unlikeShapes left.shape right.shape)
  | args => .error (.argumentCount 3 args.length)

end MatrixCalc.Builtin
