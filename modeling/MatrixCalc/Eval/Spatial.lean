import MatrixCalc.Eval.Arguments
import MatrixCalc.Mat.Inverse
import MatrixCalc.Mat.Transform

/-!
# Transformations and projections

The functions that work on four by four matrices of space, and the inverse transpose that
carries normal vectors along.
-/
namespace MatrixCalc

def TransformFault.calcError : TransformFault → CalcError
  | zeroAxis => .zeroAxis
  | flat => .divisionByZero

namespace Builtin

private def matrixOf (result : Except TransformFault (Mat Float)) : Except CalcError Value :=
  match result with
  | .ok m => .ok (.matrix m)
  | .error fault => .error fault.calcError

def scale : List Value → Except CalcError Value
  | [arg₁, arg₂] => do
    let m ← Function.scale.matrixArg 1 .four arg₁
    let v ← Function.scale.vectorArg 2 .three arg₂
    return .matrix (m.scale v)
  | args => .error (.argumentCount 2 args.length)

def translate : List Value → Except CalcError Value
  | [arg₁, arg₂] => do
    let m ← Function.translate.matrixArg 1 .four arg₁
    let v ← Function.translate.vectorArg 2 .three arg₂
    return .matrix (m.translate v)
  | args => .error (.argumentCount 2 args.length)

def rotate : List Value → Except CalcError Value
  | [arg₁, arg₂, arg₃] => do
    let m ← Function.rotate.matrixArg 1 .four arg₁
    let angle ← Function.rotate.scalarArg 2 arg₂
    let axis ← Function.rotate.vectorArg 3 .three arg₃
    matrixOf (m.rotate angle axis)
  | args => .error (.argumentCount 3 args.length)

def invTranspose : List Value → Except CalcError Value
  | [arg] => do
    let m ← Function.invTranspose.anyMatrixArg 1 arg
    match m.inverse? Mat.floatPivots with
    | some inverse => return .matrix inverse.transpose
    | none => throw .singularMatrix
  | args => .error (.argumentCount 1 args.length)

def perspective : List Value → Except CalcError Value
  | [arg₁, arg₂, arg₃, arg₄] => do
    let fovy ← Function.perspective.scalarArg 1 arg₁
    let aspect ← Function.perspective.scalarArg 2 arg₂
    let near ← Function.perspective.scalarArg 3 arg₃
    let far ← Function.perspective.scalarArg 4 arg₄
    matrixOf (Mat.perspective fovy aspect near far)
  | args => .error (.argumentCount 4 args.length)

def ortho : List Value → Except CalcError Value
  | [arg₁, arg₂, arg₃, arg₄] => do
    let left ← Function.ortho.scalarArg 1 arg₁
    let right ← Function.ortho.scalarArg 2 arg₂
    let bottom ← Function.ortho.scalarArg 3 arg₃
    let top ← Function.ortho.scalarArg 4 arg₄
    matrixOf (Mat.ortho left right bottom top)
  | args => .error (.argumentCount 4 args.length)

end Builtin
end MatrixCalc
