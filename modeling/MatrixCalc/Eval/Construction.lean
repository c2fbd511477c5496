import MatrixCalc.Eval.Arguments

/-!
# Building vectors and matrices

A vector is built from one number per component. A matrix is built from nothing (the identity),
from a number (on the diagonal) or from a matrix of any size.
-/
namespace MatrixCalc.Builtin

def vector (f : Function) (args : List Value) : Except CalcError Value :=
  match f.vectorDim? with
  | none => .error (.unknownFunction f)
  | some d => do
    checkCount d.toNat args.length
    let xs ← f.scalarArgs args
    return .vector (.build d fun i => xs.getD i 0)

def matrix (f : Function) (args : List Value) : Except CalcError Value :=
  match f.matrixDim? with
  | none => .error (.unknownFunction f)
  | some d =>
    match args with
    | [] => .ok (.matrix (.identity d))
    | [.scalar x] => .ok (.matrix (.diagonal d x))
    | [.matrix m] => .ok (.matrix (m.resize d))
    | [.vector v] =>
      .error (.wrongKind s!"argument 1 of {f.name}" .scalarOrMatrix (.vec v.dim))
    | _ => .error (.argumentCount 1 args.length)

end MatrixCalc.Builtin
