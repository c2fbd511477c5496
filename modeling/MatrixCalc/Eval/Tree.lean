import MatrixCalc.Eval.Call
import MatrixCalc.Expr.Basic

/-!
# Evaluation of expressions

Operands come before the operation, from left to right. The first error ends the evaluation.
-/
namespace MatrixCalc

variable {σ : Type} [RandomSource σ]

namespace Expr

mutual

def eval : Expr → Calc σ Value
  | literal v => return v
  | binary op l r => do
    let left ← l.eval
    let right ← r.eval
    .ofExcept (op.values left right)
  | call f args => do
    let values ← evalAll args
    f.call values

def evalAll : List Expr → Calc σ (List Value)
  | [] => return []
  | e :: es => do
    let v ← e.eval
    let vs ← evalAll es
    return v :: vs

end

end Expr
end MatrixCalc
