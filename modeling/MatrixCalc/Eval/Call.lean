import MatrixCalc.Eval.Arithmetic
import MatrixCalc.Eval.Construction
import MatrixCalc.Eval.Geometry
import MatrixCalc.Eval.Pointwise
import MatrixCalc.Eval.Random
import MatrixCalc.Eval.Spatial

/-!
# Calling a function

What computes a function is looked up in a table. The table has a row for every function
(`Function.exists_implementation`), so a call is never one of an unknown function, and it only
depends on the number of arguments whether the function gets to them (`Function.call_eq`).
-/
namespace MatrixCalc

/-- A function and what computes it, which looks at the number of arguments itself. -/
structure Implementation (σ : Type) where
  function : Function
  compute : List Value → Calc σ Value

/-- No random numbers are needed. -/
def Implementation.plain {σ : Type} (f : Function)
    (compute : List Value → Except CalcError Value) : Implementation σ :=
  ⟨f, fun args => .ofExcept (compute args)⟩

variable {σ : Type} [RandomSource σ]

open Implementation (plain) in
def implementations : List (Implementation σ) :=
  [plain (.pointwise .rad) (Builtin.pointwise .rad),
    plain (.pointwise .deg) (Builtin.pointwise .deg),
    plain (.pointwise .sin) (Builtin.pointwise .sin),
    plain (.pointwise .cos) (Builtin.pointwise .cos),
    plain (.pointwise .tan) (Builtin.pointwise .tan),
    plain (.pointwise .asin) (Builtin.pointwise .asin),
    plain (.pointwise .acos) (Builtin.pointwise .acos),
    plain (.pointwise .atan) (Builtin.pointwise .atan),
    plain (.pointwise .sinh) (Builtin.pointwise .sinh),
    plain (.pointwise .cosh) (Builtin.pointwise .cosh),
    plain (.pointwise .tanh) (Builtin.pointwise .tanh),
    plain (.pointwise .abs) (Builtin.pointwise .abs),
    plain (.pointwise .ln) (Builtin.pointwise .ln),
    plain (.pointwise .log) (Builtin.pointwise .log),
    plain (.pointwise .exp) (Builtin.pointwise .exp),
    plain (.pointwise .sqrt) (Builtin.pointwise .sqrt),
    plain (.vec .two) (Builtin.vector (.vec .two)),
    plain (.vec .three) (Builtin.vector (.vec .three)),
    plain (.vec .four) (Builtin.vector (.vec .four)),
    plain .length Builtin.length,
    plain .normalize Builtin.normalize,
    plain .dot Builtin.dot,
    plain .cross Builtin.cross,
    plain .mix Builtin.mix,
    plain (.mat .two) (Builtin.matrix (.mat .two)),
    plain (.mat .three) (Builtin.matrix (.mat .three)),
    plain (.mat .four) (Builtin.matrix (.mat .four)),
    plain .scale Builtin.scale,
    plain .rotate Builtin.rotate,
    plain .translate Builtin.translate,
    plain .invTranspose Builtin.invTranspose,
    plain .perspective Builtin.perspective,
    plain .ortho Builtin.ortho,
    ⟨.rand, Builtin.rand⟩,
    plain .negate Builtin.negate,
    plain .factorial Builtin.factorial]

namespace Function

def implementation? (f : Function) : Option (Implementation σ) :=
  implementations.find? fun i => i.function = f

/-- What the table computes for the function, whatever the number of arguments. -/
def run (f : Function) (args : List Value) : Calc σ Value :=
  match f.implementation? (σ := σ) with
  | none => throw (.unknownFunction f)
  | some i => i.compute args

/-- A function is called with a number of arguments that its arity accepts. -/
def call (f : Function) (args : List Value) : Calc σ Value :=
  match f.implementation? (σ := σ) with
  | none => throw (.unknownFunction f)
  | some i =>
    if f.arity.accepts args.length then i.compute args
    else throw (.argumentCount f.arity.most args.length)

theorem exists_implementation (f : Function) :
    ∃ i : Implementation σ, f.implementation? = some i := by
  cases f with
  | pointwise g => cases g <;> exact ⟨_, rfl⟩
  | vec d | mat d => cases d <;> exact ⟨_, rfl⟩
  | _ => exact ⟨_, rfl⟩

theorem function_of_implementation? {f : Function} {i : Implementation σ}
    (h : f.implementation? = some i) : i.function = f := by
  have hfound := List.find?_some h
  exact of_decide_eq_true hfound

theorem run_of_implementation? {f : Function} {i : Implementation σ}
    (h : f.implementation? = some i) (args : List Value) : f.run args = i.compute args := by
  rw [run, h]

/-- Every function has a row, and the row is the one for it. -/
theorem run_eq (f : Function) (args : List Value) : (f.run args : Calc σ Value) =
    match f with
    | .pointwise g => .ofExcept (Builtin.pointwise g args)
    | .vec d => .ofExcept (Builtin.vector (.vec d) args)
    | .length => .ofExcept (Builtin.length args)
    | .normalize => .ofExcept (Builtin.normalize args)
    | .dot => .ofExcept (Builtin.dot args)
    | .cross => .ofExcept (Builtin.cross args)
    | .mix => .ofExcept (Builtin.mix args)
    | .mat d => .ofExcept (Builtin.matrix (.mat d) args)
    | .scale => .ofExcept (Builtin.scale args)
    | .rotate => .ofExcept (Builtin.rotate args)
    | .translate => .ofExcept (Builtin.translate args)
    | .invTranspose => .ofExcept (Builtin.invTranspose args)
    | .perspective => .ofExcept (Builtin.perspective args)
    | .ortho => .ofExcept (Builtin.ortho args)
    | .rand => Builtin.rand args
    | .negate => .ofExcept (Builtin.negate args)
    | .factorial => .ofExcept (Builtin.factorial args) := by
  cases f with
  | pointwise g => cases g <;> rfl
  | vec d | mat d => cases d <;> rfl
  | _ => rfl

theorem call_eq (f : Function) (args : List Value) : (f.call args : Calc σ Value) =
    if f.arity.accepts args.length then f.run args
    else throw (.argumentCount f.arity.most args.length) := by
  obtain ⟨i, hi⟩ := f.exists_implementation (σ := σ)
  rw [call, hi, run_of_implementation? hi]

end Function
end MatrixCalc
