import MatrixCalc.Value.Basic

/-!
# Arguments of functions

Reading an argument as a number, a vector or a matrix. An error names the argument by its
place, counted from one, and by the function.
-/
namespace MatrixCalc

namespace Function

private def operand (f : Function) (place : Nat) : String := s!"argument {place} of {f.name}"

def scalarArg (f : Function) (place : Nat) (v : Value) : Except CalcError Float :=
  v.asScalar (f.operand place)

def vectorArg (f : Function) (place : Nat) (d : Dim) (v : Value) :
    Except CalcError (Vec Float) := do
  let w ← v.asVector (f.operand place)
  if w.dim = d then return w
  else throw (.argumentSize place f (.vec d) (.vec w.dim))

def anyMatrixArg (f : Function) (place : Nat) (v : Value) : Except CalcError (Mat Float) :=
  v.asMatrix (f.operand place)

def matrixArg (f : Function) (place : Nat) (d : Dim) (v : Value) :
    Except CalcError (Mat Float) := do
  let m ← f.anyMatrixArg place v
  if m.dim = d then return m
  else throw (.argumentSize place f (.mat d) (.mat m.dim))

def anyVectorArg (f : Function) (place : Nat) (v : Value) : Except CalcError (Vec Float) :=
  v.asVector (f.operand place)

/-- All arguments as numbers; the first that is none is the one reported. -/
def scalarArgs (f : Function) (args : List Value) : Except CalcError (List Float) :=
  args.zipIdx.mapM fun arg => f.scalarArg (arg.2 + 1) arg.1

end Function

def checkCount (expected found : Nat) : Except CalcError Unit :=
  if found = expected then .ok () else .error (.argumentCount expected found)

end MatrixCalc
