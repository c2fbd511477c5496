import MatrixCalc.CalcError
import MatrixCalc.Mat.Basic

/-!
# Values

A value is a number, a vector or a square matrix of numbers.
-/
namespace MatrixCalc

inductive Value where
  | scalar (x : Float)
  | vector (v : Vec Float)
  | matrix (m : Mat Float)
  deriving DecidableEq

namespace Value

def shape : Value → Shape
  | scalar _ => .scalar
  | vector v => .vec v.dim
  | matrix m => .mat m.dim

/-- The padding behind the components of a vector and around the cells of a matrix is in place. -/
def Padded : Value → Prop
  | scalar _ => True
  | vector v => v.Padded
  | matrix m => m.Padded

def cells : Value → List Float
  | scalar x => [x]
  | vector v => v.toList
  | matrix m => m.rows.flatten

/-- The number itself, the first component or the upper left cell. -/
def first : Value → Float
  | scalar x => x
  | vector v => v.get 0
  | matrix m => m.cell 0 0

def map (f : Float → Float) : Value → Value
  | scalar x => scalar (f x)
  | vector v => vector (v.map f)
  | matrix m => matrix (m.map f)

/-- Equality of numbers: a NaN differs from itself and the two zeros are equal. -/
def equals : Value → Value → Bool
  | scalar x, scalar y => x == y
  | vector v, vector w => v.equals w
  | matrix a, matrix b => a.equals b
  | _, _ => false

def asScalar (operand : String) : Value → Except CalcError Float
  | scalar x => .ok x
  | v => .error (.wrongKind operand .scalar v.shape)

def asVector (operand : String) : Value → Except CalcError (Vec Float)
  | vector v => .ok v
  | v => .error (.wrongKind operand .vector v.shape)

def asMatrix (operand : String) : Value → Except CalcError (Mat Float)
  | matrix m => .ok m
  | v => .error (.wrongKind operand .matrix v.shape)

@[simp] theorem shape_map (f : Float → Float) (v : Value) : (v.map f).shape = v.shape := by
  cases v <;> rfl

end Value

/-- The size that a number stands for, of which there are three. -/
def Dim.supported (n : Nat) : Except CalcError Dim :=
  match Dim.ofNat? n with
  | some d => .ok d
  | none => .error (.unsupportedSize n)

def Vec.ofComponents (xs : List Float) : Except CalcError (Vec Float) := do
  let d ← Dim.supported xs.length
  return Vec.build d fun i => xs.getD i 0

/-- The first row whose length is not the size, with its index. -/
def Mat.raggedRow? (d : Dim) (rows : List (List Float)) : Option (List Float × Nat) :=
  rows.zipIdx.find? fun row => row.1.length != d.toNat

/-- The matrix of the given rows, which must form a square. -/
def Mat.ofRows (rows : List (List Float)) : Except CalcError (Mat Float) := do
  let d ← Dim.supported rows.length
  match Mat.raggedRow? d rows with
  | some (row, i) => .error (.raggedRow i row.length d)
  | none => .ok (Mat.build d fun r c => (rows.getD r []).getD c 0)

end MatrixCalc
