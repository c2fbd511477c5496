import MatrixCalc.Dim

/-!
# Shapes

The shape of a value says whether it is a number, a vector or a matrix, and of which size.
-/
namespace MatrixCalc

inductive Shape where
  | scalar
  | vec (d : Dim)
  | mat (d : Dim)
  deriving DecidableEq

namespace Shape

/-- The name in messages, such as `scalar`, `vec3` or `mat4`. -/
def name : Shape → String
  | scalar => "scalar"
  | vec d => s!"vec{d.toNat}"
  | mat d => s!"mat{d.toNat}"

/-- One for a scalar, else the number of components or rows. -/
def size : Shape → Nat
  | scalar => 1
  | vec d => d.toNat
  | mat d => d.toNat

end Shape
end MatrixCalc
