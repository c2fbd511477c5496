import MatrixCalc.Mat.Basic

/-!
# Transformations of space

The four by four matrices that move, scale and rotate points `(x, y, z, 1)`, and the two
projections. A transformation is added to a matrix by a product on its right.
-/
namespace MatrixCalc

inductive TransformFault where
  | zeroAxis
  | flat
  deriving DecidableEq

namespace Mat

section Generic

variable {α : Type} [Zero α] [One α]

def translation (x y z : α) : Mat α :=
  ⟨.four, ⟨1, 0, 0, x⟩, ⟨0, 1, 0, y⟩, ⟨0, 0, 1, z⟩, ⟨0, 0, 0, 1⟩⟩

def scaling (x y z : α) : Mat α :=
  ⟨.four, ⟨x, 0, 0, 0⟩, ⟨0, y, 0, 0⟩, ⟨0, 0, z, 0⟩, ⟨0, 0, 0, 1⟩⟩

/-- The rotation with sine `s` and cosine `c` around the unit axis `(x, y, z)`. -/
def turn [Add α] [Sub α] [Mul α] (s c x y z : α) : Mat α :=
  let t := 1 - c
  ⟨.four,
    ⟨t * x * x + c, t * x * y - s * z, t * x * z + s * y, 0⟩,
    ⟨t * x * y + s * z, t * y * y + c, t * y * z - s * x, 0⟩,
    ⟨t * x * z - s * y, t * y * z + s * x, t * z * z + c, 0⟩,
    ⟨0, 0, 0, 1⟩⟩

variable [Add α] [Mul α]

/-- Moves by the first three components of `v` before applying `m`. -/
def translate (m : Mat α) (v : Vec α) : Mat α :=
  m.product (translation (v.get 0) (v.get 1) (v.get 2))

/-- Scales by the first three components of `v` before applying `m`. -/
def scale (m : Mat α) (v : Vec α) : Mat α :=
  m.product (scaling (v.get 0) (v.get 1) (v.get 2))

end Generic

/-- The rotation by `angle` radians around an axis, counter-clockwise when looking down the axis. -/
def rotation (angle : Float) (axis : Vec Float) : Except TransformFault (Mat Float) :=
  let x := axis.get 0
  let y := axis.get 1
  let z := axis.get 2
  let length := (x * x + y * y + z * z).sqrt
  if length == 0 then .error .zeroAxis
  else .ok (turn angle.sin angle.cos (x / length) (y / length) (z / length))

def rotate (m : Mat Float) (angle : Float) (axis : Vec Float) :
    Except TransformFault (Mat Float) :=
  (rotation angle axis).map m.product

/-- The right-handed perspective projection with clip depth from minus one to one. It needs an
aspect ratio, a field of view and a distance between the clip planes other than zero. -/
def perspective (fovy aspect near far : Float) : Except TransformFault (Mat Float) :=
  let tanHalf := (fovy / 2).tan
  if aspect == 0 || tanHalf == 0 || far == near then .error .flat
  else
    let f := 1 / tanHalf
    .ok ⟨.four,
      ⟨f / aspect, 0, 0, 0⟩,
      ⟨0, f, 0, 0⟩,
      ⟨0, 0, -(far + near) / (far - near), -(2 * far * near) / (far - near)⟩,
      ⟨0, 0, -1, 0⟩⟩

/-- The orthographic projection of a box, which must have a width and a height. -/
def ortho (left right bottom top : Float) : Except TransformFault (Mat Float) :=
  if right == left || top == bottom then .error .flat
  else .ok ⟨.four,
    ⟨2 / (right - left), 0, 0, -(right + left) / (right - left)⟩,
    ⟨0, 2 / (top - bottom), 0, -(top + bottom) / (top - bottom)⟩,
    ⟨0, 0, -1, 0⟩,
    ⟨0, 0, 0, 1⟩⟩

end Mat
end MatrixCalc
