import Mathlib.Tactic.LinearCombination
import MatrixCalc.Eval.Spatial
import MatrixCalc.Proofs.Mat.Block

/-!
# Products as transformations

Over exact cells a product of matrices does to a vector what its factors do one after the other.
On the block this is the law of matrices over a ring; around it stands the padding of the left
operand. Moving, scaling and rotating multiply from the right, so they act on a point before the
matrix does: a translation adds, a scaling multiplies the components, and a rotation turns by
Rodrigues' formula (`Vec.turned`).
-/
namespace MatrixCalc

namespace Vec

variable {α : Type}

def block (d : Dim) (v : Vec α) : d.Place → α := fun i => v.get i

/-- The first three components of `p` with a fourth one. -/
def point (p : Vec α) (w : α) : Vec α := ⟨.four, p.get 0, p.get 1, p.get 2, w⟩

theorem get_mk (a b c d : α) :
    (mk .four ⟨a, b, c, d⟩).get 0 = a ∧ (mk .four ⟨a, b, c, d⟩).get 1 = b ∧
      (mk .four ⟨a, b, c, d⟩).get 2 = c ∧ (mk .four ⟨a, b, c, d⟩).get 3 = d :=
  ⟨rfl, rfl, rfl, rfl⟩

theorem point_zipWith (f : α → α → α) {p : Vec α} (hp : p.dim = .three) (q : Vec α) (w : α) :
    (p.zipWith f q).point w =
      ⟨.four, f (p.get 0) (q.get 0), f (p.get 1) (q.get 1), f (p.get 2) (q.get 2), w⟩ := by
  obtain ⟨d, slots⟩ := p
  cases hp
  rfl

theorem get_map_three (f : α → α) {v : Vec α} (hv : v.dim = .three) :
    (v.map f).get 0 = f (v.get 0) ∧ (v.map f).get 1 = f (v.get 1) ∧
      (v.map f).get 2 = f (v.get 2) := by
  obtain ⟨d, slots⟩ := v
  cases hv
  exact ⟨rfl, rfl, rfl⟩

/-- Rodrigues' formula: the first three components of `v` turned around the unit vector `axis` by
the angle with sine `s` and cosine `c`. The fourth component stays. -/
def turned [Zero α] [One α] [Add α] [Sub α] [Mul α] (v : Vec α) (s c : α)
    (axis : Vec α) : Vec α :=
  let space := v.truncate .three
  let across := (space.map (c * ·)).zipWith (· + ·) ((axis.cross space).map (s * ·))
  let along := axis.map ((1 - c) * axis.dot space * ·)
  (across.zipWith (· + ·) along).point (v.get 3)

theorem turned_eq [Zero α] [One α] [Add α] [Sub α] [Mul α] (v : Vec α) (s c : α) {axis : Vec α}
    (haxis : axis.dim = .three) :
    v.turned s c axis =
      let x := axis.get 0
      let y := axis.get 1
      let z := axis.get 2
      let share := (1 - c) * (x * v.get 0 + y * v.get 1 + z * v.get 2)
      ⟨.four, c * v.get 0 + s * (y * v.get 2 - z * v.get 1) + share * x,
        c * v.get 1 + s * (z * v.get 0 - x * v.get 2) + share * y,
        c * v.get 2 + s * (x * v.get 1 - y * v.get 0) + share * z, v.get 3⟩ := by
  obtain ⟨d, slots⟩ := axis
  cases haxis
  rfl

end Vec

namespace Mat

section Semiring

variable {R : Type} [Semiring R] {a b : Mat R}

theorem get_apply (m : Mat R) (v : Vec R) (i : Fin 4) :
    (m.apply v).get i =
      if m.dim.Active i then m.dim.sum fun k => m.cell i k * v.get k else 0 := by
  have hfour : Dim.four.Active i := i.isLt
  rw [apply, Vec.get_truncate]
  refine if_ctx_congr Iff.rfl (fun hi => ?_) fun _ => rfl
  rw [Vec.get_build, if_pos hfour, if_pos hi]

theorem block_apply (m : Mat R) (v : Vec R) :
    (m.apply v).block m.dim = (m.block m.dim).mulVec (v.block m.dim) := by
  ext i
  rw [Vec.block, get_apply, if_pos i.2, Dim.sum_eq]
  rfl

theorem apply_product (h : a.dim = b.dim) (v : Vec R) :
    (a.product b).apply v = a.apply (b.apply v) := by
  have hblock : ((a.product b).apply v).block a.dim = (a.apply (b.apply v)).block a.dim := by
    have hb := block_apply b v
    rw [← h] at hb
    rw [block_apply, hb, Matrix.mulVec_mulVec, ← block_product rfl]
    exact block_apply (a.product b) v
  -- The block says nothing of the slots behind the size; both sides have zeros there.
  refine Vec.ext_get rfl fun i => ?_
  by_cases hi : a.dim.Active i
  · exact congrFun hblock ⟨i, hi⟩
  · rw [get_apply, get_apply, if_neg hi, if_neg]
    exact hi

theorem dim_product (a b : Mat R) : (a.product b).dim = a.dim := rfl

theorem cell_product_of_not_inside {r c : Fin 4} (h : ¬ Inside a.dim r c) (b : Mat R) :
    (a.product b).cell r c = a.cell r c := by
  rw [product, cell_overwrite, if_neg h]

theorem product_assoc (h : a.dim = b.dim) (c : Mat R) :
    (a.product b).product c = a.product (b.product c) := by
  have hblock : ((a.product b).product c).block a.dim = (a.product (b.product c)).block a.dim :=
    calc ((a.product b).product c).block a.dim
        = (a.product b).block a.dim * c.block a.dim := block_product (dim_product a b) c
      _ = a.block a.dim * (b.block a.dim * c.block a.dim) := by
        rw [block_product rfl, Matrix.mul_assoc]
      _ = (a.product (b.product c)).block a.dim := by
        rw [block_product rfl, block_product h.symm]
  refine ext_cell rfl fun i j => ?_
  by_cases hin : Inside a.dim i j
  · exact congrFun (congrFun hblock ⟨i, hin.1⟩) ⟨j, hin.2⟩
  · have hin' : ¬ Inside (a.product b).dim i j := hin
    rw [cell_product_of_not_inside hin', cell_product_of_not_inside hin,
      cell_product_of_not_inside hin]

theorem product_identity (a : Mat R) : a.product (identity a.dim) = a := by
  have hblock : (a.product (identity a.dim)).block a.dim = a.block a.dim := by
    rw [block_product rfl, block_identity, Matrix.mul_one]
  refine ext_cell rfl fun i j => ?_
  by_cases hin : Inside a.dim i j
  · exact congrFun (congrFun hblock ⟨i, hin.1⟩) ⟨j, hin.2⟩
  · rw [cell_product_of_not_inside hin]

theorem identity_product (h : a.Padded) : (identity a.dim).product a = a := by
  refine Padded.ext_block ((padded_identity a.dim).overwrite _) h rfl ?_
  refine (block_product (dim_identity a.dim) a).trans ?_
  rw [block_identity]
  exact Matrix.one_mul _

end Semiring

section Ring

variable {R : Type} [CommRing R]

/-- The product of a matrix of size four, given by its rows, with a column. -/
theorem apply_rows (p q r s : Quad R) (v : Vec R) :
    (Mat.mk .four ⟨p, q, r, s⟩).apply v =
      let row (u : Quad R) := u.x * v.get 0 + u.y * v.get 1 + u.z * v.get 2 + u.w * v.get 3
      ⟨.four, row p, row q, row r, row s⟩ := rfl

theorem apply_translation (t : Vec R) {p : Vec R} (hp : p.dim = .three) :
    (translation (t.get 0) (t.get 1) (t.get 2)).apply (p.point 1) =
      (p.zipWith (· + ·) t).point 1 := by
  rw [translation, apply_rows, Vec.point_zipWith _ hp]
  simp only [Vec.point, Vec.get_mk, Vec.mk.injEq, Quad.mk.injEq, true_and]
  refine ⟨?_, ?_, ?_, ?_⟩ <;> ring

theorem apply_scaling (f : Vec R) {p : Vec R} (hp : p.dim = .three) (w : R) :
    (scaling (f.get 0) (f.get 1) (f.get 2)).apply (p.point w) =
      (p.zipWith (· * ·) f).point w := by
  rw [scaling, apply_rows, Vec.point_zipWith _ hp]
  simp only [Vec.point, Vec.get_mk, Vec.mk.injEq, Quad.mk.injEq, true_and]
  refine ⟨?_, ?_, ?_, ?_⟩ <;> ring

theorem apply_turn (s c : R) {axis : Vec R} (haxis : axis.dim = .three) (v : Vec R) :
    (turn s c (axis.get 0) (axis.get 1) (axis.get 2)).apply v = v.turned s c axis := by
  rw [turn, apply_rows, v.turned_eq s c haxis]
  simp only [Vec.mk.injEq, Quad.mk.injEq, true_and]
  refine ⟨?_, ?_, ?_, ?_⟩ <;> ring

end Ring

end Mat

namespace Vec

variable {R : Type} [CommRing R] {s c : R} {axis : Vec R}

theorem dot_three {v : Vec R} (hv : v.dim = .three) (w : Vec R) :
    v.dot w = v.get 0 * w.get 0 + v.get 1 * w.get 1 + v.get 2 * w.get 2 := by
  rw [dot, hv]
  rfl

theorem dot_four {v : Vec R} (hv : v.dim = .four) (w : Vec R) :
    v.dot w = v.get 0 * w.get 0 + v.get 1 * w.get 1 + v.get 2 * w.get 2 + v.get 3 * w.get 3 := by
  rw [dot, hv]
  rfl

/-- Turning keeps the product of any two vectors, and so lengths and angles. -/
theorem dot_turned (haxis : axis.dim = .three) (hunit : axis.dot axis = 1)
    (hcircle : s * s + c * c = 1) {v : Vec R} (hv : v.dim = .four) (w : Vec R) :
    (v.turned s c axis).dot (w.turned s c axis) = v.dot w := by
  rw [dot_three haxis] at hunit
  rw [dot_four hv, dot_four (by rw [turned_eq v s c haxis]), turned_eq v s c haxis,
    turned_eq w s c haxis]
  simp only [get_mk]
  -- With `u` for the axis: the sine and cosine count for the part across it, `v·w - (u·v)(u·w)`,
  -- and the length of the axis for what it scales.
  linear_combination (v.get 0 * w.get 0 + v.get 1 * w.get 1 + v.get 2 * w.get 2 -
      (axis.get 0 * v.get 0 + axis.get 1 * v.get 1 + axis.get 2 * v.get 2) *
        (axis.get 0 * w.get 0 + axis.get 1 * w.get 1 + axis.get 2 * w.get 2)) * hcircle +
    (s ^ 2 * (v.get 0 * w.get 0 + v.get 1 * w.get 1 + v.get 2 * w.get 2) + (1 - c) ^ 2 *
      (axis.get 0 * v.get 0 + axis.get 1 * v.get 1 + axis.get 2 * v.get 2) *
        (axis.get 0 * w.get 0 + axis.get 1 * w.get 1 + axis.get 2 * w.get 2)) * hunit

theorem turned_axis (haxis : axis.dim = .three) (hunit : axis.dot axis = 1) (w : R) :
    (axis.point w).turned s c axis = axis.point w := by
  rw [dot_three haxis] at hunit
  rw [turned_eq _ s c haxis]
  simp only [point, get_mk, hunit, mk.injEq, Quad.mk.injEq, and_true, true_and]
  refine ⟨?_, ?_, ?_⟩ <;> ring

end Vec

/-- The functions that a rotation takes from analysis. -/
structure Trigonometry (α : Type) where
  sine : α → α
  cosine : α → α
  root : α → α

namespace Trigonometry

def float : Trigonometry Float := ⟨Float.sin, Float.cos, Float.sqrt⟩

variable {α : Type} [Add α] [Mul α] (t : Trigonometry α)

def length (v : Vec α) : α :=
  t.root (v.get 0 * v.get 0 + v.get 1 * v.get 1 + v.get 2 * v.get 2)

end Trigonometry

namespace Mat

variable {α : Type} [Zero α] [One α] [Add α] [Sub α] [Mul α] [Div α] [BEq α] (t : Trigonometry α)

/-- The rotation around an axis for cells of any type. -/
def rotationBy (angle : α) (axis : Vec α) : Except TransformFault (Mat α) :=
  let length := t.length axis
  if length == 0 then .error .zeroAxis
  else .ok (turn (t.sine angle) (t.cosine angle) (axis.get 0 / length) (axis.get 1 / length)
    (axis.get 2 / length))

def rotateBy (m : Mat α) (angle : α) (axis : Vec α) : Except TransformFault (Mat α) :=
  (rotationBy t angle axis).map m.product

theorem rotate_eq : rotate = rotateBy .float := rfl

end Mat

section Transformations

variable {R : Type} [CommRing R] [Div R] [BEq R]

theorem Mat.exists_rotateBy (t : Trigonometry R) {m : Mat R} (hm : m.dim = .four) (angle : R)
    {axis : Vec R} (haxis : axis.dim = .three) (h : (t.length axis == 0) = false) (v : Vec R) :
    ∃ r n, Mat.rotationBy t angle axis = .ok r ∧ m.rotateBy t angle axis = .ok n ∧
      n.apply v = m.apply (r.apply v) ∧
      r.apply v =
        v.turned (t.sine angle) (t.cosine angle) (axis.map (· / t.length axis)) := by
  have hrotation : Mat.rotationBy t angle axis = .ok (turn (t.sine angle) (t.cosine angle)
      (axis.get 0 / t.length axis) (axis.get 1 / t.length axis) (axis.get 2 / t.length axis)) := by
    rw [rotationBy, h]
    rfl
  refine ⟨_, _, hrotation, ?_, Mat.apply_product hm v, ?_⟩
  · rw [rotateBy, hrotation]
    rfl
  · obtain ⟨hx, hy, hz⟩ := Vec.get_map_three (· / t.length axis) haxis
    have hunit : (axis.map (· / t.length axis)).dim = .three := haxis
    rw [← apply_turn _ _ hunit v, hx, hy, hz]

/-- Products of matrices of one size are transformations one after the other, and the identity does
nothing. Moving and scaling act on the point first, and so does a rotation, which there is around
every axis that has a length. A rotation around a unit vector keeps products of vectors, and the
axis stays where it is. The functions of the calculator do this with numbers. -/
theorem transformations_compose (t : Trigonometry R) :
    (∀ (a b c : Mat R) (v : Vec R), a.dim = b.dim → b.dim = c.dim → c.dim = v.dim →
      (a.product b).apply v = a.apply (b.apply v) ∧
      (a.product b).product c = a.product (b.product c)) ∧
    (∀ a : Mat R, a.Padded →
      (Mat.identity a.dim).product a = a ∧ a.product (.identity a.dim) = a) ∧
    (∀ (m : Mat R) (p v : Vec R) (w : R), m.dim = .four → p.dim = .three → v.dim = .three →
      (m.translate v).apply (p.point 1) = m.apply ((p.zipWith (· + ·) v).point 1) ∧
      (m.scale v).apply (p.point w) = m.apply ((p.zipWith (· * ·) v).point w)) ∧
    (∀ (m : Mat R) (angle : R) (axis v : Vec R), m.dim = .four → axis.dim = .three →
      v.dim = .four →
      if t.length axis == 0 then m.rotateBy t angle axis = .error .zeroAxis
      else ∃ r n, Mat.rotationBy t angle axis = .ok r ∧ m.rotateBy t angle axis = .ok n ∧
        n.apply v = m.apply (r.apply v) ∧
        r.apply v =
          v.turned (t.sine angle) (t.cosine angle) (axis.map (· / t.length axis))) ∧
    (∀ (s c : R) (axis v w : Vec R) (h : R), axis.dim = .three → axis.dot axis = 1 →
      s * s + c * c = 1 → v.dim = .four →
      (v.turned s c axis).dot (w.turned s c axis) = v.dot w ∧
      (axis.point h).turned s c axis = axis.point h) ∧
    ∀ (m : Mat Float) (angle : Float) (v : Vec Float), m.dim = .four → v.dim = .three →
      Builtin.translate [.matrix m, .vector v] = .ok (.matrix (m.translate v)) ∧
      Builtin.scale [.matrix m, .vector v] = .ok (.matrix (m.scale v)) ∧
      Builtin.rotate [.matrix m, .scalar angle, .vector v] =
        match m.rotateBy .float angle v with
        | .ok n => .ok (.matrix n)
        | .error fault => .error fault.calcError := by
  refine ⟨?_, fun a ha => ⟨Mat.identity_product ha, a.product_identity⟩, ?_, ?_, ?_, ?_⟩
  · intro a b c v hab _ _
    exact ⟨Mat.apply_product hab v, Mat.product_assoc hab c⟩
  · intro m p v w hm hp _
    refine ⟨?_, ?_⟩
    · rw [Mat.translate, Mat.apply_product hm, Mat.apply_translation v hp]
    · rw [Mat.scale, Mat.apply_product hm, Mat.apply_scaling v hp]
  · intro m angle axis v hm haxis _
    split
    · next hzero =>
      rw [Mat.rotateBy, Mat.rotationBy, hzero]
      rfl
    · next hlength => exact Mat.exists_rotateBy t hm angle haxis (Bool.eq_false_iff.2 hlength) v
  · intro s c axis v w h haxis hunit hcircle hv
    exact ⟨Vec.dot_turned haxis hunit hcircle hv w, Vec.turned_axis haxis hunit h⟩
  · intro m angle v hm hv
    rw [← Mat.rotate_eq]
    obtain ⟨d, grid⟩ := m
    obtain ⟨e, slots⟩ := v
    cases hm
    cases hv
    exact ⟨rfl, rfl, rfl⟩

end Transformations

/-- Every angle is a right one, and every axis is taken for one of length one. -/
def Trigonometry.rightAngle : Trigonometry ℤ := ⟨fun _ => 1, fun _ => 0, fun x => x⟩

/-- A shear with a translation. -/
def Mat.sheared : Mat ℤ := ⟨.four, ⟨1, 2, 0, 5⟩, ⟨0, 1, 3, -4⟩, ⟨0, 0, 1, 6⟩, ⟨0, 0, 0, 1⟩⟩

def Vec.oneTwoThree : Vec ℤ := ⟨.three, 1, 2, 3, 0⟩

def Vec.vertical : Vec ℤ := ⟨.three, 0, 0, 1, 0⟩

def Vec.ahead : Vec ℤ := ⟨.four, 1, 0, 0, 1⟩

theorem transformations_compose_of_sheared :
    (Mat.sheared.product .sheared).apply .ahead = Mat.sheared.apply (Mat.sheared.apply .ahead) ∧
      (Mat.sheared.product .sheared).product .sheared =
        Mat.sheared.product (Mat.sheared.product .sheared) ∧
      Mat.sheared.Padded ∧ (Mat.identity .four).product .sheared = .sheared ∧
      (Mat.sheared.translate .oneTwoThree).apply (Vec.vertical.point 1) =
        Mat.sheared.apply ⟨.four, 1, 2, 4, 1⟩ ∧
      (Mat.sheared.scale .oneTwoThree).apply (Vec.vertical.point 1) =
        Mat.sheared.apply ⟨.four, 0, 0, 3, 1⟩ ∧
      (∃ n, Mat.sheared.rotateBy .rightAngle 0 .vertical = .ok n ∧
        n.apply .ahead = Mat.sheared.apply ⟨.four, 0, 1, 0, 1⟩) ∧
      Vec.vertical.dot .vertical = 1 ∧
      (Vec.ahead.turned 1 0 .vertical).dot (Vec.ahead.turned 1 0 .vertical) =
        Vec.ahead.dot .ahead ∧
      (Vec.vertical.point 1).turned 1 0 .vertical = Vec.vertical.point 1 ∧
      Builtin.translate [.matrix (.identity .four), .vector (.zero .three)] =
        .ok (.matrix (Mat.translate (.identity .four) (.zero .three))) := by
  have hpadded : Mat.sheared.Padded := Mat.padded_of_four rfl
  have hunit : Vec.vertical.dot .vertical = 1 := rfl
  obtain ⟨hproduct, hidentity, hpoint, hrotate, hturn, hbuiltin⟩ :=
    transformations_compose Trigonometry.rightAngle
  obtain ⟨happly, hassoc⟩ := hproduct .sheared .sheared .sheared .ahead rfl rfl rfl
  obtain ⟨htranslate, hscale⟩ := hpoint .sheared .vertical .oneTwoThree 1 rfl rfl rfl
  obtain ⟨r, n, -, hn, hafter, hturned⟩ := hrotate .sheared 0 .vertical .ahead rfl rfl rfl
  obtain ⟨hdot, haxis⟩ := hturn 1 0 .vertical .ahead .ahead 1 rfl hunit rfl rfl
  refine ⟨happly, hassoc, hpadded, (hidentity .sheared hpadded).1, htranslate, hscale,
    ⟨n, hn, ?_⟩, hunit, hdot, haxis, (hbuiltin (.identity .four) 0 (.zero .three) rfl rfl).1⟩
  rw [hafter, hturned]
  rfl

end MatrixCalc
