import MatrixCalc.Eval.Construction
import MatrixCalc.Proofs.Mat.Block

/-!
# Projections between sizes

Reading a vector or a matrix at another size keeps the places that both sizes have and pads the
others. All laws follow from what one place of the result holds (`Vec.get_resize`,
`Mat.cell_resize`). Cells are moved and never computed with, so the laws hold for cells of any type
that has a zero and a one.
-/
namespace MatrixCalc

namespace Vec

variable {α : Type} [Zero α] {v : Vec α} {a b d : Dim}

@[simp] theorem dim_resize (v : Vec α) (d : Dim) : (v.resize d).dim = d := rfl

theorem get_resize (v : Vec α) (d : Dim) (i : Fin 4) :
    (v.resize d).get i = if d.Active i ∧ v.dim.Active i then v.get i else 0 := by
  rw [resize, get_build, ite_and]

theorem Padded.get_resize (h : v.Padded) (d : Dim) (i : Fin 4) :
    (v.resize d).get i = if d.Active i then v.get i else 0 := by
  rw [Vec.get_resize, ite_and]
  by_cases hi : v.dim.Active i
  · rw [if_pos hi]
  · rw [if_neg hi, h i hi]

theorem get_resize_resize (v : Vec α) (a b : Dim) (i : Fin 4) :
    ((v.resize a).resize b).get i =
      if i.val < min v.dim.toNat (min a.toNat b.toNat) then v.get i else 0 := by
  rw [get_resize, get_resize, ← ite_and, dim_resize]
  exact if_congr (by simp only [Dim.Active]; omega) rfl rfl

/-- A size in between that keeps everything the last one shows does not matter. -/
theorem resize_resize (h : min v.dim.toNat b.toNat ≤ a.toNat) :
    (v.resize a).resize b = v.resize b := by
  refine ext_get rfl fun i => ?_
  rw [get_resize_resize, get_resize]
  exact if_congr (by simp only [Dim.Active]; omega) rfl rfl

theorem Padded.resize_self (h : v.Padded) : v.resize v.dim = v := by
  refine ext_get rfl fun i => ?_
  rw [h.get_resize]
  by_cases hi : v.dim.Active i
  · rw [if_pos hi]
  · rw [if_neg hi, h i hi]

theorem Padded.project_eq (h : v.Padded) (d : Dim) : v.project d = (v.resize d).toList := by
  refine List.map_congr_left fun i hi => ?_
  rw [h.get_resize, if_pos ((d.mem_indices i).1 hi)]

end Vec

namespace Mat

variable {α : Type} [Zero α] [One α] {m : Mat α} {a b d : Dim}

theorem inside_swap {r c : Fin 4} : Inside d r c ↔ Inside d c r := And.comm

theorem unit_swap (r c : Fin 4) : (unit r c : α) = unit c r := if_congr eq_comm rfl rfl

@[simp] theorem dim_resize (m : Mat α) (d : Dim) : (m.resize d).dim = d := rfl

theorem cell_resize (m : Mat α) (d : Dim) (r c : Fin 4) :
    (m.resize d).cell r c = if Inside d r c ∧ Inside m.dim r c then m.cell r c else unit r c := by
  rw [resize, cell_build, ite_and]

theorem Padded.cell_resize (h : m.Padded) (d : Dim) (r c : Fin 4) :
    (m.resize d).cell r c = if Inside d r c then m.cell r c else unit r c := by
  rw [Mat.cell_resize, ite_and]
  by_cases hin : Inside m.dim r c
  · rw [if_pos hin]
  · rw [if_neg hin, h r c hin]

theorem cell_resize_resize (m : Mat α) (a b : Dim) (r c : Fin 4) :
    ((m.resize a).resize b).cell r c =
      if max r.val c.val < min m.dim.toNat (min a.toNat b.toNat) then m.cell r c
      else unit r c := by
  rw [cell_resize, cell_resize, ← ite_and, dim_resize]
  exact if_congr (by simp only [Inside, Dim.Active]; omega) rfl rfl

theorem resize_resize (h : min m.dim.toNat b.toNat ≤ a.toNat) :
    (m.resize a).resize b = m.resize b := by
  refine ext_cell rfl fun r c => ?_
  rw [cell_resize_resize, cell_resize]
  exact if_congr (by simp only [Inside, Dim.Active]; omega) rfl rfl

theorem Padded.resize_self (h : m.Padded) : m.resize m.dim = m := by
  refine ext_cell rfl fun r c => ?_
  rw [h.cell_resize]
  by_cases hin : Inside m.dim r c
  · rw [if_pos hin]
  · rw [if_neg hin, h r c hin]

theorem Padded.project_eq (h : m.Padded) (d : Dim) : m.project d = (m.resize d).rows := by
  refine List.map_congr_left fun r hr => List.map_congr_left fun c hc => ?_
  rw [h.cell_resize, if_pos ⟨(d.mem_indices r).1 hr, (d.mem_indices c).1 hc⟩]

/-- What is cut off and what is added is symmetric. -/
theorem transpose_resize (m : Mat α) (d : Dim) :
    m.transpose.resize d = (m.resize d).transpose := by
  refine ext_cell rfl fun r c => ?_
  simp only [transpose, cell_resize, cell_overwrite, dim_overwrite, dim_resize]
  by_cases hd : Inside d r c
  · by_cases hm : Inside m.dim r c
    · rw [if_pos ⟨hd, hm⟩, if_pos hm, if_pos hd, if_pos ⟨inside_swap.1 hd, inside_swap.1 hm⟩]
    · rw [if_neg fun h => hm h.2, if_pos hd, if_neg fun h => hm (inside_swap.1 h.2), unit_swap]
  · rw [if_neg fun h => hd h.1, if_neg hd, if_neg fun h => hd h.1]

end Mat

/-- Reading at another size twice keeps what all three sizes have, so it is reading at the last
size unless the one in between cuts, and growing is undone by shrinking. What is stored at the
places of a size is what the projection to it shows. Transposing is its own inverse and does not
mind the size, and the constructor of a size applied to a matrix is the projection. -/
theorem projections_lawful {α : Type} [Zero α] [One α] (m : Mat α) (v : Vec α) (hm : m.Padded)
    (hv : v.Padded) :
    (∀ a b : Dim,
      ((m.resize a).resize b).dim = b ∧
      (∀ r c, ((m.resize a).resize b).cell r c =
        if max r.val c.val < min m.dim.toNat (min a.toNat b.toNat) then m.cell r c
        else Mat.unit r c) ∧
      (min m.dim.toNat b.toNat ≤ a.toNat → (m.resize a).resize b = m.resize b) ∧
      ((v.resize a).resize b).dim = b ∧
      (∀ i, ((v.resize a).resize b).get i =
        if i.val < min v.dim.toNat (min a.toNat b.toNat) then v.get i else 0) ∧
      (min v.dim.toNat b.toNat ≤ a.toNat → (v.resize a).resize b = v.resize b)) ∧
    (∀ d : Dim,
      (m.dim.toNat ≤ d.toNat → (m.resize d).resize m.dim = m) ∧
      (v.dim.toNat ≤ d.toNat → (v.resize d).resize v.dim = v) ∧
      m.project d = (m.resize d).rows ∧
      v.project d = (v.resize d).toList ∧
      m.transpose.resize d = (m.resize d).transpose) ∧
    m.transpose.transpose = m ∧
    ∀ (f : Function) (d : Dim) (n : Mat Float), f.matrixDim? = some d →
      Builtin.matrix f [.matrix n] = .ok (.matrix (n.resize d)) := by
  refine ⟨fun a b => ?_, fun d => ?_, m.transpose_transpose, ?_⟩
  · exact ⟨rfl, m.cell_resize_resize a b, Mat.resize_resize, rfl, v.get_resize_resize a b,
      Vec.resize_resize⟩
  · refine ⟨fun h => ?_, fun h => ?_, hm.project_eq d, hv.project_eq d, m.transpose_resize d⟩
    · rw [Mat.resize_resize (by omega), hm.resize_self]
    · rw [Vec.resize_resize (by omega), hv.resize_self]
  · intro f d n hf
    rw [Builtin.matrix, hf]

/-- A matrix of size three with zeros that carry a sign and cells that are no numbers. -/
def Mat.odd : Mat Float := .build .three fun r c => if r = c then -0 else if r < c then 0 / 0 else 2

def Vec.odd : Vec Float := .build .two fun i => if i = 0 then -0 else 0 / 0

/-- Cut to size two and grown to four, the matrix has lost its last row; grown to four and cut to
three, it is as before. -/
theorem projections_lawful_of_odd :
    Mat.odd.Padded ∧ Vec.odd.Padded ∧ ((Mat.odd.resize .two).resize .four).cell 2 1 = 0 ∧
      Mat.odd.cell 2 1 = 2 ∧ (Mat.odd.resize .four).resize .three = .odd ∧
      (Mat.odd.resize .four).resize .two = Mat.odd.resize .two ∧
      (Vec.odd.resize .four).resize .three = Vec.odd.resize .three ∧
      (Vec.odd.resize .three).resize .two = .odd ∧
      Mat.odd.project .four = (Mat.odd.resize .four).rows ∧
      Vec.odd.project .three = [-0, 0 / 0, 0] ∧
      Builtin.matrix (.mat .two) [.matrix .odd] = .ok (.matrix (Mat.odd.resize .two)) := by
  have hm : Mat.odd.Padded := Mat.padded_build .three _
  have hv : Vec.odd.Padded := Vec.padded_build .two _
  obtain ⟨htwice, honce, -, hconstructor⟩ := projections_lawful Mat.odd Vec.odd hm hv
  obtain ⟨-, hcell, -⟩ := htwice .two .four
  obtain ⟨-, -, hcut, -⟩ := htwice .four .two
  obtain ⟨-, -, -, -, -, hgrown⟩ := htwice .four .three
  obtain ⟨hback, -, hproject, -⟩ := honce .four
  obtain ⟨-, hbackVec, -, hprojectVec, -⟩ := honce .three
  refine ⟨hm, hv, ?_, rfl, hback (by decide), hcut (by decide), hgrown (by decide),
    hbackVec (by decide), hproject, ?_, hconstructor _ _ _ rfl⟩
  · rw [hcell]
    rfl
  · rw [hprojectVec]
    rfl

end MatrixCalc
