import Mathlib.Algebra.BigOperators.Fin
import Mathlib.Data.Matrix.Mul
import MatrixCalc.Proofs.Value.Padding

/-!
# The active block

The block of a stored matrix, as a matrix over the active places. The operations on stored
matrices are those of matrices there: the product is the product, the matrix that the storage
calls the identity is one. Two padded matrices of one size are equal when their blocks are.
-/
namespace MatrixCalc

/-- The active places of a size. -/
abbrev Dim.Place (d : Dim) : Type := {i : Fin 4 // d.Active i}

theorem Dim.sum_eq {α : Type} [AddCommMonoid α] (d : Dim) (f : Fin 4 → α) :
    d.sum f = ∑ i : d.Place, f i := by
  have hmem : ∀ i, i ∈ Finset.univ.filter d.Active ↔ d.Active i := by simp
  rw [← Finset.sum_subtype _ hmem f, Finset.sum_filter, Fin.sum_univ_four]
  cases d <;> simp [sum, Active, toNat]

namespace Mat

variable {α : Type}

def block (d : Dim) (m : Mat α) : Matrix d.Place d.Place α := fun r c => m.cell r c

section Semiring

variable [NonAssocSemiring α] {d : Dim} {a b : Mat α}

theorem block_product (h : a.dim = d) (b : Mat α) :
    (a.product b).block d = a.block d * b.block d := by
  subst h
  ext r c
  rw [block, product, cell_overwrite, if_pos ⟨r.2, c.2⟩, Dim.sum_eq]
  rfl

theorem block_identity (d : Dim) : (identity d : Mat α).block d = 1 := by
  ext r c
  rw [block, cell_identity, unit, Matrix.one_apply]
  simp only [Subtype.ext_iff]

end Semiring

@[simp] theorem transpose_transpose (m : Mat α) : m.transpose.transpose = m := by
  refine ext_cell rfl fun r c => ?_
  by_cases hin : Inside m.dim r c
  · have hin' : Inside m.dim c r := ⟨hin.2, hin.1⟩
    simp [transpose, cell_overwrite, hin, hin']
  · simp [transpose, cell_overwrite, hin]

theorem Padded.ext_block [Zero α] [One α] {a b : Mat α} (ha : a.Padded) (hb : b.Padded)
    (hdim : a.dim = b.dim) (h : a.block a.dim = b.block a.dim) : a = b := by
  refine ext_cell hdim fun r c => ?_
  by_cases hin : Inside a.dim r c
  · exact congrFun (congrFun h ⟨r, hin.1⟩) ⟨c, hin.2⟩
  · rw [ha r c hin, hb r c (hdim ▸ hin)]

end Mat
end MatrixCalc
