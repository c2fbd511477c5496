import Mathlib.Data.Matrix.Mul
import MatrixCalc.Proofs.Mat.Block

/-!
# Row operations

Swapping rows, dividing a row and clearing a column are each the product with a matrix on the left,
and that matrix does not depend on the operand (`RowOperation`). None of them disturbs a column that
is already one of the identity as long as the rows they work with are other rows, and clearing makes
such a column.
-/
namespace MatrixCalc

namespace Mat

variable {K : Type} [Field K] {d : Dim}

/-- On matrices of one size the operation is the product with a fixed matrix on the left. -/
def RowOperation (d : Dim) (f : Mat K → Mat K) : Prop :=
  ∃ E : Matrix d.Place d.Place K, ∀ m, m.dim = d → (f m).dim = d ∧ (f m).block d = E * m.block d

/-- A column of the block that is one of the identity. -/
def UnitColumn (m : Mat K) (c : Fin 4) : Prop := ∀ r, m.dim.Active r → m.cell r c = unit r c

theorem RowOperation.comp {f g : Mat K → Mat K} (hg : RowOperation d g) (hf : RowOperation d f) :
    RowOperation d (g ∘ f) := by
  obtain ⟨E, hE⟩ := hf
  obtain ⟨F, hF⟩ := hg
  refine ⟨F * E, fun m hm => ?_⟩
  obtain ⟨hdim, hblock⟩ := hE m hm
  obtain ⟨hdim', hblock'⟩ := hF (f m) hdim
  refine ⟨hdim', ?_⟩
  rw [Function.comp_apply, hblock', hblock, Matrix.mul_assoc]

theorem cell_swapRows {α : Type} (m : Mat α) (i j r c : Fin 4) :
    (m.swapRows i j).cell r c = m.cell (if r = i then j else if r = j then i else r) c :=
  cell_ofCells ..

theorem rowOperation_swapRows (i j : d.Place) :
    RowOperation d fun m : Mat K => m.swapRows i j := by
  refine ⟨(1 : Matrix d.Place d.Place K).submatrix (Equiv.swap i j) (Equiv.refl _), ?_⟩
  refine fun m hm => ⟨hm, ?_⟩
  rw [Matrix.one_submatrix_mul]
  ext r c
  rw [block, cell_swapRows, Matrix.submatrix_apply, Function.comp_apply, Equiv.refl_symm,
    Equiv.refl_apply, Equiv.swap_apply_def, block]
  simp only [Subtype.ext_iff, apply_ite Subtype.val, id]

theorem cell_divideRow {m : Mat K} {r c : Fin 4} (h : Inside m.dim r c) (i : Fin 4) (x : K) :
    (m.divideRow i x).cell r c = if r = i then m.cell r c / x else m.cell r c := by
  rw [divideRow, cell_overwrite, if_pos h]

theorem rowOperation_divideRow (i : d.Place) (x : K) :
    RowOperation d fun m : Mat K => m.divideRow i x := by
  refine ⟨Matrix.diagonal fun r => if r = i then x⁻¹ else 1, fun m hm => ⟨hm, ?_⟩⟩
  subst hm
  ext r c
  rw [Matrix.diagonal_mul, block, cell_divideRow ⟨r.2, c.2⟩, ite_mul, one_mul, div_eq_inv_mul]
  simp only [Subtype.ext_iff, block]

theorem UnitColumn.swapRows {m : Mat K} {i j c : Fin 4} (h : m.UnitColumn c)
    (hi : m.dim.Active i) (hj : m.dim.Active j) (hic : i ≠ c) (hjc : j ≠ c) :
    (m.swapRows i j).UnitColumn c := by
  intro r hr
  rw [cell_swapRows]
  split
  · next hri => rw [h j hj, unit, if_neg hjc, unit, if_neg (hri ▸ hic)]
  · split
    · next hrj => rw [h i hi, unit, if_neg hic, unit, if_neg (hrj ▸ hjc)]
    · exact h r hr

theorem UnitColumn.divideRow {m : Mat K} {i c : Fin 4} (h : m.UnitColumn c) (hc : m.dim.Active c)
    (hic : i ≠ c) (x : K) : (m.divideRow i x).UnitColumn c := by
  rintro r (hr : m.dim.Active r)
  rw [cell_divideRow ⟨hr, hc⟩, h r hr]
  split
  · next hri => rw [unit, if_neg (hri ▸ hic), zero_div]
  · rfl

section Clearing

variable [BEq K] [LawfulBEq K]

/-- A row whose factor is zero needs no exception. -/
theorem cell_clearRows {m : Mat K} {r c : Fin 4} (h : Inside m.dim r c) (i : Fin 4)
    (factor : Fin 4 → K) :
    (m.clearRows i factor).cell r c =
      m.cell r c - (if r = i then 0 else factor r) * m.cell i c := by
  rw [clearRows, cell_overwrite, if_pos h]
  by_cases hr : r = i
  · rw [if_pos (.inl hr), if_pos hr, zero_mul, sub_zero]
  · rw [if_neg hr]
    split
    · next hzero => rw [eq_of_beq (hzero.resolve_left hr), zero_mul, sub_zero]
    · rfl

theorem rowOperation_clearRows (i : d.Place) (factor : Fin 4 → K) :
    RowOperation d fun m : Mat K => m.clearRows i factor := by
  refine ⟨1 - Matrix.vecMulVec (fun r : d.Place => if r = i then 0 else factor r) (Pi.single i 1),
    fun m hm => ⟨hm, ?_⟩⟩
  subst hm
  ext r c
  rw [sub_mul, one_mul, Matrix.vecMulVec_mul, Matrix.single_one_vecMul, block,
    cell_clearRows ⟨r.2, c.2⟩, Matrix.sub_apply, Matrix.vecMulVec_apply, Matrix.row_apply]
  simp only [Subtype.ext_iff, block]

theorem UnitColumn.clearRows {m : Mat K} {i c : Fin 4} (h : m.UnitColumn c) (hc : m.dim.Active c)
    (hi : m.dim.Active i) (hic : i ≠ c) (factor : Fin 4 → K) :
    (m.clearRows i factor).UnitColumn c := by
  rintro r (hr : m.dim.Active r)
  rw [cell_clearRows ⟨hr, hc⟩, h r hr, h i hi, unit, unit, if_neg hic, mul_zero, sub_zero]

/-- Clearing with the cells of a column as factors, around a pivot that is one. -/
theorem unitColumn_clearRows {m : Mat K} {c : Fin 4} (hc : m.dim.Active c) (hone : m.cell c c = 1) :
    (m.clearRows c fun r => m.cell r c).UnitColumn c := by
  rintro r (hr : m.dim.Active r)
  rw [cell_clearRows ⟨hr, hc⟩, hone, mul_one, unit]
  split
  · next hrc => rw [hrc, hone, sub_zero]
  · rw [sub_self]

/-- The three operations of one column, one after the other. -/
theorem rowOperation_column (col pivot : d.Place) (x : K) (factor : Fin 4 → K) :
    RowOperation d fun m : Mat K =>
      ((m.swapRows col pivot).divideRow col x).clearRows col factor :=
  (rowOperation_clearRows col factor).comp
    ((rowOperation_divideRow col x).comp (rowOperation_swapRows col pivot))

theorem UnitColumn.column {m : Mat K} {col pivot c : Fin 4} (h : m.UnitColumn c)
    (hc : m.dim.Active c) (hcol : m.dim.Active col) (hpivot : m.dim.Active pivot) (hne : col ≠ c)
    (hne' : pivot ≠ c) (x : K) (factor : Fin 4 → K) :
    (((m.swapRows col pivot).divideRow col x).clearRows col factor).UnitColumn c := by
  have hswapped := h.swapRows hcol hpivot hne hne'
  exact (hswapped.divideRow hc hne x).clearRows hc hcol hne factor

/-- A column whose pivot is brought to its place, divided by itself and used for clearing. -/
theorem unitColumn_of_pivot {m : Mat K} {c pivot : Fin 4} (hc : m.dim.Active c)
    (hne : m.cell pivot c ≠ 0) :
    let divided := (m.swapRows c pivot).divideRow c ((m.swapRows c pivot).cell c c)
    (divided.clearRows c fun r => divided.cell r c).UnitColumn c := by
  intro divided
  refine unitColumn_clearRows hc ?_
  have hin : Inside (m.swapRows c pivot).dim c c := ⟨hc, hc⟩
  rw [cell_divideRow hin, if_pos rfl, cell_swapRows, if_pos rfl, div_self hne]

end Clearing

end Mat
end MatrixCalc
