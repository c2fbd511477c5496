import Mathlib.Data.List.ProdSigma
import MatrixCalc.Value.Basic

/-!
# Components

The components of a value are read off its active places in order: those of a vector from the
first to the last, the cells of a matrix row by row. An operation that writes a copy of its
operand place by place is an operation on this list (`Value.cells_map`), and one on two operands
of one size pairs their lists.
-/
namespace MatrixCalc

namespace Vec

variable {α : Type}

theorem toList_overwrite (v : Vec α) (f : Fin 4 → α) :
    (v.overwrite f).toList = v.dim.indices.map f := by
  refine List.map_congr_left fun i hi => ?_
  rw [get_overwrite, if_pos ((v.dim.mem_indices i).1 hi)]

theorem toList_map (f : α → α) (v : Vec α) : (v.map f).toList = v.toList.map f := by
  rw [map, toList_overwrite, toList, List.map_map]
  rfl

theorem toList_zipWith (f : α → α → α) {v w : Vec α} (h : v.dim = w.dim) :
    (v.zipWith f w).toList = (v.toList.zip w.toList).map fun p => f p.1 p.2 := by
  rw [zipWith, toList_overwrite, toList, toList, ← h, List.zip_map', List.map_map]
  rfl

end Vec

namespace Mat

variable {α : Type}

/-- The places of the block, row by row. -/
def places (d : Dim) : List (Fin 4 × Fin 4) := d.indices ×ˢ d.indices

theorem mem_places {d : Dim} {p : Fin 4 × Fin 4} : p ∈ places d ↔ Inside d p.1 p.2 := by
  rw [places, List.mem_product, Dim.mem_indices, Dim.mem_indices]
  rfl

theorem flatten_rows (m : Mat α) :
    m.rows.flatten = (places m.dim).map fun p => m.cell p.1 p.2 :=
  calc m.rows.flatten
      = m.dim.indices.flatMap fun r => (m.dim.indices.map (r, ·)).map fun p => m.cell p.1 p.2 := by
        simp only [rows, List.flatMap_def, List.map_map, Function.comp_def]
    _ = (places m.dim).map fun p => m.cell p.1 p.2 := List.map_flatMap.symm

theorem flatten_rows_overwrite (m : Mat α) (f : Fin 4 → Fin 4 → α) :
    (m.overwrite f).rows.flatten = (places m.dim).map fun p => f p.1 p.2 := by
  rw [flatten_rows, dim_overwrite]
  refine List.map_congr_left fun p hp => ?_
  rw [cell_overwrite, if_pos (mem_places.1 hp)]

theorem flatten_rows_map (f : α → α) (m : Mat α) :
    (m.map f).rows.flatten = m.rows.flatten.map f := by
  rw [map, flatten_rows_overwrite, flatten_rows, List.map_map]
  rfl

theorem flatten_rows_zipWith (f : α → α → α) {a b : Mat α} (h : a.dim = b.dim) :
    (a.zipWith f b).rows.flatten =
      (a.rows.flatten.zip b.rows.flatten).map fun p => f p.1 p.2 := by
  rw [zipWith, flatten_rows_overwrite, flatten_rows, flatten_rows, ← h, List.zip_map',
    List.map_map]
  rfl

end Mat

namespace Value

theorem cells_map (f : Float → Float) (v : Value) : (v.map f).cells = v.cells.map f := by
  cases v with
  | scalar x => rfl
  | vector v => exact v.toList_map f
  | matrix m => exact m.flatten_rows_map f

theorem cells_ne_nil (v : Value) : v.cells ≠ [] := by
  cases v with
  | scalar x => exact List.cons_ne_nil _ _
  | vector v =>
    rw [cells, Vec.toList]
    cases v.dim <;> exact List.cons_ne_nil _ _
  | matrix m =>
    rw [cells, Mat.flatten_rows]
    cases m.dim <;> exact List.cons_ne_nil _ _

end Value
end MatrixCalc
