import MatrixCalc.Vec

/-!
# Square matrices

A matrix of size two, three or four is stored in a grid of four by four cells. The cells
outside the active block hold those of the identity, so a matrix read at a larger size is
padded with the identity and one read at a smaller size keeps its upper left block. A new matrix
starts as the identity; an operation on a matrix works on a copy of it and writes cells of the
block only. The cells may come from any type with the operations needed.
-/
namespace MatrixCalc

structure Mat (α : Type) where
  dim : Dim
  grid : Quad (Quad α)
  deriving DecidableEq

namespace Mat

variable {α : Type}

/-- The cell at a row and a column, or the padding outside the active block. -/
def cell (m : Mat α) (r c : Fin 4) : α := (m.grid.get r).get c

def unit [Zero α] [One α] (r c : Fin 4) : α := if r = c then 1 else 0

/-- A cell of the active block of size `d`. -/
def Inside (d : Dim) (r c : Fin 4) : Prop := d.Active r ∧ d.Active c

instance (d : Dim) (r c : Fin 4) : Decidable (Inside d r c) :=
  inferInstanceAs (Decidable (_ ∧ _))

/-- The cells outside the active block are those of the identity. -/
def Padded [Zero α] [One α] (m : Mat α) : Prop :=
  ∀ r c, ¬ Inside m.dim r c → m.cell r c = unit r c

def ofCells (d : Dim) (f : Fin 4 → Fin 4 → α) : Mat α := ⟨d, .ofFn fun r => .ofFn (f r)⟩

/-- A copy with other cells in the block. -/
def overwrite (m : Mat α) (f : Fin 4 → Fin 4 → α) : Mat α :=
  ofCells m.dim fun r c => if Inside m.dim r c then f r c else m.cell r c

def identity [Zero α] [One α] (d : Dim) : Mat α := ofCells d unit

def build [Zero α] [One α] (d : Dim) (f : Fin 4 → Fin 4 → α) : Mat α := (identity d).overwrite f

/-- The upper left cells as they are stored, whatever the size of the matrix. -/
def project (m : Mat α) (d : Dim) : List (List α) := d.indices.map fun r => d.indices.map (m.cell r)

def rows (m : Mat α) : List (List α) := m.dim.indices.map fun r => m.dim.indices.map (m.cell r)

/-- `x` on the active diagonal and zero elsewhere in the block. -/
def diagonal [Zero α] [One α] (d : Dim) (x : α) : Mat α :=
  build d fun r c => if r = c then x else 0

def resize [Zero α] [One α] (m : Mat α) (d : Dim) : Mat α :=
  build d fun r c => if Inside m.dim r c then m.cell r c else unit r c

def map (f : α → α) (m : Mat α) : Mat α := m.overwrite fun r c => f (m.cell r c)

def zipWith (f : α → α → α) (a b : Mat α) : Mat α :=
  a.overwrite fun r c => f (a.cell r c) (b.cell r c)

def product [Add α] [Mul α] (a b : Mat α) : Mat α :=
  a.overwrite fun r c => a.dim.sum fun k => a.cell r k * b.cell k c

/-- The product with a column: one component for each row, in four slots that are cut to size. -/
def apply [Zero α] [Add α] [Mul α] (m : Mat α) (v : Vec α) : Vec α :=
  let column : Vec α := .build .four fun r =>
    if m.dim.Active r then m.dim.sum fun k => m.cell r k * v.get k else 0
  column.truncate m.dim

def transpose (m : Mat α) : Mat α := m.overwrite fun r c => m.cell c r

/-- Same size and equal cells, the padding included. -/
def equals [BEq α] (a b : Mat α) : Bool := decide (a.dim = b.dim) && a.grid == b.grid

@[simp] theorem cell_ofCells (d : Dim) (f : Fin 4 → Fin 4 → α) (r c : Fin 4) :
    (ofCells d f).cell r c = f r c := by
  simp [ofCells, cell]

@[simp] theorem dim_overwrite (m : Mat α) (f : Fin 4 → Fin 4 → α) :
    (m.overwrite f).dim = m.dim := rfl

theorem cell_overwrite (m : Mat α) (f : Fin 4 → Fin 4 → α) (r c : Fin 4) :
    (m.overwrite f).cell r c = if Inside m.dim r c then f r c else m.cell r c := by
  simp [overwrite]

@[simp] theorem dim_identity [Zero α] [One α] (d : Dim) : (identity d : Mat α).dim = d := rfl

@[simp] theorem cell_identity [Zero α] [One α] (d : Dim) (r c : Fin 4) :
    (identity d : Mat α).cell r c = unit r c := by
  simp [identity]

theorem cell_build [Zero α] [One α] (d : Dim) (f : Fin 4 → Fin 4 → α) (r c : Fin 4) :
    (build d f).cell r c = if Inside d r c then f r c else unit r c := by
  rw [build, cell_overwrite, cell_identity, dim_identity]

theorem ext_cell {a b : Mat α} (hd : a.dim = b.dim) (h : ∀ r c, a.cell r c = b.cell r c) :
    a = b := by
  cases a; cases b
  simp only at hd
  exact congr (congrArg mk hd) (Quad.ext_get fun r => Quad.ext_get (h r))

end Mat
end MatrixCalc
