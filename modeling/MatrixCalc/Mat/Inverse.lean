import MatrixCalc.Mat.Basic

/-!
# Inversion

Gauss–Jordan elimination, one column after the other. The state is a pair of matrices that
takes the same row operations: the one on the left goes to the identity, the one on the right
starts there and ends as the inverse. Which row gives the pivot and which pivots are too small
is a rule of its own, so the elimination runs over any kind of cells.
-/
namespace MatrixCalc

/-- How pivots are chosen: the order of magnitudes, and the cells that are too small to divide
by. -/
structure PivotRule (α : Type) where
  noLarger : α → α → Bool
  negligible : α → Bool

/-- The matrix being reduced and the inverse being built. -/
structure Elimination (α : Type) where
  work : Mat α
  inverse : Mat α
  deriving DecidableEq

namespace Mat

variable {α : Type}

/-- Swaps whole rows, the padding in them included. -/
def swapRows (m : Mat α) (i j : Fin 4) : Mat α :=
  ofCells m.dim fun r c => m.cell (if r = i then j else if r = j then i else r) c

def divideRow [Div α] (m : Mat α) (i : Fin 4) (x : α) : Mat α :=
  m.overwrite fun r c => if r = i then m.cell r c / x else m.cell r c

/-- Subtracts from every other row its multiple of row `i`; a row whose factor is zero stays. -/
def clearRows [Zero α] [Sub α] [Mul α] [BEq α] (m : Mat α) (i : Fin 4) (factor : Fin 4 → α) :
    Mat α :=
  m.overwrite fun r c =>
    if r = i ∨ factor r == 0 then m.cell r c else m.cell r c - factor r * m.cell i c

end Mat

namespace Elimination

variable {α : Type} [Zero α] [One α]

/-- The rows from `col` on, among which the pivot of that column is sought. -/
def candidates (d : Dim) (col : Fin 4) : List (Fin 4) := d.indices.filter (col ≤ ·)

/-- The row with the largest cell of the column; the last one where several are. -/
def pivotRow (rule : PivotRule α) (m : Mat α) (col : Fin 4) : Fin 4 :=
  (candidates m.dim col).foldl
    (fun best r => if rule.noLarger (m.cell best col) (m.cell r col) then r else best) col

/-- Reduces one column, or fails when its pivot is negligible. -/
def reduce? [Sub α] [Mul α] [Div α] [BEq α] (rule : PivotRule α) (s : Elimination α)
    (col : Fin 4) : Option (Elimination α) :=
  let pivot := pivotRow rule s.work col
  if rule.negligible (s.work.cell pivot col) then none
  else
    let work := s.work.swapRows col pivot
    let inverse := s.inverse.swapRows col pivot
    let scale := work.cell col col
    let work := work.divideRow col scale
    let inverse := inverse.divideRow col scale
    let factor := fun r => work.cell r col
    some ⟨work.clearRows col factor, inverse.clearRows col factor⟩

def start (m : Mat α) : Elimination α := ⟨m, .identity m.dim⟩

end Elimination

namespace Mat

variable {α : Type} [Zero α] [One α]

/-- The inverse, if no pivot on the way is negligible. -/
def inverse? [Sub α] [Mul α] [Div α] [BEq α] (rule : PivotRule α) (m : Mat α) :
    Option (Mat α) :=
  (m.dim.indices.foldlM (Elimination.reduce? rule) (.start m)).map (·.inverse)

/-- Magnitudes of floats, a NaN being the largest; below `1e-12` a pivot counts as zero. -/
def floatPivots : PivotRule Float where
  noLarger x y := x.abs.toBits ≤ y.abs.toBits
  negligible x := x.abs < 1e-12

end Mat
end MatrixCalc
