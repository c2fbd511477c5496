import MatrixCalc.CalcError
import MatrixCalc.Proofs.Checked.Attempt
import MatrixCalc.Proofs.Checked.Places
import MatrixCalc.Proofs.Value.Padding

/-!
# Inversion by indices, with refusals

Gauss–Jordan elimination with rows and columns counted by indices. The pivot is always a row of the
block, so no index is refused.
-/
namespace MatrixCalc.Checked

variable {α : Type}

namespace Mat

def swapRows (m : Mat α) (i j : Nat) : Option (Mat α) := do
  let row ← get? m.grid i
  let other ← get? m.grid j
  return ⟨m.dim, ← put? (← put? m.grid i other) j row⟩

def divideRow [Div α] (m : Mat α) (i : Nat) (x : α) : Option (Mat α) :=
  write m [i] (fun _ => below m.dim) fun r c => do return (← cell m r c) / x

def clearRows [Zero α] [Sub α] [Mul α] [BEq α] (m : Mat α) (i : Nat) (factor : Nat → Option α) :
    Option (Mat α) :=
  write m ((below m.dim).filter (· ≠ i)) (fun _ => below m.dim) fun r c => do
    let x ← factor r
    if x == 0 then cell m r c else return (← cell m r c) - x * (← cell m i c)

theorem swapRows_eq (m : Mat α) (i j : Fin 4) :
    swapRows m i.val j.val = some (m.swapRows i j) := by
  simp only [swapRows, get?_val, put?_val, Option.bind_eq_bind, Option.bind_some]
  refine congrArg some (Mat.ext_cell rfl fun r c => ?_)
  rw [MatrixCalc.Mat.swapRows, Mat.cell_ofCells]
  simp only [MatrixCalc.Mat.cell, Quad.get_ofFn]
  by_cases hj : r = j
  · by_cases hi : r = i
    · rw [if_pos hj, if_pos hi, ← hi, hj]
    · rw [if_pos hj, if_neg hi, if_pos hj]
  · by_cases hi : r = i
    · rw [if_neg hj, if_pos hi, if_pos hi]
    · rw [if_neg hj, if_neg hi, if_neg hi, if_neg hj]

theorem divideRow_eq [Div α] {m : Mat α} {i : Fin 4} (hi : m.dim.Active i) (x : α) :
    divideRow m i.val x = some (m.divideRow i x) := by
  have hrows : ∀ r ∈ [i.val], r < 4 := by
    intro r hr
    rw [List.mem_singleton.1 hr]
    exact i.isLt
  rw [divideRow, write_eq hrows (fun _ _ => lt_four_of_mem_below) (g := fun r c => m.cell r c / x)
    fun r c _ _ => by rw [cell_val]; rfl]
  refine congrArg some (Mat.ext_cell rfl fun r c => ?_)
  rw [Mat.cell_ofCells, MatrixCalc.Mat.divideRow, Mat.cell_overwrite]
  simp only [List.mem_singleton, val_mem_below]
  by_cases hr : r = i
  · subst hr
    by_cases hc : m.dim.Active c
    · rw [if_pos ⟨rfl, hc⟩, if_pos ⟨hi, hc⟩, if_pos rfl]
    · rw [if_neg fun h => hc h.2, if_neg fun h => hc h.2]
  · rw [if_neg fun h => hr (Fin.ext h.1), if_neg hr, ite_self]

theorem clearRows_eq [Zero α] [Sub α] [Mul α] [BEq α] (m : Mat α) (i : Fin 4)
    {factor : Nat → Option α} {g : Fin 4 → α} (h : ∀ r : Fin 4, factor r.val = some (g r)) :
    clearRows m i.val factor = some (m.clearRows i g) := by
  have hrows : ∀ r ∈ (below m.dim).filter (· ≠ i.val), r < 4 :=
    fun r hr => lt_four_of_mem_below r (List.mem_filter.1 hr).1
  have hmem : ∀ r : Fin 4, r.val ∈ (below m.dim).filter (· ≠ i.val) ↔ m.dim.Active r ∧ r ≠ i := by
    intro r
    rw [List.mem_filter, val_mem_below, decide_eq_true_iff, Ne, Ne, Fin.ext_iff]
  have hcell : ∀ r c : Fin 4, (do
      let x ← factor r.val
      if x == 0 then cell m r.val c.val
      else return (← cell m r.val c.val) - x * (← cell m i.val c.val)) =
        some (if g r == 0 then m.cell r c else m.cell r c - g r * m.cell i c) := by
    intro r c
    simp only [h, cell_val, Option.bind_eq_bind, Option.bind_some]
    split <;> rfl
  rw [clearRows, write_eq hrows (fun _ _ => lt_four_of_mem_below) fun r c _ _ => hcell r c]
  refine congrArg some (Mat.ext_cell rfl fun r c => ?_)
  rw [Mat.cell_ofCells, MatrixCalc.Mat.clearRows, Mat.cell_overwrite]
  simp only [hmem, val_mem_below]
  by_cases hr : r = i
  · rw [if_neg fun h => h.1.2 hr, if_pos (Or.inl hr), ite_self]
  · by_cases hin : Mat.Inside m.dim r c
    · rw [if_pos ⟨⟨hin.1, hr⟩, hin.2⟩, if_pos hin]
      simp only [hr, false_or]
    · rw [if_neg fun h => hin ⟨h.1.1, h.2⟩, if_neg hin]

end Mat

namespace Elimination

variable {rule : PivotRule α}

/-- The better of two rows for the pivot of a column. -/
def better (rule : PivotRule α) (m : Mat α) (col best r : Nat) : Option Nat := do
  return if rule.noLarger (← Mat.cell m best col) (← Mat.cell m r col) then r else best

def pivotRow (rule : PivotRule α) (m : Mat α) (col : Nat) : Option Nat :=
  ((below m.dim).filter (col ≤ ·)).foldlM (better rule m col) col

theorem better_eq (m : Mat α) (col best r : Fin 4) :
    better rule m col.val best.val r.val =
      some (if rule.noLarger (m.cell best col) (m.cell r col) then r else best).val := by
  rw [better, Mat.cell_val, Mat.cell_val, apply_ite Fin.val]
  rfl

theorem foldlM_better (m : Mat α) (col : Fin 4) (rows : List (Fin 4)) (best : Fin 4) :
    (rows.map Fin.val).foldlM (better rule m col.val) best.val =
      some (rows.foldl (fun best r =>
        if rule.noLarger (m.cell best col) (m.cell r col) then r else best) best).val := by
  induction rows generalizing best with
  | nil => rfl
  | cons r rows ih =>
    rw [List.map_cons, List.foldlM_cons, List.foldl_cons, better_eq, Option.bind_eq_bind,
      Option.bind_some, ih]

theorem pivotRow_eq (m : Mat α) (col : Fin 4) :
    pivotRow rule m col.val = some (MatrixCalc.Elimination.pivotRow rule m col).val := by
  rw [pivotRow, below_eq, List.filter_map]
  exact foldlM_better m col _ col

variable [Zero α] [Sub α] [Mul α] [Div α] [BEq α]

/-- Reduces a column by the pivot in a row. -/
def reduceBy (s : Elimination α) (col pivot : Nat) : Option (Elimination α) := do
  let work ← Mat.swapRows s.work col pivot
  let inverse ← Mat.swapRows s.inverse col pivot
  let scale ← Mat.cell work col col
  let work ← Mat.divideRow work col scale
  let inverse ← Mat.divideRow inverse col scale
  let factor r := Mat.cell work r col
  return ⟨← Mat.clearRows work col factor, ← Mat.clearRows inverse col factor⟩

def reduce (rule : PivotRule α) (s : Elimination α) (col : Nat) :
    Attempt CalcError (Elimination α) := do
  let pivot ← pivotRow rule s.work col
  let x : α ← liftM (Mat.cell s.work pivot col)
  if rule.negligible x then throw .singularMatrix
  else reduceBy s col pivot

/-- A matrix that is missing is singular. -/
def orSingular {β : Type} : Option β → Except CalcError β
  | some b => .ok b
  | none => .error .singularMatrix

theorem reduceBy_eq {s : Elimination α} {col : Fin 4} (hwork : s.work.dim.Active col)
    (hinverse : s.inverse.dim.Active col) (pivot : Fin 4) :
    let work := s.work.swapRows col pivot
    let inverse := s.inverse.swapRows col pivot
    let scale := work.cell col col
    let reduced := work.divideRow col scale
    let factor := fun r => reduced.cell r col
    reduceBy s col.val pivot.val =
      some ⟨reduced.clearRows col factor, (inverse.divideRow col scale).clearRows col factor⟩ := by
  intro work inverse scale reduced factor
  have hreduced := Mat.divideRow_eq (m := work) hwork scale
  have hdivided := Mat.divideRow_eq (m := inverse) hinverse scale
  have hclear : ∀ m : Mat α, Mat.clearRows m col.val (fun r => Mat.cell reduced r col.val) =
      some (m.clearRows col factor) :=
    fun m => Mat.clearRows_eq m col fun r => Mat.cell_val reduced r col
  rw [reduceBy, Mat.swapRows_eq, Mat.swapRows_eq]
  simp only [Option.bind_eq_bind, Option.bind_some, Mat.cell_val]
  rw [hreduced]
  simp only [Option.bind_some]
  rw [hdivided]
  simp only [Option.bind_some]
  rw [hclear, hclear]
  rfl

variable [One α]

theorem reduce_eq {d : Dim} {s : Elimination α} (hs : s.Sound d) {col : Fin 4}
    (hcol : d.Active col) : reduce rule s col.val = .of (orSingular (s.reduce? rule col)) := by
  have hreduce := reduceBy_eq (hs.dim_work ▸ hcol) (hs.dim_inverse ▸ hcol)
    (MatrixCalc.Elimination.pivotRow rule s.work col)
  rw [reduce, pivotRow_eq, Attempt.some_bind, Mat.cell_val, Attempt.some_bind,
    hreduce, MatrixCalc.Elimination.reduce?]
  cases rule.negligible (s.work.cell (MatrixCalc.Elimination.pivotRow rule s.work col) col) <;> rfl

theorem foldlM_reduce_eq {d : Dim} {cols : List (Fin 4)} (hcols : ∀ col ∈ cols, d.Active col)
    {s : Elimination α} (hs : s.Sound d) :
    (cols.map Fin.val).foldlM (reduce rule) s =
      .of (orSingular (cols.foldlM (Elimination.reduce? rule) s)) := by
  induction cols generalizing s with
  | nil => rfl
  | cons col cols ih =>
    obtain ⟨hcol, hcols⟩ := List.forall_mem_cons.1 hcols
    rw [List.map_cons, List.foldlM_cons, List.foldlM_cons, reduce_eq hs hcol]
    cases hstep : s.reduce? rule col with
    | none => rfl
    | some t => exact ih hcols (hs.reduce? hcol hstep)

end Elimination

namespace Mat

variable [Zero α] [One α] [Sub α] [Mul α] [Div α] [BEq α]

def inverse (rule : PivotRule α) (m : Mat α) : Attempt CalcError (Mat α) := do
  let s ← (below m.dim).foldlM (Elimination.reduce rule) (.start m)
  return s.inverse

/-- Inversion refuses no index. -/
theorem inverse_eq (rule : PivotRule α) (m : Mat α) :
    inverse rule m = .of (Elimination.orSingular (m.inverse? rule)) := by
  have hcols : ∀ col ∈ m.dim.indices, m.dim.Active col := fun col => (Dim.mem_indices _ col).1
  have hstart : (Elimination.start m).Sound m.dim := ⟨rfl, rfl, Mat.padded_identity m.dim⟩
  rw [inverse, below_eq, Elimination.foldlM_reduce_eq hcols hstart, Mat.inverse?]
  cases m.dim.indices.foldlM (Elimination.reduce? rule) (.start m) <;> rfl

end Mat
end MatrixCalc.Checked
