import Mathlib.LinearAlgebra.Matrix.NonsingularInverse
import MatrixCalc.Eval.Spatial
import MatrixCalc.Proofs.Mat.RowOperations

/-!
# Inversion over a field

The elimination keeps one equation: the matrix being built times the matrix at the start is the
matrix being reduced (`Elimination.Reaches`). A finished column is one of the identity and stays
so, because the pivot of a later column is sought below it. At the end the equation says that the
result is an inverse from the left, and so from both sides. With exact cells and the bound `1e-12`
for pivots, failing means that all candidates of some column were below that bound.
-/
namespace MatrixCalc

theorem Dim.indices_pairwise (d : Dim) : d.indices.Pairwise (· < ·) := by cases d <;> decide

namespace Elimination

variable {K : Type} [Field K] {rule : PivotRule K} {m : Mat K} {s t : Elimination K}

/-- What the elimination of `m` has reached once the columns `done` are finished: the row
operations so far have turned `m` into the working matrix, and the finished columns are those of
the identity. -/
structure Reaches (m : Mat K) (done : List (Fin 4)) (s : Elimination K) : Prop where
  dim_work : s.work.dim = m.dim
  dim_inverse : s.inverse.dim = m.dim
  accounts : s.inverse.block m.dim * m.block m.dim = s.work.block m.dim
  finished : ∀ c ∈ done, s.work.UnitColumn c

theorem reaches_start (m : Mat K) : Reaches m [] (start m) where
  dim_work := rfl
  dim_inverse := rfl
  accounts := by rw [start, Mat.block_identity, Matrix.one_mul]
  finished := List.forall_mem_nil _

/-- Once all columns are finished the two matrices of the block are inverse to each other. -/
theorem Reaches.block_mul_block (hs : Reaches m m.dim.indices s) :
    s.inverse.block m.dim * m.block m.dim = 1 := by
  rw [hs.accounts]
  ext r c
  have hc : (c : Fin 4) ∈ m.dim.indices := (m.dim.mem_indices c).2 c.2
  have hr : s.work.dim.Active r := by
    rw [hs.dim_work]
    exact r.2
  rw [Mat.block, hs.finished c hc r hr, Mat.unit, Matrix.one_apply]
  simp only [Subtype.ext_iff]

variable [BEq K] [LawfulBEq K] {done rest cols : List (Fin 4)} {col : Fin 4}

theorem Reaches.step (hs : Reaches m done s) (hrule : rule.negligible 0 = true)
    (hsplit : m.dim.indices = done ++ col :: rest) (h : s.reduce? rule col = some t) :
    Reaches m (done ++ [col]) t := by
  obtain ⟨hwork, hinverse, haccounts, hfinished⟩ := hs
  have hactive : ∀ c ∈ done ++ col :: rest, s.work.dim.Active c := by
    rw [hwork, ← hsplit]
    exact fun c => (m.dim.mem_indices c).1
  have hcol := hactive col (List.mem_append_right _ (List.mem_cons_self ..))
  have hpivot := active_pivotRow rule s.work hcol
  have hbefore : ∀ c ∈ done, c < col := by
    have hsorted := m.dim.indices_pairwise
    rw [hsplit] at hsorted
    exact fun c hc => (List.pairwise_append.1 hsorted).2.2 c hc col (List.mem_cons_self ..)
  unfold Elimination.reduce? at h
  dsimp only at h
  split at h
  · cases h
  · next hkept =>
    have hne : s.work.cell (pivotRow rule s.work col) col ≠ 0 := by
      intro hzero
      rw [hzero] at hkept
      exact hkept hrule
    cases h
    refine ⟨hwork, hinverse, ?_, ?_⟩
    · -- One matrix from the left does this column on both sides of the equation.
      rw [hwork] at hcol hpivot
      obtain ⟨E, hE⟩ := Mat.rowOperation_column (K := K) ⟨col, hcol⟩ ⟨_, hpivot⟩ _ _
      refine (congrArg (· * _) (hE s.inverse hinverse).2).trans ?_
      rw [Matrix.mul_assoc, haccounts]
      exact (hE s.work hwork).2.symm
    · intro c hc
      rcases List.mem_append.1 hc with hc | hc
      · have hlt := hbefore c hc
        have hbelow := Fin.lt_of_lt_of_le hlt (le_pivotRow rule s.work col)
        exact (hfinished c hc).column (hactive c (List.mem_append_left _ hc)) hcol hpivot
          (Fin.ne_of_gt hlt) (Fin.ne_of_gt hbelow) _ _
      · obtain rfl := List.mem_singleton.1 hc
        exact Mat.unitColumn_of_pivot hcol hne

theorem Reaches.run (hs : Reaches m done s) (hrule : rule.negligible 0 = true)
    (hsplit : m.dim.indices = done ++ (cols ++ rest))
    (h : cols.foldlM (Elimination.reduce? rule) s = some t) : Reaches m (done ++ cols) t := by
  induction cols generalizing done s with
  | nil =>
    cases h
    rw [List.append_nil]
    exact hs
  | cons col cols ih =>
    rw [List.foldlM_cons] at h
    obtain ⟨u, hu, ht⟩ := Option.bind_eq_some_iff.1 h
    rw [List.append_cons]
    apply ih (hs.step hrule hsplit hu) _ ht
    rw [hsplit, List.append_assoc]
    rfl

end Elimination

namespace Mat

section Field

variable {K : Type} [Field K] [BEq K] [LawfulBEq K] {rule : PivotRule K} {m n : Mat K}

theorem block_mul_block_of_inverse? (hrule : rule.negligible 0 = true)
    (h : m.inverse? rule = some n) : n.block m.dim * m.block m.dim = 1 := by
  obtain ⟨s, hs, rfl⟩ := Option.map_eq_some_iff.1 h
  have hall : m.dim.indices = [] ++ (m.dim.indices ++ []) := (List.append_nil _).symm
  exact ((Elimination.reaches_start m).run hrule hall hs).block_mul_block

theorem inverse?_product (hrule : rule.negligible 0 = true) (h : m.inverse? rule = some n) :
    n.product m = identity m.dim := by
  have hdim := dim_of_inverse? h
  refine Padded.ext_block ((padded_of_inverse? h).overwrite _) (padded_identity m.dim) hdim ?_
  have hsize : (n.product m).dim = m.dim := hdim
  rw [hsize, block_product hdim, block_identity, block_mul_block_of_inverse? hrule h]

/-- On the block an inverse from the left is one from the right; around it stands the padding. -/
theorem product_inverse? (hm : m.Padded) (hrule : rule.negligible 0 = true)
    (h : m.inverse? rule = some n) : m.product n = identity m.dim := by
  refine Padded.ext_block (hm.overwrite _) (padded_identity m.dim) rfl ?_
  have hsize : (m.product n).dim = m.dim := rfl
  rw [hsize, block_product rfl, block_identity]
  exact mul_eq_one_comm.1 (block_mul_block_of_inverse? hrule h)

end Field

/-- The inverse transpose, or nothing where there is no inverse. -/
def inverseTranspose? {α : Type} [Zero α] [One α] [Sub α] [Mul α] [Div α] [BEq α]
    (rule : PivotRule α) (m : Mat α) : Option (Mat α) :=
  (m.inverse? rule).map transpose

/-- Magnitudes of exact numbers; below `1e-12` a pivot counts as zero. -/
def rationalPivots : PivotRule ℚ where
  noLarger x y := |x| ≤ |y|
  negligible x := |x| < 1e-12

theorem negligible_zero : rationalPivots.negligible 0 = true := by
  refine decide_eq_true ?_
  norm_num

end Mat

namespace Elimination

/-- A fold that moves on to what is no smaller ends at what is largest. -/
theorem le_foldl_largest (size : Fin 4 → ℚ) (rows : List (Fin 4)) (best : Fin 4) :
    size best ≤ size (rows.foldl (fun best r => if size best ≤ size r then r else best) best) ∧
    ∀ r ∈ rows,
      size r ≤ size (rows.foldl (fun best r => if size best ≤ size r then r else best) best) := by
  induction rows generalizing best with
  | nil => exact ⟨le_rfl, List.forall_mem_nil _⟩
  | cons r rows ih =>
    rw [List.foldl_cons]
    split
    · next hle =>
      obtain ⟨hbest, hrows⟩ := ih r
      exact ⟨hle.trans hbest, List.forall_mem_cons.2 ⟨hbest, hrows⟩⟩
    · next hlt =>
      obtain ⟨hbest, hrows⟩ := ih best
      exact ⟨hbest, List.forall_mem_cons.2 ⟨(le_of_not_ge hlt).trans hbest, hrows⟩⟩

theorem abs_le_pivotRow (m : Mat ℚ) {col r : Fin 4} (hr : r ∈ candidates m.dim col) :
    |m.cell r col| ≤ |m.cell (pivotRow Mat.rationalPivots m col) col| := by
  have h := (le_foldl_largest (fun r => |m.cell r col|) (candidates m.dim col) col).2 r hr
  simpa [pivotRow, Mat.rationalPivots] using h

theorem negligible_of_reduce? {s : Elimination ℚ} {col : Fin 4}
    (h : s.reduce? Mat.rationalPivots col = none) :
    ∀ r ∈ candidates s.work.dim col, |s.work.cell r col| < 1e-12 := by
  intro r hr
  unfold Elimination.reduce? at h
  dsimp only at h
  split at h
  · next hsmall => exact (abs_le_pivotRow s.work hr).trans_lt (of_decide_eq_true hsmall)
  · cases h

end Elimination

theorem invTranspose_eq (m : Mat Float) :
    Builtin.invTranspose [.matrix m] =
      match m.inverseTranspose? Mat.floatPivots with
      | some c => .ok (.matrix c)
      | none => .error .singularMatrix := by
  have hbuiltin : Builtin.invTranspose [.matrix m] =
      match m.inverse? Mat.floatPivots with
      | some n => .ok (.matrix n.transpose)
      | none => .error .singularMatrix := rfl
  rw [hbuiltin, Mat.inverseTranspose?]
  cases m.inverse? Mat.floatPivots <;> rfl

/-- The inverse of an exact matrix is an inverse from both sides, and it is found wherever there is
one but for pivots that are all smaller than `1e-12`. -/
theorem inversion_correct (a : Mat ℚ) (ha : a.Padded) :
    (∀ b, a.inverse? Mat.rationalPivots = some b → b.dim = a.dim ∧
      a.product b = .identity a.dim ∧ b.product a = .identity a.dim) ∧
    ((¬ ∃ b, b.dim = a.dim ∧ a.product b = .identity a.dim ∧ b.product a = .identity a.dim) →
      a.inverse? Mat.rationalPivots = none) ∧
    (a.inverse? Mat.rationalPivots = none → ∃ pre col post s,
      a.dim.indices = pre ++ col :: post ∧
      pre.foldlM (Elimination.reduce? Mat.rationalPivots) (.start a) = some s ∧
      ∀ r ∈ Elimination.candidates a.dim col, |s.work.cell r col| < 1e-12) ∧
    (∀ c, a.inverseTranspose? Mat.rationalPivots = some c →
      c.transpose.product a = .identity a.dim) ∧
    ∀ m : Mat Float, Builtin.invTranspose [.matrix m] =
      match m.inverseTranspose? Mat.floatPivots with
      | some c => .ok (.matrix c)
      | none => .error .singularMatrix := by
  have hzero := Mat.negligible_zero
  have hleft := fun b => Mat.inverse?_product (m := a) (n := b) hzero
  have hright := fun b => Mat.product_inverse? (n := b) ha hzero
  refine ⟨fun b h => ⟨Mat.dim_of_inverse? h, hright b h, hleft b h⟩, ?_, ?_, ?_, ?_⟩
  · intro hnone
    rw [Option.eq_none_iff_forall_ne_some]
    exact fun b h => hnone ⟨b, Mat.dim_of_inverse? h, hright b h, hleft b h⟩
  · intro h
    obtain ⟨pre, col, post, s, hsplit, hpre, hfails⟩ :=
      exists_of_foldlM_eq_none (Option.map_eq_none_iff.1 h)
    refine ⟨pre, col, post, s, hsplit, hpre, ?_⟩
    have hs := (Elimination.reaches_start a).run hzero hsplit hpre
    rw [← hs.dim_work]
    exact Elimination.negligible_of_reduce? hfails
  · intro c h
    obtain ⟨b, hb, rfl⟩ := Option.map_eq_some_iff.1 h
    rw [Mat.transpose_transpose]
    exact hleft b hb
  · exact invTranspose_eq

/-- A matrix of size two with a zero in the place of the first pivot. -/
def Mat.crossed : Mat ℚ := .build .two fun r c => if r = c then 0 else if r < c then 2 else 4

def Mat.crossedInverse : Mat ℚ :=
  .build .two fun r c => if r = c then 0 else if r < c then 1 / 4 else 1 / 2

theorem not_exists_inverse_zero :
    ¬ ∃ b : Mat ℚ, b.dim = .two ∧ (Mat.diagonal .two 0).product b = .identity .two ∧
      b.product (.diagonal .two 0) = .identity .two := by
  rintro ⟨b, -, h, -⟩
  have hcell : ((Mat.diagonal .two 0).product b).cell 0 0 = 1 := by
    rw [h]
    rfl
  rw [Mat.product, Mat.cell_overwrite, if_pos (by decide)] at hcell
  have hsum : (0 : ℚ) * b.cell 0 0 + 0 * b.cell 1 0 = 1 := hcell
  norm_num at hsum

/-- The pivot is found in the second row. The matrix of zeros has no inverse, and none is found. -/
theorem inversion_correct_of_crossed :
    Mat.crossed.Padded ∧ Mat.crossed.inverse? Mat.rationalPivots = some .crossedInverse ∧
      Mat.crossed.product .crossedInverse = .identity .two ∧
      Mat.crossedInverse.product .crossed = .identity .two ∧
      Mat.crossedInverse.transpose.transpose.product .crossed = .identity .two ∧
      (Mat.diagonal .two (0 : ℚ)).inverse? Mat.rationalPivots = none ∧
      ∃ pre col post s, Dim.two.indices = pre ++ col :: post ∧
        pre.foldlM (Elimination.reduce? Mat.rationalPivots) (.start (.diagonal .two 0)) = some s ∧
        ∀ r ∈ Elimination.candidates .two col, |s.work.cell r col| < 1e-12 := by
  have hcrossed : Mat.crossed.Padded := Mat.padded_build .two _
  have hinverse : Mat.crossed.inverse? Mat.rationalPivots = some .crossedInverse := by
    decide +kernel
  obtain ⟨hfound, -, -, htransposed, -⟩ := inversion_correct .crossed hcrossed
  obtain ⟨-, hnone, hpivots, -, -⟩ := inversion_correct (.diagonal .two 0) (Mat.padded_build .two _)
  obtain ⟨-, hright, hleft⟩ := hfound _ hinverse
  have hsingular := hnone not_exists_inverse_zero
  refine ⟨hcrossed, hinverse, hright, hleft, htransposed _ ?_, hsingular, hpivots hsingular⟩
  rw [Mat.inverseTranspose?, hinverse]
  rfl

end MatrixCalc
