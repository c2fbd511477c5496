import MatrixCalc.Mat.Inverse
import MatrixCalc.Mat.Transform
import MatrixCalc.Proofs.Except
import MatrixCalc.Value.Basic

/-!
# Padding

Storage always has four places, whatever the size. New vectors and matrices are padded, and an
operation that writes a copy of its operand leaves the padding of the operand. Elimination swaps
whole rows, but only rows of the block, between which the padding does not differ
(`Mat.Padded.swapRows`).
-/
namespace MatrixCalc

namespace Vec

variable {α : Type} [Zero α]

theorem padded_zero (d : Dim) : (zero d : Vec α).Padded := fun i _ => get_zero d i

theorem Padded.overwrite {v : Vec α} (h : v.Padded) (f : Fin 4 → α) :
    (v.overwrite f).Padded := by
  intro i hi
  rw [dim_overwrite] at hi
  rw [get_overwrite, if_neg hi]
  exact h i hi

theorem padded_build (d : Dim) (f : Fin 4 → α) : (build d f).Padded :=
  (padded_zero d).overwrite f

theorem padded_truncate (v : Vec α) (d : Dim) : (v.truncate d).Padded := by
  intro i hi
  rw [get_truncate]
  exact if_neg hi

theorem padded_cross [Sub α] [Mul α] (v w : Vec α) : (v.cross w).Padded := by
  intro i hi
  have hlast : i = 3 := by
    have hthree : ¬ i.val < 3 := hi
    omega
  rw [hlast]
  rfl

end Vec

namespace Mat

variable {α : Type} [Zero α] [One α]

theorem padded_identity (d : Dim) : (identity d : Mat α).Padded := fun r c _ => cell_identity d r c

theorem Padded.overwrite {m : Mat α} (h : m.Padded) (f : Fin 4 → Fin 4 → α) :
    (m.overwrite f).Padded := by
  intro r c hrc
  rw [dim_overwrite] at hrc
  rw [cell_overwrite, if_neg hrc]
  exact h r c hrc

theorem padded_build (d : Dim) (f : Fin 4 → Fin 4 → α) : (build d f).Padded :=
  (padded_identity d).overwrite f

/-- A matrix of size four has no padding. -/
theorem padded_of_four {m : Mat α} (h : m.dim = .four) : m.Padded := by
  intro r c hrc
  rw [h] at hrc
  exact absurd ⟨r.isLt, c.isLt⟩ hrc

/-- In the rows of the block all padding is zero. -/
theorem Padded.cell_beside {m : Mat α} (h : m.Padded) {r c : Fin 4} (hr : m.dim.Active r)
    (hc : ¬ m.dim.Active c) : m.cell r c = 0 := by
  rw [h r c fun hin => hc hin.2, unit, if_neg]
  rintro rfl
  exact hc hr

theorem Padded.swapRows {m : Mat α} (h : m.Padded) {i j : Fin 4} (hi : m.dim.Active i)
    (hj : m.dim.Active j) : (m.swapRows i j).Padded := by
  intro r c hrc
  rw [Mat.swapRows, cell_ofCells]
  -- Rows of the block have the same padding, and the rows below stay in their places.
  by_cases hr : m.dim.Active r
  · have hc : ¬ m.dim.Active c := fun hc => hrc ⟨hr, hc⟩
    have hswapped : m.dim.Active (if r = i then j else if r = j then i else r) := by
      split
      · exact hj
      · split
        · exact hi
        · exact hr
    rw [h.cell_beside hswapped hc, ← h.cell_beside hr hc]
    exact h r c hrc
  · have hri : r ≠ i := by
      rintro rfl
      exact hr hi
    have hrj : r ≠ j := by
      rintro rfl
      exact hr hj
    rw [if_neg hri, if_neg hrj]
    exact h r c hrc

end Mat

namespace Elimination

variable {α : Type}

/-- What holds of all candidates holds of the one that is chosen. -/
theorem foldl_choice (better : Fin 4 → Fin 4 → Bool) {P : Fin 4 → Prop} {rows : List (Fin 4)}
    (hrows : ∀ r ∈ rows, P r) {best : Fin 4} (hbest : P best) :
    P (rows.foldl (fun best r => if better best r then r else best) best) := by
  induction rows generalizing best with
  | nil => exact hbest
  | cons r rows ih =>
    obtain ⟨hr, hrows⟩ := List.forall_mem_cons.1 hrows
    rw [List.foldl_cons]
    apply ih hrows
    split
    · exact hr
    · exact hbest

/-- The pivot is sought among the rows of the block. -/
theorem active_pivotRow (rule : PivotRule α) (m : Mat α) {col : Fin 4} (h : m.dim.Active col) :
    m.dim.Active (pivotRow rule m col) := by
  apply foldl_choice _ _ h
  intro r hr
  obtain ⟨hmem, -⟩ := List.mem_filter.1 hr
  exact (Dim.mem_indices m.dim r).1 hmem

theorem le_pivotRow (rule : PivotRule α) (m : Mat α) (col : Fin 4) :
    col ≤ pivotRow rule m col := by
  apply foldl_choice _ _ (Fin.le_refl col)
  intro r hr
  exact of_decide_eq_true (List.mem_filter.1 hr).2

variable [Zero α] [One α] [Sub α] [Mul α] [Div α] [BEq α] {rule : PivotRule α}

/-- Both matrices have the size of the start, and the one being built is padded. -/
structure Sound (d : Dim) (s : Elimination α) : Prop where
  dim_work : s.work.dim = d
  dim_inverse : s.inverse.dim = d
  padded : s.inverse.Padded

theorem Sound.reduce? {d : Dim} {s t : Elimination α} {col : Fin 4} (hs : s.Sound d)
    (hcol : d.Active col) (h : s.reduce? rule col = some t) : t.Sound d := by
  obtain ⟨hwork, hinverse, hpadded⟩ := hs
  have hpivot : d.Active (pivotRow rule s.work col) := by
    rw [← hwork] at hcol ⊢
    exact active_pivotRow rule s.work hcol
  unfold Elimination.reduce? at h
  dsimp only at h
  split at h
  · cases h
  · cases h
    rw [← hinverse] at hcol hpivot
    -- Of the three row operations only the swap reaches beyond the block.
    exact ⟨hwork, hinverse, ((hpadded.swapRows hcol hpivot).overwrite _).overwrite _⟩

theorem Sound.foldlM_reduce? {d : Dim} {cols : List (Fin 4)} (hcols : ∀ col ∈ cols, d.Active col)
    {s t : Elimination α} (hs : s.Sound d)
    (h : cols.foldlM (Elimination.reduce? rule) s = some t) : t.Sound d := by
  induction cols generalizing s with
  | nil =>
    cases h
    exact hs
  | cons col cols ih =>
    obtain ⟨hcol, hcols⟩ := List.forall_mem_cons.1 hcols
    rw [List.foldlM_cons] at h
    obtain ⟨u, hu, ht⟩ := Option.bind_eq_some_iff.1 h
    exact ih hcols (hs.reduce? hcol hu) ht

end Elimination

namespace Mat

section Inverse

variable {α : Type} [Zero α] [One α] [Sub α] [Mul α] [Div α] [BEq α] {rule : PivotRule α}
  {m n : Mat α}

theorem exists_sound_of_inverse? (h : m.inverse? rule = some n) :
    ∃ s : Elimination α, s.Sound m.dim ∧ s.inverse = n := by
  obtain ⟨s, hs, hn⟩ := Option.map_eq_some_iff.1 h
  have hstart : (Elimination.start m).Sound m.dim := ⟨rfl, rfl, padded_identity m.dim⟩
  have hcols : ∀ col ∈ m.dim.indices, m.dim.Active col := fun col => (Dim.mem_indices _ col).1
  exact ⟨s, hstart.foldlM_reduce? hcols hs, hn⟩

theorem dim_of_inverse? (h : m.inverse? rule = some n) : n.dim = m.dim := by
  obtain ⟨s, hs, rfl⟩ := exists_sound_of_inverse? h
  exact hs.dim_inverse

theorem padded_of_inverse? (h : m.inverse? rule = some n) : n.Padded := by
  obtain ⟨s, hs, rfl⟩ := exists_sound_of_inverse? h
  exact hs.padded

end Inverse

theorem perspective_padded (fovy aspect near far : Float) :
    Ensures Padded (fun _ => True) (perspective fovy aspect near far) := by
  unfold perspective
  dsimp only
  split
  · trivial
  · exact padded_of_four rfl

theorem ortho_padded (left right bottom top : Float) :
    Ensures Padded (fun _ => True) (ortho left right bottom top) := by
  unfold ortho
  split
  · trivial
  · exact padded_of_four rfl

theorem rotation_padded (angle : Float) (axis : Vec Float) :
    Ensures Padded (fun _ => True) (rotation angle axis) := by
  unfold rotation
  dsimp only
  split
  · trivial
  · exact padded_of_four rfl

theorem Padded.rotate {m : Mat Float} (h : m.Padded) (angle : Float) (axis : Vec Float) :
    Ensures Padded (fun _ => True) (m.rotate angle axis) :=
  (rotation_padded angle axis).map fun _ _ => h.overwrite _

theorem ofRows_padded (rows : List (List Float)) :
    Ensures Padded (fun _ => True) (ofRows rows) := by
  refine (Ensures.anything (Dim.supported rows.length)).bind ?_
  intro d _
  split
  · trivial
  · exact padded_build d _

/-- The matrices that constructors and operations give, one after the other. -/
inductive Built : Mat Float → Prop
  | ofRows {rows : List (List Float)} {m : Mat Float} (h : Mat.ofRows rows = .ok m) : Built m
  | identity (d : Dim) : Built (.identity d)
  | diagonal (d : Dim) (x : Float) : Built (.diagonal d x)
  | resize {m : Mat Float} (hm : Built m) (d : Dim) : Built (m.resize d)
  | map (f : Float → Float) {m : Mat Float} (hm : Built m) : Built (m.map f)
  | zipWith (f : Float → Float → Float) {a b : Mat Float} (ha : Built a) (hb : Built b) :
      Built (a.zipWith f b)
  | product {a b : Mat Float} (ha : Built a) (hb : Built b) : Built (a.product b)
  | transpose {m : Mat Float} (hm : Built m) : Built m.transpose
  | inverse {m n : Mat Float} (hm : Built m) (h : m.inverse? floatPivots = some n) : Built n
  | translation (x y z : Float) : Built (.translation x y z)
  | scaling (x y z : Float) : Built (.scaling x y z)
  | rotation {angle : Float} {axis : Vec Float} {m : Mat Float}
      (h : Mat.rotation angle axis = .ok m) : Built m
  | perspective {fovy aspect near far : Float} {m : Mat Float}
      (h : Mat.perspective fovy aspect near far = .ok m) : Built m
  | ortho {left right bottom top : Float} {m : Mat Float}
      (h : Mat.ortho left right bottom top = .ok m) : Built m

theorem Built.padded {m : Mat Float} (h : m.Built) : m.Padded := by
  induction h with
  | @ofRows rows m h => exact (ofRows_padded rows).of_ok h
  | identity d => exact padded_identity d
  | diagonal d x => exact padded_build d _
  | resize _ d _ => exact padded_build d _
  | map f _ ih => exact ih.overwrite _
  | zipWith f _ _ iha _ => exact iha.overwrite _
  | product _ _ iha _ => exact iha.overwrite _
  | transpose _ ih => exact ih.overwrite _
  | inverse _ h _ => exact padded_of_inverse? h
  | translation x y z => exact padded_of_four rfl
  | scaling x y z => exact padded_of_four rfl
  | @rotation angle axis m h => exact (rotation_padded ..).of_ok h
  | @perspective fovy aspect near far m h => exact (perspective_padded ..).of_ok h
  | @ortho left right bottom top m h => exact (ortho_padded ..).of_ok h

end Mat

namespace Vec

theorem ofComponents_padded (xs : List Float) :
    Ensures Padded (fun _ => True) (ofComponents xs) :=
  (Ensures.anything (Dim.supported xs.length)).bind fun d _ => padded_build d _

/-- The vectors that constructors and operations give, one after the other. -/
inductive Built : Vec Float → Prop
  | ofComponents {xs : List Float} {v : Vec Float} (h : Vec.ofComponents xs = .ok v) : Built v
  | zero (d : Dim) : Built (.zero d)
  | resize {v : Vec Float} (hv : Built v) (d : Dim) : Built (v.resize d)
  | map (f : Float → Float) {v : Vec Float} (hv : Built v) : Built (v.map f)
  | zipWith (f : Float → Float → Float) {v w : Vec Float} (hv : Built v) (hw : Built w) :
      Built (v.zipWith f w)
  | apply {m : Mat Float} {v : Vec Float} (hm : m.Built) (hv : Built v) : Built (m.apply v)

theorem Built.padded {v : Vec Float} (h : v.Built) : v.Padded := by
  induction h with
  | @ofComponents xs v h => exact (ofComponents_padded xs).of_ok h
  | zero d => exact padded_zero d
  | resize _ d _ => exact padded_build d _
  | map f _ ih => exact ih.overwrite _
  | zipWith f _ _ ihv _ => exact ihv.overwrite _
  | @apply m _ _ _ _ => exact padded_truncate _ m.dim

end Vec

namespace Value

theorem Padded.map {v : Value} (h : v.Padded) (f : Float → Float) : (v.map f).Padded := by
  cases v with
  | scalar x => trivial
  | vector v => exact Vec.Padded.overwrite h _
  | matrix m => exact Mat.Padded.overwrite h _

end Value
end MatrixCalc
