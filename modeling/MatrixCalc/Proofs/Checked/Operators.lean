import MatrixCalc.Eval.Arithmetic
import MatrixCalc.Proofs.Checked.Inverse

/-!
# Operators with refusals

Values are taken apart and put together by the indices of their components and cells.
-/
namespace MatrixCalc.Checked

/-- Values that are read at the places below a size. -/
theorem mapM_val {α : Type} {f : Nat → Option α} {g : Fin 4 → α}
    (h : ∀ i : Fin 4, f i.val = some (g i)) (places : List (Fin 4)) :
    (places.map Fin.val).mapM f = some (places.map g) := by
  induction places with
  | nil => rfl
  | cons i places ih =>
    rw [List.map_cons, List.mapM_cons, h, ih]
    rfl

namespace Value

def map (f : Float → Float) : Value → Option Value
  | .scalar x => some (.scalar (f x))
  | .vector v => do return .vector (← Vec.map f v)
  | .matrix m => do return .matrix (← Mat.map f m)

def cells : Value → Option (List Float)
  | .scalar x => some [x]
  | .vector v => (below v.dim).mapM (Vec.get v)
  | .matrix m => do
    let rows ← (below m.dim).mapM fun r => (below m.dim).mapM (Mat.cell m r)
    return rows.flatten

theorem map_eq (f : Float → Float) (v : Value) : map f v = some (v.map f) := by
  cases v with
  | scalar x => rfl
  | vector v =>
    rw [map, Vec.map_eq]
    rfl
  | matrix m =>
    rw [map, Mat.map_eq]
    rfl

theorem cells_eq (v : Value) : cells v = some v.cells := by
  cases v with
  | scalar x => rfl
  | vector v =>
    rw [cells, below_eq]
    exact mapM_val (Vec.get_val v) _
  | matrix m =>
    have hrow : ∀ r : Fin 4, (m.dim.indices.map Fin.val).mapM (Mat.cell m r.val) =
        some (m.dim.indices.map (m.cell r)) := fun r => mapM_val (Mat.cell_val m r) _
    rw [cells, below_eq, mapM_val hrow]
    rfl

end Value

namespace Operator

/-- Whether a quotient would divide by zero in some place. -/
def zeroDivisor (op : Operator) (right : Value) : Option Bool :=
  if op = .div then (Value.cells right).map (·.any (· == 0)) else some false

def broadcast (op : Operator) (left right : Value) : Attempt CalcError Value := do
  if !op.broadcasts then throw (.unsupportedOperator op left.shape right.shape)
  else if ← zeroDivisor op right then throw .divisionByZero
  else
    match left, right with
    | .scalar x, v => liftM (Value.map (fun y => op.number x y) v)
    | v, .scalar y => liftM (Value.map (fun x => op.number x y) v)
    | _, _ => throw (.unsupportedOperator op left.shape right.shape)

def vectors (op : Operator) (v w : Vec Float) : Attempt CalcError Value := do
  if op.level ≠ .sum then throw (.unsupportedOperator op (.vec v.dim) (.vec w.dim))
  else if v.dim ≠ w.dim then throw (.unequalSizes op (.vec v.dim) (.vec w.dim))
  else return .vector (← Vec.zipWith op.number v w)

def matrices (op : Operator) (left right : Value) : Attempt CalcError Value := do
  if op ≠ .mul then throw (.unsupportedOperator op left.shape right.shape)
  else if left.shape.size ≠ right.shape.size then
    throw (.unequalSizes op left.shape right.shape)
  else
    match left, right with
    | .matrix a, .matrix b => return .matrix (← Mat.product a b)
    | .matrix m, .vector v => return .vector (← Mat.apply m v)
    | _, _ => throw (.unsupportedOperator op left.shape right.shape)

def values (op : Operator) (left right : Value) : Attempt CalcError Value :=
  match left, right with
  | .scalar x, .scalar y => liftM ((op.scalars x y).map MatrixCalc.Value.scalar)
  | .scalar _, _ | _, .scalar _ => broadcast op left right
  | .vector v, .vector w => vectors op v w
  | .matrix _, _ => matrices op left right
  | .vector _, .matrix _ => throw (.unsupportedOperator op left.shape right.shape)

theorem zeroDivisor_eq (op : Operator) (right : Value) :
    zeroDivisor op right = some (decide (op = .div ∧ right.cells.any (· == 0))) := by
  rw [zeroDivisor, Value.cells_eq]
  by_cases hop : op = .div
  · simp only [hop, if_true, true_and, Option.map_some, Bool.decide_eq_true]
  · simp only [hop, if_false, false_and, decide_false]

theorem broadcast_eq (op : Operator) (left right : Value) :
    broadcast op left right = .of (op.broadcast left right) := by
  unfold broadcast MatrixCalc.Operator.broadcast
  rw [zeroDivisor_eq]
  by_cases hop : (!op.broadcasts) = true
  · rw [if_pos hop, if_pos hop]
    rfl
  · rw [if_neg hop, if_neg hop, Attempt.some_bind]
    by_cases hzero : op = .div ∧ right.cells.any (· == 0)
    · rw [if_pos (decide_eq_true hzero), if_pos hzero]
      rfl
    · rw [if_neg (by simpa using hzero), if_neg hzero]
      simp only [Value.map_eq]
      cases left <;> cases right <;> rfl

theorem vectors_eq (op : Operator) (v w : Vec Float) :
    vectors op v w = .of (op.vectors v w) := by
  unfold vectors MatrixCalc.Operator.vectors
  rw [Vec.zipWith_eq]
  by_cases hlevel : op.level ≠ .sum
  · rw [if_pos hlevel, if_pos hlevel]
    rfl
  · rw [if_neg hlevel, if_neg hlevel]
    by_cases hdim : v.dim ≠ w.dim
    · rw [if_pos hdim, if_pos hdim]
      rfl
    · rw [if_neg hdim, if_neg hdim]
      rfl

theorem matrices_eq (op : Operator) (left right : Value) :
    matrices op left right = .of (op.matrices left right) := by
  unfold matrices MatrixCalc.Operator.matrices
  simp only [Mat.product_eq, Mat.apply_eq]
  by_cases hop : op ≠ .mul
  · rw [if_pos hop, if_pos hop]
    rfl
  · rw [if_neg hop, if_neg hop]
    by_cases hsize : left.shape.size ≠ right.shape.size
    · rw [if_pos hsize, if_pos hsize]
      rfl
    · rw [if_neg hsize, if_neg hsize]
      cases left <;> cases right <;> rfl

theorem values_eq (op : Operator) (left right : Value) :
    values op left right = .of (op.values left right) := by
  cases left with
  | scalar x =>
    cases right with
    | scalar y => rfl
    | vector w => exact broadcast_eq op _ _
    | matrix n => exact broadcast_eq op _ _
  | vector v =>
    cases right with
    | scalar y => exact broadcast_eq op _ _
    | vector w => exact vectors_eq op v w
    | matrix n => rfl
  | matrix m =>
    cases right with
    | scalar y => exact broadcast_eq op _ _
    | vector w => exact matrices_eq op _ _
    | matrix n => exact matrices_eq op _ _

end Operator

end MatrixCalc.Checked
