import MatrixCalc.Eval.Construction
import MatrixCalc.Eval.Geometry
import MatrixCalc.Eval.Pointwise
import MatrixCalc.Eval.Spatial
import MatrixCalc.Proofs.Checked.Operators
import MatrixCalc.Proofs.Eval.FunctionShapes

/-!
# Functions with refusals

A function reads its arguments by their places in the list, and a place that the list does not have
is refused. The functions look at the number of their arguments first, so none is.
-/
namespace MatrixCalc.Checked

section Arguments

def arg (args : List Value) (i : Nat) : Option Value := args[i]?

/-- The argument at an index as what a function takes it for. -/
def readArg {α : Type} (read : Nat → Value → Except CalcError α) (args : List Value) (i : Nat) :
    Attempt CalcError α := do
  read (i + 1) (← arg args i)

theorem arg_zero (v : Value) (args : List Value) : arg (v :: args) 0 = some v := rfl

theorem arg_one (v w : Value) (args : List Value) : arg (v :: w :: args) 1 = some w := rfl

theorem readArg_eq {α : Type} {read : Nat → Value → Except CalcError α} {args : List Value}
    {i : Nat} {v : Value} (h : arg args i = some v) :
    readArg read args i = .of (read (i + 1) v) := by
  rw [readArg, h]
  rfl

theorem readArg_bind {α β : Type} {read : Nat → Value → Except CalcError α} {args : List Value}
    {i : Nat} {v : Value} {f : α → Attempt CalcError β} {g : α → Except CalcError β}
    (h : arg args i = some v) (hf : ∀ a, f a = .of (g a)) :
    readArg read args i >>= f = .of (read (i + 1) v >>= g) := by
  rw [readArg_eq h]
  exact Attempt.bind_eq fun a _ => hf a

/-- Behind the check of their number, the arguments are as many as expected. -/
theorem checkCount_bind {α : Type} {n : Nat} {args : List Value} (h : args.length = n)
    (k : Attempt CalcError α) :
    (do checkCount n args.length; k) = k := by
  rw [checkCount, if_pos h]
  rfl

end Arguments

namespace Builtin

def pointwise (f : Pointwise) (args : List Value) : Attempt CalcError Value := do
  checkCount 1 args.length
  Value.map f.real (← arg args 0)

def negate (args : List Value) : Attempt CalcError Value := do
  checkCount 1 args.length
  Value.map (fun x => -x) (← arg args 0)

def factorial (args : List Value) : Attempt CalcError Value := do
  checkCount 1 args.length
  MatrixCalc.Builtin.factorial [← arg args 0]

def vector (f : Function) (args : List Value) : Attempt CalcError Value :=
  match f.vectorDim? with
  | none => throw (.unknownFunction f)
  | some d => do
    checkCount d.toNat args.length
    let xs ← (below d).mapM (readArg f.scalarArg args)
    return .vector (← Vec.ofList d xs)

def matrix (f : Function) (args : List Value) : Attempt CalcError Value :=
  match f.matrixDim? with
  | none => throw (.unknownFunction f)
  | some d =>
    match args with
    | [] => return .matrix (.identity d)
    | [.scalar x] => return .matrix (← Mat.diagonal d x)
    | [.matrix m] => return .matrix (← Mat.resize m d)
    | _ => liftM (MatrixCalc.Builtin.matrix f args)

def length (args : List Value) : Attempt CalcError Value := do
  checkCount 1 args.length
  match ← arg args 0 with
  | .scalar x => return .scalar x
  | .vector v => return .scalar (← Vec.length v)
  | .matrix _ => throw .lengthOfMatrix

def normalize (args : List Value) : Attempt CalcError Value := do
  checkCount 1 args.length
  let v ← (← arg args 0).asVector "argument of normalize"
  let length ← Vec.length v
  if length == 0 then throw .divisionByZero
  else return .vector (← Vec.map (fun x => x / length) v)

def dot (args : List Value) : Attempt CalcError Value := do
  checkCount 2 args.length
  let v ← readArg Function.dot.anyVectorArg args 0
  let w ← readArg (Function.dot.vectorArg · v.dim) args 1
  let x : Float ← liftM (Vec.dot v w)
  return .scalar x

def cross (args : List Value) : Attempt CalcError Value := do
  checkCount 2 args.length
  let v ← readArg (Function.cross.vectorArg · .three) args 0
  let w ← readArg (Function.cross.vectorArg · .three) args 1
  return .vector (← Vec.cross v w)

open MatrixCalc.Builtin (between)

def mix (args : List Value) : Attempt CalcError Value := do
  checkCount 3 args.length
  let a ← readArg Function.mix.scalarArg args 2
  let left ← arg args 0
  let right ← arg args 1
  match left, right with
  | .scalar x, .scalar y => return .scalar (between a x y)
  | .vector v, .vector w =>
    if v.dim = w.dim then return .vector (← Vec.zipWith (between a) v w)
    else throw (.unlikeShapes left.shape right.shape)
  | .matrix m, .matrix n =>
    if m.dim = n.dim then return .matrix (← Mat.zipWith (between a) m n)
    else throw (.unlikeShapes left.shape right.shape)
  | _, _ => throw (.unlikeShapes left.shape right.shape)

def scale (args : List Value) : Attempt CalcError Value := do
  checkCount 2 args.length
  let m ← readArg (Function.scale.matrixArg · .four) args 0
  let v ← readArg (Function.scale.vectorArg · .three) args 1
  return .matrix (← Mat.product m (← Mat.scaling v))

def translate (args : List Value) : Attempt CalcError Value := do
  checkCount 2 args.length
  let m ← readArg (Function.translate.matrixArg · .four) args 0
  let v ← readArg (Function.translate.vectorArg · .three) args 1
  return .matrix (← Mat.product m (← Mat.translation v))

def rotation (angle : Float) (axis : Vec Float) : Attempt CalcError (Mat Float) := do
  let x : Float ← liftM (Vec.get axis 0)
  let y : Float ← liftM (Vec.get axis 1)
  let z : Float ← liftM (Vec.get axis 2)
  let length := (x * x + y * y + z * z).sqrt
  if length == 0 then throw .zeroAxis
  else Mat.copied (.turn angle.sin angle.cos (x / length) (y / length) (z / length))

def rotate (args : List Value) : Attempt CalcError Value := do
  checkCount 3 args.length
  let m ← readArg (Function.rotate.matrixArg · .four) args 0
  let angle ← readArg Function.rotate.scalarArg args 1
  let axis ← readArg (Function.rotate.vectorArg · .three) args 2
  return .matrix (← Mat.product m (← rotation angle axis))

def invTranspose (args : List Value) : Attempt CalcError Value := do
  checkCount 1 args.length
  let m ← readArg Function.invTranspose.anyMatrixArg args 0
  return .matrix (← Mat.transpose (← Mat.inverse Mat.floatPivots m))

/-- A projection by four numbers, whose matrix is copied together. -/
def projection (f : Function)
    (project : Float → Float → Float → Float → Except TransformFault (Mat Float))
    (args : List Value) : Attempt CalcError Value := do
  checkCount 4 args.length
  let x ← readArg f.scalarArg args 0
  let y ← readArg f.scalarArg args 1
  let z ← readArg f.scalarArg args 2
  let w ← readArg f.scalarArg args 3
  match project x y z w with
  | .ok m => return .matrix (← Mat.copied m)
  | .error fault => throw fault.calcError

theorem pointwise_eq (f : Pointwise) (v : Value) :
    pointwise f [v] = .of (MatrixCalc.Builtin.pointwise f [v]) := by
  rw [pointwise, checkCount_bind (by rfl), arg_zero, Attempt.some_bind, Value.map_eq]
  rfl

theorem negate_eq (v : Value) : negate [v] = .of (MatrixCalc.Builtin.negate [v]) := by
  rw [negate, checkCount_bind (by rfl), arg_zero, Attempt.some_bind, Value.map_eq]
  rfl

theorem factorial_eq (v : Value) : factorial [v] = .of (MatrixCalc.Builtin.factorial [v]) := by
  rw [factorial, checkCount_bind (by rfl)]
  rfl

theorem matrix_eq (d : Dim) (args : List Value) :
    matrix (.mat d) args = .of (MatrixCalc.Builtin.matrix (.mat d) args) := by
  unfold matrix
  simp only [Function.matrixDim?, Mat.diagonal_eq, Mat.resize_eq]
  split <;> rfl

theorem length_eq (v : Value) : length [v] = .of (MatrixCalc.Builtin.length [v]) := by
  rw [length, checkCount_bind (by rfl), arg_zero, Attempt.some_bind]
  cases v with
  | scalar x => rfl
  | vector v =>
    dsimp only
    rw [Vec.length_eq]
    rfl
  | matrix m => rfl

theorem normalize_eq (v : Value) : normalize [v] = .of (MatrixCalc.Builtin.normalize [v]) := by
  rw [normalize, checkCount_bind (by rfl), arg_zero, Attempt.some_bind]
  refine Attempt.bind_eq fun v _ => ?_
  rw [Vec.length_eq, Attempt.some_bind]
  by_cases hzero : (v.length == 0) = true
  · rw [if_pos hzero, if_pos hzero]
    rfl
  · rw [if_neg hzero, if_neg hzero, Vec.map_eq]
    rfl

theorem dot_eq (left right : Value) :
    dot [left, right] = .of (MatrixCalc.Builtin.dot [left, right]) := by
  rw [dot, checkCount_bind (by rfl)]
  refine readArg_bind rfl fun v => ?_
  refine readArg_bind rfl fun w => ?_
  rw [Vec.dot_eq]
  rfl

theorem cross_eq (left right : Value) :
    cross [left, right] = .of (MatrixCalc.Builtin.cross [left, right]) := by
  rw [cross, checkCount_bind (by rfl)]
  refine readArg_bind rfl fun v => ?_
  refine readArg_bind rfl fun w => ?_
  rw [Vec.cross_eq]
  rfl

theorem mix_eq (left right weight : Value) :
    mix [left, right, weight] = .of (MatrixCalc.Builtin.mix [left, right, weight]) := by
  rw [mix, checkCount_bind (by rfl)]
  refine readArg_bind rfl fun a => ?_
  rw [arg_zero, arg_one, Attempt.some_bind, Attempt.some_bind]
  simp only [Vec.zipWith_eq, Mat.zipWith_eq]
  cases left with
  | scalar x => cases right <;> rfl
  | vector v =>
    cases right with
    | vector w =>
      dsimp only
      by_cases hdim : v.dim = w.dim
      · rw [if_pos hdim, if_pos hdim]
        rfl
      · rw [if_neg hdim, if_neg hdim]
        rfl
    | _ => rfl
  | matrix m =>
    cases right with
    | matrix n =>
      dsimp only
      by_cases hdim : m.dim = n.dim
      · rw [if_pos hdim, if_pos hdim]
        rfl
      · rw [if_neg hdim, if_neg hdim]
        rfl
    | _ => rfl

theorem scale_eq (arg₁ arg₂ : Value) :
    scale [arg₁, arg₂] = .of (MatrixCalc.Builtin.scale [arg₁, arg₂]) := by
  rw [scale, checkCount_bind (by rfl)]
  refine readArg_bind rfl fun m => ?_
  refine readArg_bind rfl fun v => ?_
  rw [Mat.scaling_eq, Attempt.some_bind, Mat.product_eq]
  rfl

theorem translate_eq (arg₁ arg₂ : Value) :
    translate [arg₁, arg₂] = .of (MatrixCalc.Builtin.translate [arg₁, arg₂]) := by
  rw [translate, checkCount_bind (by rfl)]
  refine readArg_bind rfl fun m => ?_
  refine readArg_bind rfl fun v => ?_
  rw [Mat.translation_eq, Attempt.some_bind, Mat.product_eq]
  rfl

theorem invTranspose_eq (v : Value) :
    invTranspose [v] = .of (MatrixCalc.Builtin.invTranspose [v]) := by
  rw [invTranspose, checkCount_bind (by rfl)]
  refine readArg_bind rfl fun m => ?_
  rw [Mat.inverse_eq]
  cases m.inverse? Mat.floatPivots with
  | none => rfl
  | some n =>
    rw [Elimination.orSingular, Attempt.ok_bind, Mat.transpose_eq]
    rfl

/-- The error of a transformation as one of the calculator. -/
def ofTransform {α : Type} : Except TransformFault α → Except CalcError α
  | .ok a => .ok a
  | .error fault => .error fault.calcError

theorem rotation_eq (angle : Float) (axis : Vec Float) :
    rotation angle axis = .of (ofTransform (Mat.rotation angle axis)) := by
  obtain ⟨hx, hy, hz⟩ := Vec.get_three axis
  unfold rotation Mat.rotation
  rw [hx, hy, hz]
  simp only [Attempt.some_bind]
  split
  · rfl
  · rw [Mat.copied_eq (by rfl)]
    rfl

theorem rotate_eq (arg₁ arg₂ arg₃ : Value) :
    rotate [arg₁, arg₂, arg₃] = .of (MatrixCalc.Builtin.rotate [arg₁, arg₂, arg₃]) := by
  rw [rotate, checkCount_bind (by rfl)]
  refine readArg_bind rfl fun m => ?_
  refine readArg_bind rfl fun angle => ?_
  refine readArg_bind rfl fun axis => ?_
  rw [rotation_eq, Mat.rotate]
  cases Mat.rotation angle axis with
  | error fault => rfl
  | ok turn =>
    rw [ofTransform, Attempt.ok_bind, Mat.product_eq]
    rfl

theorem projection_eq {f : Function}
    {project : Float → Float → Float → Float → Except TransformFault (Mat Float)}
    (hdim : ∀ {x y z w : Float} {m : Mat Float}, project x y z w = .ok m → m.dim = .four)
    (arg₁ arg₂ arg₃ arg₄ : Value) :
    projection f project [arg₁, arg₂, arg₃, arg₄] = .of (do
      let x ← f.scalarArg 1 arg₁
      let y ← f.scalarArg 2 arg₂
      let z ← f.scalarArg 3 arg₃
      let w ← f.scalarArg 4 arg₄
      return .matrix (← ofTransform (project x y z w))) := by
  rw [projection, checkCount_bind (by rfl)]
  refine readArg_bind rfl fun x => ?_
  refine readArg_bind rfl fun y => ?_
  refine readArg_bind rfl fun z => ?_
  refine readArg_bind rfl fun w => ?_
  cases hm : project x y z w with
  | error fault => rfl
  | ok m =>
    dsimp only
    rw [Mat.copied_eq (hdim hm)]
    rfl

theorem perspective_eq (arg₁ arg₂ arg₃ arg₄ : Value) :
    projection .perspective Mat.perspective [arg₁, arg₂, arg₃, arg₄] =
      .of (MatrixCalc.Builtin.perspective [arg₁, arg₂, arg₃, arg₄]) := by
  rw [projection_eq Mat.dim_of_perspective]
  refine congrArg Attempt.of ?_
  refine bind_congr fun x => bind_congr fun y => bind_congr fun z => bind_congr fun w => ?_
  cases Mat.perspective x y z w <;> rfl

theorem ortho_eq (arg₁ arg₂ arg₃ arg₄ : Value) :
    projection .ortho Mat.ortho [arg₁, arg₂, arg₃, arg₄] =
      .of (MatrixCalc.Builtin.ortho [arg₁, arg₂, arg₃, arg₄]) := by
  rw [projection_eq Mat.dim_of_ortho]
  refine congrArg Attempt.of ?_
  refine bind_congr fun x => bind_congr fun y => bind_congr fun z => bind_congr fun w => ?_
  cases Mat.ortho x y z w <;> rfl

/-- Reading the arguments behind the first ones by their places. -/
theorem readArg_range' (f : Function) (before rest : List Value) :
    (List.range' before.length rest.length).mapM (readArg f.scalarArg (before ++ rest)) =
      .of ((rest.zipIdx before.length).mapM fun arg => f.scalarArg (arg.2 + 1) arg.1) := by
  induction rest generalizing before with
  | nil => rfl
  | cons v rest ih =>
    have hv : arg (before ++ v :: rest) before.length = some v := by simp [arg]
    have hrest := ih (before ++ [v])
    simp only [List.append_assoc, List.singleton_append, List.length_append,
      List.length_singleton] at hrest
    rw [List.length_cons, List.range'_succ, List.mapM_cons, readArg_eq hv, List.zipIdx_cons,
      List.mapM_cons]
    refine Attempt.bind_eq fun x _ => ?_
    rw [hrest]
    exact Attempt.bind_eq fun _ _ => rfl

theorem vector_eq {d : Dim} {args : List Value} (h : args.length = d.toNat) :
    vector (.vec d) args = .of (MatrixCalc.Builtin.vector (.vec d) args) := by
  have hargs : (below d).mapM (readArg (Function.vec d).scalarArg args) =
      .of ((Function.vec d).scalarArgs args) := by
    have hrange := readArg_range' (.vec d) [] args
    rwa [List.length_nil, ← List.range_eq_range', h] at hrange
  unfold vector MatrixCalc.Builtin.vector
  dsimp only [Function.vectorDim?]
  rw [checkCount_bind h, checkCount, if_pos h, hargs]
  refine Attempt.bind_eq fun xs hxs => ?_
  have hlength := length_of_mapM_eq_ok hxs
  rw [List.length_zipIdx, h] at hlength
  rw [Vec.ofList_eq hlength]
  rfl

end Builtin

end MatrixCalc.Checked
