import MatrixCalc.Proofs.Eval.ShapeSoundness

/-!
# What operators and functions give

From padded operands comes a padded value. A function complains about the number of its arguments
itself, and it does so exactly where its arity does not accept that number (`Function.run_regular`,
`Function.run_of_not_accepts`).
-/
namespace MatrixCalc

/-- Whether the error is about the call itself: its number of arguments, or a function that does
not construct what it should. -/
def CalcError.isOfCall : CalcError → Bool
  | .argumentCount _ _ | .unknownFunction _ => true
  | _ => false

/-- The calculation gives a value with this property, or an error that is not about a call. -/
def Blameless {α : Type} (P : α → Prop) : Except CalcError α → Prop :=
  Ensures P fun e => e.isOfCall = false

/-- From padded operands comes a padded value, and no error is about a call. -/
def Regular (operands : List Value) : Except CalcError Value → Prop :=
  Blameless fun v => (∀ a ∈ operands, a.Padded) → v.Padded

namespace Operator

theorem scalars_blameless (op : Operator) (x y : Float) :
    Blameless (fun _ => True) (op.scalars x y) := by
  cases op with
  | div =>
    unfold scalars
    dsimp only
    split
    · rfl
    · trivial
  | mod =>
    unfold scalars
    dsimp only
    split
    · rfl
    · split
      · rfl
      · trivial
  | add | sub | mul | pow => trivial

theorem broadcast_regular (op : Operator) (left right : Value) :
    Regular [left, right] (op.broadcast left right) := by
  unfold broadcast
  split
  · rfl
  · split
    · rfl
    · split
      · exact fun h => (h _ (by simp)).map _
      · exact fun h => (h _ (by simp)).map _
      · rfl

theorem vectors_regular (op : Operator) (v w : Vec Float) :
    Regular [.vector v, .vector w] (op.vectors v w) := by
  unfold vectors
  split
  · rfl
  · split
    · rfl
    · intro h
      have hv : v.Padded := h (.vector v) (by simp)
      exact hv.overwrite _

theorem matrices_regular (op : Operator) (left right : Value) :
    Regular [left, right] (op.matrices left right) := by
  unfold matrices
  split
  · rfl
  · split
    · rfl
    · cases left with
      | scalar | vector => rfl
      | matrix a =>
        cases right with
        | scalar => rfl
        | vector v => exact fun _ => Vec.padded_truncate _ a.dim
        | matrix b =>
          intro h
          have ha : a.Padded := h (.matrix a) (List.mem_cons_self ..)
          exact ha.overwrite _

theorem values_regular (op : Operator) (left right : Value) :
    Regular [left, right] (op.values left right) := by
  unfold values
  split
  · exact (op.scalars_blameless _ _).map fun _ _ _ => trivial
  · exact op.broadcast_regular _ _
  · exact op.broadcast_regular _ _
  · exact op.vectors_regular _ _
  · exact op.matrices_regular _ _
  · rfl

end Operator

section Arguments

variable (f : Function) (place : Nat) (v : Value)

theorem asScalar_blameless (operand : String) :
    Blameless (fun x => v = .scalar x) (v.asScalar operand) := by
  cases v <;> rfl

theorem asVector_blameless (operand : String) :
    Blameless (fun w => v = .vector w) (v.asVector operand) := by
  cases v <;> rfl

theorem asMatrix_blameless (operand : String) :
    Blameless (fun m => v = .matrix m) (v.asMatrix operand) := by
  cases v <;> rfl

theorem vectorArg_blameless (d : Dim) :
    Blameless (fun w => v = .vector w) (f.vectorArg place d v) := by
  refine (asVector_blameless v _).bind ?_
  intro w hw
  split
  · exact hw
  · rfl

theorem matrixArg_blameless (d : Dim) :
    Blameless (fun m => v = .matrix m) (f.matrixArg place d v) := by
  refine (asMatrix_blameless v _).bind ?_
  intro m hm
  split
  · exact hm
  · rfl

theorem scalarArgs_blameless (args : List Value) :
    Blameless (fun _ => True) (f.scalarArgs args) := by
  cases h : f.scalarArgs args with
  | ok xs => trivial
  | error e =>
    obtain ⟨arg, -, harg⟩ := exists_error_of_mapM h
    exact (asScalar_blameless arg.1 _).of_error harg

end Arguments

theorem TransformFault.isOfCall_calcError (fault : TransformFault) :
    fault.calcError.isOfCall = false := by
  cases fault <;> rfl

namespace Builtin

theorem length_regular (v : Value) : Regular [v] (length [v]) := by
  cases v with
  | scalar | vector => exact fun _ => trivial
  | matrix => rfl

theorem normalize_regular (v : Value) : Regular [v] (normalize [v]) := by
  refine (asVector_blameless v _).bind ?_
  rintro w rfl
  split
  · rfl
  · intro h
    have hw : w.Padded := h (.vector w) (List.mem_singleton_self _)
    exact hw.overwrite _

theorem dot_regular (v w : Value) : Regular [v, w] (dot [v, w]) := by
  refine (asVector_blameless v _).bind ?_
  intro x _
  refine (vectorArg_blameless .dot 2 w x.dim).bind ?_
  exact fun _ _ _ => trivial

theorem cross_regular (v w : Value) : Regular [v, w] (cross [v, w]) := by
  refine (vectorArg_blameless .cross 1 v .three).bind ?_
  intro x _
  refine (vectorArg_blameless .cross 2 w .three).bind ?_
  exact fun y _ _ => x.padded_cross y

theorem mix_regular (v w a : Value) : Regular [v, w, a] (mix [v, w, a]) := by
  refine (asScalar_blameless a _).bind ?_
  intro x _
  split
  · exact fun _ => trivial
  · next p q =>
    split
    · intro h
      have hp : p.Padded := h (.vector p) (by simp)
      exact hp.overwrite _
    · rfl
  · next m n =>
    split
    · intro h
      have hm : m.Padded := h (.matrix m) (by simp)
      exact hm.overwrite _
    · rfl
  · rfl

theorem identity_regular (d : Dim) : Regular [] (matrix (.mat d) []) :=
  fun _ => Mat.padded_identity d

theorem matrix_regular (d : Dim) (v : Value) : Regular [v] (matrix (.mat d) [v]) := by
  cases v with
  | scalar | matrix => exact fun _ => Mat.padded_build d _
  | vector => rfl

theorem vector_regular {d : Dim} {args : List Value} (h : args.length = d.toNat) :
    Regular args (vector (.vec d) args) := by
  change Regular args (checkCount d.toNat args.length >>= fun _ =>
    (Function.vec d).scalarArgs args >>= _)
  rw [checkCount, if_pos h]
  refine (scalarArgs_blameless (.vec d) args).bind ?_
  exact fun _ _ _ => Vec.padded_build d _

theorem transformed_regular (f : Function) {transform : Mat Float → Vec Float → Mat Float}
    (htransform : ∀ m v, m.Padded → (transform m v).Padded) (a b : Value) :
    Regular [a, b] (do
      let m ← f.matrixArg 1 .four a
      let v ← f.vectorArg 2 .three b
      return .matrix (transform m v)) := by
  refine (matrixArg_blameless f 1 a .four).bind ?_
  rintro m rfl
  refine (vectorArg_blameless f 2 b .three).bind ?_
  intro v _ h
  exact htransform m v (h (.matrix m) (List.mem_cons_self ..))

/-- A transformation that may fail, made a value. -/
theorem transform_regular {operands : List Value} {result : Except TransformFault (Mat Float)} :
    ((∀ a ∈ operands, a.Padded) → Ensures Mat.Padded (fun _ => True) result) →
      Regular operands (match result with
        | .ok m => .ok (.matrix m)
        | .error fault => .error fault.calcError) := by
  intro h
  cases result with
  | ok m => exact h
  | error fault => exact fault.isOfCall_calcError

theorem rotate_regular (a b c : Value) : Regular [a, b, c] (rotate [a, b, c]) := by
  refine (matrixArg_blameless .rotate 1 a .four).bind ?_
  rintro m rfl
  refine (asScalar_blameless b _).bind ?_
  intro angle _
  refine (vectorArg_blameless .rotate 3 c .three).bind ?_
  intro axis _
  apply transform_regular
  intro h
  have hm : m.Padded := h (.matrix m) (List.mem_cons_self ..)
  exact hm.rotate angle axis

theorem projection_regular (f : Function)
    {project : Float → Float → Float → Float → Except TransformFault (Mat Float)}
    (hproject : ∀ x y z w, Ensures Mat.Padded (fun _ => True) (project x y z w))
    (a b c d : Value) :
    Regular [a, b, c, d] (do
      let x ← f.scalarArg 1 a
      let y ← f.scalarArg 2 b
      let z ← f.scalarArg 3 c
      let w ← f.scalarArg 4 d
      match project x y z w with
      | .ok m => .ok (.matrix m)
      | .error fault => .error fault.calcError) := by
  refine (asScalar_blameless a _).bind ?_
  intro x _
  refine (asScalar_blameless b _).bind ?_
  intro y _
  refine (asScalar_blameless c _).bind ?_
  intro z _
  refine (asScalar_blameless d _).bind ?_
  intro w _
  exact transform_regular fun _ => hproject x y z w

theorem invTranspose_regular (v : Value) : Regular [v] (invTranspose [v]) := by
  refine (asMatrix_blameless v _).bind ?_
  intro m _
  split
  · next inverse hinverse =>
    exact fun _ => (Mat.padded_of_inverse? hinverse).overwrite _
  · rfl

theorem factorial_regular (v : Value) : Regular [v] (factorial [v]) := by
  cases v with
  | scalar x =>
    unfold factorial
    dsimp only
    split
    · split
      · rfl
      · split
        · rfl
        · exact fun _ => trivial
    · rfl
  | vector | matrix => rfl

theorem map_regular (f : Float → Float) (v : Value) : Regular [v] (.ok (v.map f)) :=
  fun h => (h v (List.mem_singleton_self v)).map f

theorem rand_regular {σ : Type} [RandomSource σ] (v : Value) (s : σ) :
    Regular [v] (rand [v] s).1 := by
  cases v with
  | scalar x =>
    cases h : randomBound? x with
    | some n =>
      rw [rand_of_bound h]
      exact fun _ => trivial
    | none =>
      rw [rand_of_no_bound h]
      rfl
  | vector | matrix => rfl

end Builtin

open Builtin

theorem Function.run_regular {σ : Type} [RandomSource σ] (f : Function) {args : List Value}
    (h : f.arity.accepts args.length = true) (s : σ) : Regular args (f.run args s).1 := by
  rw [run_eq]
  cases f, args, h using accepted_cases with
  | pointwise g v => exact map_regular g.real v
  | vec d args h => exact vector_regular h
  | length v => exact length_regular v
  | normalize v => exact normalize_regular v
  | dot v w => exact dot_regular v w
  | cross v w => exact cross_regular v w
  | mix v w a => exact mix_regular v w a
  | identity d => exact identity_regular d
  | mat d v => exact matrix_regular d v
  | scale m v => exact transformed_regular .scale (fun _ _ h => h.overwrite _) m v
  | rotate m x v => exact rotate_regular m x v
  | translate m v => exact transformed_regular .translate (fun _ _ h => h.overwrite _) m v
  | invTranspose m => exact invTranspose_regular m
  | perspective x y z w => exact projection_regular .perspective Mat.perspective_padded x y z w
  | ortho x y z w => exact projection_regular .ortho Mat.ortho_padded x y z w
  | rand v => exact rand_regular v s
  | negate v => exact map_regular _ v
  | factorial v => exact factorial_regular v

/-- Every function looks at the number of its arguments itself. -/
theorem Function.run_of_not_accepts {σ : Type} [RandomSource σ] (f : Function) {args : List Value}
    (h : f.arity.accepts args.length = false) (s : σ) :
    ∃ n, (f.run args s).1 = .error (.argumentCount n args.length) := by
  rw [run_eq]
  cases f with
  | vec d =>
    have hlength : args.length ≠ d.toNat := by
      intro he
      have haccepts : (Function.vec d).arity.accepts args.length = true := by
        rw [he]
        exact Arity.accepts_exactly d.toNat
      exact absurd (h.symm.trans haccepts) Bool.false_ne_true
    refine ⟨d.toNat, ?_⟩
    change (checkCount d.toNat args.length >>= fun _ => (Function.vec d).scalarArgs args >>= _) = _
    rw [checkCount, if_neg hlength]
    rfl
  | mat d =>
    rcases args with _ | ⟨a, _ | ⟨b, rest⟩⟩
    · cases h
    · cases h
    · cases a <;> exact ⟨1, rfl⟩
  | pointwise | length | normalize | invTranspose | rand | negate | factorial =>
    rcases args with _ | ⟨a, _ | ⟨b, rest⟩⟩
    · exact ⟨1, rfl⟩
    · cases h
    · cases a <;> exact ⟨1, rfl⟩
  | dot | cross | scale | translate =>
    rcases args with _ | ⟨a, _ | ⟨b, _ | ⟨c, rest⟩⟩⟩
    · exact ⟨2, rfl⟩
    · exact ⟨2, rfl⟩
    · cases h
    · exact ⟨2, rfl⟩
  | mix | rotate =>
    rcases args with _ | ⟨a, _ | ⟨b, _ | ⟨c, _ | ⟨d, rest⟩⟩⟩⟩
    · exact ⟨3, rfl⟩
    · exact ⟨3, rfl⟩
    · exact ⟨3, rfl⟩
    · cases h
    · exact ⟨3, rfl⟩
  | perspective | ortho =>
    rcases args with _ | ⟨a, _ | ⟨b, _ | ⟨c, _ | ⟨d, _ | ⟨e, rest⟩⟩⟩⟩⟩
    · exact ⟨4, rfl⟩
    · exact ⟨4, rfl⟩
    · exact ⟨4, rfl⟩
    · exact ⟨4, rfl⟩
    · cases h
    · exact ⟨4, rfl⟩

/-- A function complains about a call exactly where its arity does not accept it. -/
theorem Function.run_isOfCall_iff {σ : Type} [RandomSource σ] (f : Function) (args : List Value)
    (s : σ) : (∃ e, (f.run args s).1 = .error e ∧ e.isOfCall = true) ↔
      f.arity.accepts args.length = false := by
  constructor
  · rintro ⟨e, he, hcall⟩
    rw [Bool.eq_false_iff]
    intro haccepts
    have hblameless := (f.run_regular haccepts s).of_error he
    exact absurd (hblameless.symm.trans hcall) Bool.false_ne_true
  · intro h
    obtain ⟨n, hn⟩ := f.run_of_not_accepts h s
    exact ⟨_, hn, rfl⟩

end MatrixCalc
