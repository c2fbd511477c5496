import MatrixCalc.Proofs.Eval.Shapes
import MatrixCalc.Proofs.Value.Padding
import Mathlib.Data.List.Basic

/-!
# The shapes that functions take and give

A function reads its arguments one after the other and then calculates. Reading fails exactly for
an argument of another shape, so every function agrees with its table once the number of its
arguments is accepted.
-/
namespace MatrixCalc

namespace Function

variable {f : Function} {place : Nat} {d : Dim} {v : Value}

theorem eq_scalar_of_scalarArg {x : Float} (h : f.scalarArg place v = .ok x) : v = .scalar x := by
  cases v <;> cases h
  rfl

theorem shape_ne_of_scalarArg {e : CalcError} (h : f.scalarArg place v = .error e) :
    v.shape ≠ .scalar := by
  cases v <;> simp_all [scalarArg, Value.asScalar, Value.shape]

theorem eq_vector_of_anyVectorArg {w : Vec Float} (h : f.anyVectorArg place v = .ok w) :
    v = .vector w := by
  cases v <;> cases h
  rfl

theorem shape_ne_of_anyVectorArg {e : CalcError} (h : f.anyVectorArg place v = .error e) :
    ∀ d, v.shape ≠ .vec d := by
  cases v <;> simp_all [anyVectorArg, Value.asVector, Value.shape]

theorem eq_vector_of_vectorArg {w : Vec Float} (h : f.vectorArg place d v = .ok w) :
    v = .vector w ∧ w.dim = d := by
  cases v with
  | vector u =>
    change (if u.dim = d then _ else _) = _ at h
    split at h
    · next hd =>
      cases h
      exact ⟨rfl, hd⟩
    · cases h
  | scalar | matrix => cases h

theorem shape_ne_of_vectorArg {e : CalcError} (h : f.vectorArg place d v = .error e) :
    v.shape ≠ .vec d := by
  cases v with
  | vector u =>
    change (if u.dim = d then _ else _) = _ at h
    split at h
    · cases h
    · next hd => exact fun he => hd (Shape.vec.inj he)
  | scalar | matrix => exact Shape.noConfusion

theorem eq_matrix_of_matrixArg {m : Mat Float} (h : f.matrixArg place d v = .ok m) :
    v = .matrix m ∧ m.dim = d := by
  cases v with
  | matrix n =>
    change (if n.dim = d then _ else _) = _ at h
    split at h
    · next hd =>
      cases h
      exact ⟨rfl, hd⟩
    · cases h
  | scalar | vector => cases h

theorem shape_ne_of_matrixArg {e : CalcError} (h : f.matrixArg place d v = .error e) :
    v.shape ≠ .mat d := by
  cases v with
  | matrix n =>
    change (if n.dim = d then _ else _) = _ at h
    split at h
    · cases h
    · next hd => exact fun he => hd (Shape.mat.inj he)
  | scalar | vector => exact Shape.noConfusion

theorem shape_of_mem_of_scalarArgs {args : List Value} {xs : List Float}
    (h : f.scalarArgs args = .ok xs) (hv : v ∈ args) : v.shape = .scalar := by
  rw [← List.zipIdx_map_fst 0 args] at hv
  obtain ⟨⟨w, i⟩, hmem, rfl⟩ := List.mem_map.1 hv
  obtain ⟨x, hx⟩ := exists_mapM_eq_ok_iff.1 ⟨xs, h⟩ _ hmem
  rw [eq_scalar_of_scalarArg hx]
  rfl

theorem exists_shape_ne_of_scalarArgs {args : List Value} {e : CalcError}
    (h : f.scalarArgs args = .error e) : ∃ v ∈ args, v.shape ≠ .scalar := by
  obtain ⟨⟨v, i⟩, hmem, he⟩ := exists_error_of_mapM h
  refine ⟨v, ?_, shape_ne_of_scalarArg he⟩
  rw [← List.zipIdx_map_fst 0 args]
  exact List.mem_map_of_mem hmem

end Function

namespace Mat

theorem dim_of_rotate {m n : Mat Float} {angle : Float} {axis : Vec Float}
    (h : m.rotate angle axis = .ok n) : n.dim = m.dim := by
  unfold rotate at h
  cases hr : rotation angle axis with
  | error fault =>
    rw [hr] at h
    cases h
  | ok r =>
    rw [hr] at h
    cases h
    rfl

theorem dim_of_perspective {fovy aspect near far : Float} {m : Mat Float}
    (h : perspective fovy aspect near far = .ok m) : m.dim = .four := by
  unfold perspective at h
  dsimp only at h
  split at h
  · cases h
  · cases h
    rfl

theorem dim_of_ortho {left right bottom top : Float} {m : Mat Float}
    (h : ortho left right bottom top = .ok m) : m.dim = .four := by
  unfold ortho at h
  split at h
  · cases h
  · cases h
    rfl

end Mat

theorem TransformFault.ofNumbers (fault : TransformFault) : fault.calcError.OfNumbers := by
  cases fault with
  | zeroAxis => exact .zeroAxis
  | flat => exact .divisionByZero

namespace Builtin

open MatrixCalc.Function

theorem agrees_length (v : Value) : Agrees (Function.length.shape? [v.shape]) (length [v]) := by
  cases v with
  | scalar x => exact .of_shape rfl
  | vector v => exact .of_shape rfl
  | matrix m => exact .refused

theorem agrees_normalize (v : Value) :
    Agrees (Function.normalize.shape? [v.shape]) (normalize [v]) := by
  cases v with
  | vector v =>
    change Agrees (some (.vec v.dim)) (if v.length == 0 then _ else _)
    split
    · exact .ofNumbers .divisionByZero
    · exact .of_shape rfl
  | scalar | matrix => exact .refused

theorem agrees_dot (a b : Value) :
    Agrees (Function.dot.shape? [a.shape, b.shape]) (dot [a, b]) := by
  refine .bind (fun v hv => ?_) fun e he => ?_
  · obtain rfl := eq_vector_of_anyVectorArg hv
    refine .bind (fun w hw => ?_) fun e he => ?_
    · obtain ⟨rfl, hd⟩ := eq_vector_of_vectorArg hw
      rw [show Function.dot.shape? [(Value.vector v).shape, (Value.vector w).shape] = some .scalar
        from if_pos hd.symm]
      exact .of_shape rfl
    · have hne := shape_ne_of_vectorArg he
      cases b with
      | vector w => exact if_neg fun hd => hne (congrArg Shape.vec hd.symm)
      | scalar | matrix => rfl
  · have hne := shape_ne_of_anyVectorArg he
    cases a with
    | vector v => exact absurd rfl (hne v.dim)
    | scalar | matrix => rfl

theorem agrees_cross (a b : Value) :
    Agrees (Function.cross.shape? [a.shape, b.shape]) (cross [a, b]) := by
  refine .bind (fun v hv => ?_) fun e he => ?_
  · obtain ⟨rfl, hdim⟩ := eq_vector_of_vectorArg hv
    refine .bind (fun w hw => ?_) fun e he => ?_
    · obtain ⟨rfl, hdim'⟩ := eq_vector_of_vectorArg hw
      refine .of_entry ?_ (.of_shape rfl)
      exact if_pos (by simp [Value.shape, hdim, hdim'])
    · exact Shape.only_of_ne (by simp [shape_ne_of_vectorArg he])
  · exact Shape.only_of_ne (by simp [shape_ne_of_vectorArg he])

/-- Two values of one shape are mixed, in whatever shape that is. -/
theorem agrees_mix (a b c : Value) :
    Agrees (Function.mix.shape? [a.shape, b.shape, c.shape]) (mix [a, b, c]) := by
  refine .bind (fun x hx => ?_) fun e he => ?_
  · obtain rfl := eq_scalar_of_scalarArg hx
    cases a with
    | scalar y =>
      cases b with
      | scalar z => exact .of_shape rfl
      | vector | matrix => exact .refused
    | vector v =>
      cases b with
      | vector w =>
        change Agrees _ (if v.dim = w.dim then _ else _)
        split
        · next hd =>
          exact .of_entry (if_pos (congrArg Shape.vec hd)) (.of_shape rfl)
        · next hd => exact .of_none (if_neg fun h => hd (Shape.vec.inj h))
      | scalar | matrix => exact .refused
    | matrix m =>
      cases b with
      | matrix n =>
        change Agrees _ (if m.dim = n.dim then _ else _)
        split
        · next hd =>
          exact .of_entry (if_pos (congrArg Shape.mat hd)) (.of_shape rfl)
        · next hd => exact .of_none (if_neg fun h => hd (Shape.mat.inj h))
      | scalar | vector => exact .refused
  · have hne := shape_ne_of_scalarArg he
    cases c with
    | scalar x => exact absurd rfl hne
    | vector | matrix => rfl

theorem agrees_matrix_nil (d : Dim) : Agrees ((Function.mat d).shape? []) (matrix (.mat d) []) :=
  .of_shape rfl

theorem agrees_matrix (d : Dim) (v : Value) :
    Agrees ((Function.mat d).shape? [v.shape]) (matrix (.mat d) [v]) := by
  cases v with
  | scalar x => exact .of_shape rfl
  | vector v => exact .refused
  | matrix m => exact .of_shape rfl

/-- A transformation of space by a vector, added to a matrix. -/
theorem agrees_transformed (f : Function) (transform : Mat Float → Vec Float → Mat Float)
    (htransform : ∀ m v, (transform m v).dim = m.dim) (a b : Value) :
    Agrees (Shape.only [.mat .four, .vec .three] (.mat .four) [a.shape, b.shape])
      (do
        let m ← f.matrixArg 1 .four a
        let v ← f.vectorArg 2 .three b
        return .matrix (transform m v)) := by
  refine .bind (fun m hm => ?_) fun e he => ?_
  · obtain ⟨rfl, hdim⟩ := eq_matrix_of_matrixArg hm
    refine .bind (fun v hv => ?_) fun e he => ?_
    · obtain ⟨rfl, hdim'⟩ := eq_vector_of_vectorArg hv
      refine .of_entry ?_ (.of_shape (congrArg Shape.mat ((htransform m v).trans hdim)))
      exact if_pos (by simp [Value.shape, hdim, hdim'])
    · exact Shape.only_of_ne (by simp [shape_ne_of_vectorArg he])
  · exact Shape.only_of_ne (by simp [shape_ne_of_matrixArg he])

theorem agrees_scale (a b : Value) :
    Agrees (Function.scale.shape? [a.shape, b.shape]) (scale [a, b]) :=
  agrees_transformed .scale Mat.scale (fun _ _ => rfl) a b

theorem agrees_translate (a b : Value) :
    Agrees (Function.translate.shape? [a.shape, b.shape]) (translate [a, b]) :=
  agrees_transformed .translate Mat.translate (fun _ _ => rfl) a b

theorem agrees_rotate (a b c : Value) :
    Agrees (Function.rotate.shape? [a.shape, b.shape, c.shape]) (rotate [a, b, c]) := by
  refine .bind (fun m hm => ?_) fun e he => ?_
  · obtain ⟨rfl, hdim⟩ := eq_matrix_of_matrixArg hm
    refine .bind (fun angle hangle => ?_) fun e he => ?_
    · obtain rfl := eq_scalar_of_scalarArg hangle
      refine .bind (fun axis haxis => ?_) fun e he => ?_
      · obtain ⟨rfl, hdim'⟩ := eq_vector_of_vectorArg haxis
        refine .of_entry (if_pos (by simp [Value.shape, hdim, hdim'])) ?_
        cases hr : m.rotate angle axis with
        | ok n => exact .of_shape (congrArg Shape.mat ((Mat.dim_of_rotate hr).trans hdim))
        | error fault => exact .ofNumbers fault.ofNumbers
      · exact Shape.only_of_ne (by simp [shape_ne_of_vectorArg he])
    · exact Shape.only_of_ne (by simp [shape_ne_of_scalarArg he])
  · exact Shape.only_of_ne (by simp [shape_ne_of_matrixArg he])

/-- A projection of space that four numbers determine. -/
theorem agrees_projection {f : Function}
    {project : Float → Float → Float → Float → Except TransformFault (Mat Float)}
    (hproject : ∀ {x y z w m}, project x y z w = .ok m → m.dim = .four) (a b c d : Value) :
    Agrees (Shape.only [.scalar, .scalar, .scalar, .scalar] (.mat .four)
        [a.shape, b.shape, c.shape, d.shape])
      (do
        let x ← f.scalarArg 1 a
        let y ← f.scalarArg 2 b
        let z ← f.scalarArg 3 c
        let w ← f.scalarArg 4 d
        match project x y z w with
        | .ok m => .ok (.matrix m)
        | .error fault => .error fault.calcError) := by
  refine .bind (fun x hx => ?_) fun e he => ?_
  · obtain rfl := eq_scalar_of_scalarArg hx
    refine .bind (fun y hy => ?_) fun e he => ?_
    · obtain rfl := eq_scalar_of_scalarArg hy
      refine .bind (fun z hz => ?_) fun e he => ?_
      · obtain rfl := eq_scalar_of_scalarArg hz
        refine .bind (fun w hw => ?_) fun e he => ?_
        · obtain rfl := eq_scalar_of_scalarArg hw
          refine .of_entry (Shape.only_self ..) ?_
          cases hp : project x y z w with
          | ok m => exact .of_shape (congrArg Shape.mat (hproject hp))
          | error fault => exact .ofNumbers fault.ofNumbers
        · exact Shape.only_of_ne (by simp [shape_ne_of_scalarArg he])
      · exact Shape.only_of_ne (by simp [shape_ne_of_scalarArg he])
    · exact Shape.only_of_ne (by simp [shape_ne_of_scalarArg he])
  · exact Shape.only_of_ne (by simp [shape_ne_of_scalarArg he])

theorem agrees_perspective (a b c d : Value) :
    Agrees (Function.perspective.shape? [a.shape, b.shape, c.shape, d.shape])
      (perspective [a, b, c, d]) :=
  agrees_projection Mat.dim_of_perspective a b c d

theorem agrees_ortho (a b c d : Value) :
    Agrees (Function.ortho.shape? [a.shape, b.shape, c.shape, d.shape]) (ortho [a, b, c, d]) :=
  agrees_projection Mat.dim_of_ortho a b c d

theorem agrees_invTranspose (v : Value) :
    Agrees (Function.invTranspose.shape? [v.shape]) (invTranspose [v]) := by
  cases v with
  | matrix m =>
    rw [invTranspose, Function.anyMatrixArg, Value.asMatrix]
    refine .bind (fun n hn => ?_) fun e he => ?_
    · obtain rfl := Except.ok.inj hn
      split
      · next inverse hinverse =>
        have hdim : inverse.dim = m.dim := Mat.dim_of_inverse? hinverse
        exact .of_shape (congrArg Shape.mat hdim)
      · exact .ofNumbers .singularMatrix
    · cases he
  | scalar | vector => exact .refused

theorem agrees_factorial (v : Value) :
    Agrees (Function.factorial.shape? [v.shape]) (factorial [v]) := by
  cases v with
  | scalar x =>
    unfold factorial
    dsimp only
    split
    · split
      · exact .ofNumbers (.factorialOfNumber x)
      · split
        · exact .ofNumbers .overflow
        · exact .of_shape rfl
    · exact .ofNumbers (.factorialOfNumber x)
  | vector | matrix => exact .refused

theorem agrees_pointwise (g : Pointwise) (v : Value) :
    Agrees ((Function.pointwise g).shape? [v.shape]) (pointwise g [v]) :=
  .of_shape (Value.shape_map ..)

theorem agrees_negate (v : Value) : Agrees (Function.negate.shape? [v.shape]) (negate [v]) :=
  .of_shape (Value.shape_map ..)

theorem rand_of_bound {σ : Type} [RandomSource σ] {x : Float} {n : Nat}
    (h : randomBound? x = some n) :
    (rand [.scalar x] : Calc σ Value) = do
      let k ← Calc.draw n (randomBound?_pos h)
      return .scalar (Float.ofNat k) := by
  refine (pure_bind x _ : Calc.ofExcept (.ok x) >>= _ = _).trans ?_
  split
  · next m hm =>
    obtain rfl := Option.some.inj (h.symm.trans hm)
    rfl
  · next hn =>
    rw [h] at hn
    cases hn

theorem rand_of_no_bound {σ : Type} [RandomSource σ] {x : Float} (h : randomBound? x = none) :
    (rand [.scalar x] : Calc σ Value) = throw (.randomBound x) := by
  refine (pure_bind x _ : Calc.ofExcept (.ok x) >>= _ = _).trans ?_
  split
  · next m hm =>
    rw [h] at hm
    cases hm
  · rfl

theorem agrees_rand {σ : Type} [RandomSource σ] (v : Value) (s : σ) :
    Agrees (Function.rand.shape? [v.shape]) (rand [v] s).1 := by
  cases v with
  | scalar x =>
    cases h : randomBound? x with
    | some n =>
      rw [rand_of_bound h]
      exact .of_shape rfl
    | none =>
      rw [rand_of_no_bound h]
      exact .ofNumbers (.randomBound x)
  | vector | matrix => exact .refused

theorem agrees_vector {d : Dim} {args : List Value} (hlength : args.length = d.toNat) :
    Agrees ((Function.vec d).shape? (args.map Value.shape)) (vector (.vec d) args) := by
  change Agrees (Shape.only (List.replicate d.toNat .scalar) (.vec d) (args.map Value.shape))
    (checkCount d.toNat args.length >>= fun _ => (Function.vec d).scalarArgs args >>= _)
  rw [checkCount, if_pos hlength]
  change Agrees _ ((Function.vec d).scalarArgs args >>= _)
  refine .bind (fun xs hxs => ?_) fun e he => ?_
  · refine .of_entry (if_pos ?_) (.of_shape rfl)
    rw [List.eq_replicate_iff, List.length_map]
    refine ⟨hlength, ?_⟩
    intro s hs
    obtain ⟨v, hv, rfl⟩ := List.mem_map.1 hs
    exact shape_of_mem_of_scalarArgs hxs hv
  · obtain ⟨v, hv, hne⟩ := exists_shape_ne_of_scalarArgs he
    refine Shape.only_of_ne ?_
    intro h
    exact hne ((List.eq_replicate_iff.1 h).2 _ (List.mem_map_of_mem hv))

end Builtin

theorem Shape.length_of_only {wanted found : List Shape} {result s : Shape}
    (h : Shape.only wanted result found = some s) : found.length = wanted.length := by
  unfold Shape.only at h
  split at h
  · next he => rw [he]
  · cases h

theorem Arity.eq_of_accepts_exactly {n k : Nat} (h : (Arity.exactly n).accepts k = true) :
    k = n := by
  obtain ⟨hleast, hmost⟩ := Bool.and_eq_true_iff.1 h
  exact Nat.le_antisymm (of_decide_eq_true hmost) (of_decide_eq_true hleast)

theorem Arity.accepts_exactly (n : Nat) : (Arity.exactly n).accepts n = true := by
  simp [Arity.accepts, Arity.exactly]

namespace Function

/-- The table has no entry for a number of arguments that the function does not take. -/
theorem accepts_of_shape? {f : Function} {found : List Shape} {s : Shape}
    (h : f.shape? found = some s) : f.arity.accepts found.length = true := by
  unfold shape? at h
  split at h
  case h_12 d =>
    rw [Shape.length_of_only h, List.length_replicate]
    exact Arity.accepts_exactly d.toNat
  case h_13 | h_14 | h_15 | h_16 | h_17 | h_18 | h_19 | h_20 =>
    rw [Shape.length_of_only h]
    rfl
  case h_21 => cases h
  all_goals rfl

/-- The cases of a function with a number of arguments that it takes. -/
theorem accepted_cases
    {motive : (f : Function) → (args : List Value) → f.arity.accepts args.length = true → Prop}
    (pointwise : ∀ g v, motive (.pointwise g) [v] rfl)
    (vec : ∀ d args (h : args.length = d.toNat),
      motive (.vec d) args (by rw [h]; exact Arity.accepts_exactly d.toNat))
    (length : ∀ v, motive .length [v] rfl) (normalize : ∀ v, motive .normalize [v] rfl)
    (dot : ∀ v w, motive .dot [v, w] rfl) (cross : ∀ v w, motive .cross [v, w] rfl)
    (mix : ∀ v w a, motive .mix [v, w, a] rfl) (identity : ∀ d, motive (.mat d) [] rfl)
    (mat : ∀ d v, motive (.mat d) [v] rfl) (scale : ∀ m v, motive .scale [m, v] rfl)
    (rotate : ∀ m x v, motive .rotate [m, x, v] rfl)
    (translate : ∀ m v, motive .translate [m, v] rfl)
    (invTranspose : ∀ m, motive .invTranspose [m] rfl)
    (perspective : ∀ x y z w, motive .perspective [x, y, z, w] rfl)
    (ortho : ∀ x y z w, motive .ortho [x, y, z, w] rfl) (rand : ∀ v, motive .rand [v] rfl)
    (negate : ∀ v, motive .negate [v] rfl) (factorial : ∀ v, motive .factorial [v] rfl)
    (f : Function) (args : List Value) (h : f.arity.accepts args.length = true) :
    motive f args h := by
  cases f with
  | pointwise g =>
    obtain ⟨v, rfl⟩ := List.length_eq_one_iff.1 (Arity.eq_of_accepts_exactly h)
    exact pointwise g v
  | vec d => exact vec d args (Arity.eq_of_accepts_exactly h)
  | length =>
    obtain ⟨v, rfl⟩ := List.length_eq_one_iff.1 (Arity.eq_of_accepts_exactly h)
    exact length v
  | normalize =>
    obtain ⟨v, rfl⟩ := List.length_eq_one_iff.1 (Arity.eq_of_accepts_exactly h)
    exact normalize v
  | dot =>
    obtain ⟨v, w, rfl⟩ := List.length_eq_two.1 (Arity.eq_of_accepts_exactly h)
    exact dot v w
  | cross =>
    obtain ⟨v, w, rfl⟩ := List.length_eq_two.1 (Arity.eq_of_accepts_exactly h)
    exact cross v w
  | mix =>
    obtain ⟨v, w, a, rfl⟩ := List.length_eq_three.1 (Arity.eq_of_accepts_exactly h)
    exact mix v w a
  | mat d =>
    match args, h with
    | [], _ => exact identity d
    | [v], _ => exact mat d v
  | scale =>
    obtain ⟨m, v, rfl⟩ := List.length_eq_two.1 (Arity.eq_of_accepts_exactly h)
    exact scale m v
  | rotate =>
    obtain ⟨m, x, v, rfl⟩ := List.length_eq_three.1 (Arity.eq_of_accepts_exactly h)
    exact rotate m x v
  | translate =>
    obtain ⟨m, v, rfl⟩ := List.length_eq_two.1 (Arity.eq_of_accepts_exactly h)
    exact translate m v
  | invTranspose =>
    obtain ⟨m, rfl⟩ := List.length_eq_one_iff.1 (Arity.eq_of_accepts_exactly h)
    exact invTranspose m
  | perspective =>
    obtain ⟨x, y, z, w, rfl⟩ := List.length_eq_four.1 (Arity.eq_of_accepts_exactly h)
    exact perspective x y z w
  | ortho =>
    obtain ⟨x, y, z, w, rfl⟩ := List.length_eq_four.1 (Arity.eq_of_accepts_exactly h)
    exact ortho x y z w
  | rand =>
    obtain ⟨v, rfl⟩ := List.length_eq_one_iff.1 (Arity.eq_of_accepts_exactly h)
    exact rand v
  | negate =>
    obtain ⟨v, rfl⟩ := List.length_eq_one_iff.1 (Arity.eq_of_accepts_exactly h)
    exact negate v
  | factorial =>
    obtain ⟨v, rfl⟩ := List.length_eq_one_iff.1 (Arity.eq_of_accepts_exactly h)
    exact factorial v

variable {σ : Type} [RandomSource σ]

open Builtin

theorem agrees_run (f : Function) {args : List Value} (h : f.arity.accepts args.length = true)
    (s : σ) : Agrees (f.shape? (args.map Value.shape)) (f.run args s).1 := by
  rw [run_eq]
  cases f, args, h using accepted_cases with
  | pointwise g v => exact agrees_pointwise g v
  | vec d args h => exact agrees_vector h
  | length v => exact agrees_length v
  | normalize v => exact agrees_normalize v
  | dot v w => exact agrees_dot v w
  | cross v w => exact agrees_cross v w
  | mix v w a => exact agrees_mix v w a
  | identity d => exact agrees_matrix_nil d
  | mat d v => exact agrees_matrix d v
  | scale m v => exact agrees_scale m v
  | rotate m x v => exact agrees_rotate m x v
  | translate m v => exact agrees_translate m v
  | invTranspose m => exact agrees_invTranspose m
  | perspective x y z w => exact agrees_perspective x y z w
  | ortho x y z w => exact agrees_ortho x y z w
  | rand v => exact agrees_rand v s
  | negate v => exact agrees_negate v
  | factorial v => exact agrees_factorial v

/-- A call is refused for the number of its arguments before the function looks at them. -/
theorem agrees_call (f : Function) (args : List Value) (s : σ) :
    Agrees (f.shape? (args.map Value.shape)) (f.call args s).1 := by
  rw [call_eq]
  split
  · next h => exact f.agrees_run h s
  · next h =>
    refine .of_none ?_
    cases hs : f.shape? (args.map Value.shape) with
    | none => rfl
    | some t =>
      have haccepts := accepts_of_shape? hs
      rw [List.length_map] at haccepts
      exact absurd haccepts h

end Function
end MatrixCalc
