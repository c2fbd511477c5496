import MatrixCalc.Proofs.Eval.FunctionShapes

/-!
# Shapes of expressions

An expression has a shape when its parts have shapes between which its operator, or for which its
function, is defined. Evaluation agrees with it, whatever the literals are and whatever numbers
the source of random numbers gives.
-/
namespace MatrixCalc

namespace Expr

mutual

def shape? : Expr → Option Shape
  | literal v => some v.shape
  | binary op l r => do op.shape? (← l.shape?) (← r.shape?)
  | call f args => do f.shape? (← shapes? args)

def shapes? : List Expr → Option (List Shape)
  | [] => some []
  | e :: es => do return (← e.shape?) :: (← shapes? es)

end

end Expr

theorem Calc.bind_of_ok {σ α β : Type} {x : Calc σ α} {f : α → Calc σ β} {s t : σ} {a : α}
    (h : x s = (.ok a, t)) : (x >>= f) s = f a t := by
  change ExceptT.bindCont f (x s).1 (x s).2 = _
  rw [h]
  rfl

theorem Calc.bind_of_error {σ α β : Type} {x : Calc σ α} {f : α → Calc σ β} {s t : σ}
    {e : CalcError} (h : x s = (.error e, t)) : (x >>= f) s = (.error e, t) := by
  change ExceptT.bindCont f (x s).1 (x s).2 = _
  rw [h]
  rfl

/-- What is foretold of a part foretells the whole: an error of the part ends it, and a value goes
on with an entry of its own. -/
theorem Foretells.calc_bind {σ α α' β β' : Type} {shape : α → β} {shape' : α' → β'}
    {part : Option β'} {entry : β' → Option β} {x : Calc σ α'} {f : α' → Calc σ α} {s : σ}
    (hx : Foretells shape' part (x s).1)
    (hf : ∀ a t, Foretells shape (entry (shape' a)) (f a t).1) :
    Foretells shape (part >>= entry) ((x >>= f) s).1 := by
  rcases h : x s with ⟨result, t⟩
  rw [h] at hx
  cases result with
  | error e =>
    rw [Calc.bind_of_error h]
    refine hx.error_of_part ?_
    rintro rfl
    rfl
  | ok a =>
    rw [Calc.bind_of_ok h, hx.entry_eq]
    exact hf a t

namespace Expr

variable {σ : Type} [RandomSource σ]

mutual

theorem agrees_eval : (e : Expr) → (s : σ) → Agrees e.shape? (e.eval s).1
  | literal v, s => by
    rw [shape?, eval]
    exact .value v
  | binary op l r, s => by
    rw [shape?, eval]
    refine .calc_bind (agrees_eval l s) fun v t => ?_
    exact .calc_bind (agrees_eval r t) fun w _ => op.agrees_values v w
  | call f args, s => by
    rw [shape?, eval]
    exact .calc_bind (agrees_evalAll args s) f.agrees_call

theorem agrees_evalAll : (es : List Expr) → (s : σ) → AgreesAll (shapes? es) (evalAll es s).1
  | [], s => by
    rw [shapes?, evalAll]
    exact .value []
  | e :: es, s => by
    rw [shapes?, evalAll]
    refine .calc_bind (agrees_eval e s) fun v t => ?_
    exact .calc_bind (agrees_evalAll es t) fun vs _ => .value (v :: vs)

end

end Expr

/-- An expression with a static shape has a value of that shape or an error that hangs on the
numbers in it; an expression without one has an error. -/
theorem evaluation_keeps_shapes {σ : Type} [RandomSource σ] (e : Expr) (s : σ) :
    (∀ shape, e.shape? = some shape →
      (∃ v, (e.eval.run s).1 = .ok v ∧ v.shape = shape) ∨
        ∃ err, (e.eval.run s).1 = .error err ∧ err.OfNumbers) ∧
    (e.shape? = none → ∃ err, (e.eval.run s).1 = .error err) := by
  have h : Agrees e.shape? (e.eval.run s).1 := e.agrees_eval s
  generalize (e.eval.run s).1 = result at h
  generalize e.shape? = entry at h
  cases h with
  | value v =>
    refine ⟨?_, nofun⟩
    rintro shape ⟨⟩
    exact .inl ⟨v, rfl, rfl⟩
  | ofNumbers h =>
    refine ⟨?_, nofun⟩
    intro shape _
    exact .inr ⟨_, rfl, h⟩
  | refused => exact ⟨nofun, fun _ => ⟨_, rfl⟩⟩

/-- A matrix of size `d` applied to the vector `(1, 2)` over a random number, which may be zero. -/
def Expr.appliedToPair (d : Dim) : Expr :=
  .binary .mul (.call (.mat d) [])
    (.binary .div (.call (.vec .two) [.number 1, .number 2]) (.call .rand [.number 3]))

/-- A matrix of size two applies to the vector, unless the random number is a zero. A matrix of size
three does not apply. -/
theorem evaluation_keeps_shapes_of_appliedToPair :
    (Expr.appliedToPair .two).shape? = some (.vec .two) ∧
      (Expr.appliedToPair .three).shape? = none ∧
      (∃ v, ((Expr.appliedToPair .two).eval.run (Seeded.ofSeed 0)).1 = .ok v ∧
        v = .vector ⟨.two, 1, 2, 0, 0⟩ ∧ v.shape = .vec .two) ∧
      (∃ err, ((Expr.appliedToPair .two).eval.run (Seeded.ofSeed 3)).1 = .error err ∧
        err = .divisionByZero ∧ err.OfNumbers) ∧
      ∃ err, ((Expr.appliedToPair .three).eval.run (Seeded.ofSeed 0)).1 = .error err := by
  have htwo : (Expr.appliedToPair .two).shape? = some (.vec .two) := by decide
  have hthree : (Expr.appliedToPair .three).shape? = none := by decide
  have hvalue : ((Expr.appliedToPair .two).eval.run (Seeded.ofSeed 0)).1 =
      .ok (.vector ⟨.two, 1, 2, 0, 0⟩) := rfl
  have hzero : ((Expr.appliedToPair .two).eval.run (Seeded.ofSeed 3)).1 =
      .error .divisionByZero := rfl
  obtain ⟨shaped, -⟩ := evaluation_keeps_shapes (.appliedToPair .two) (Seeded.ofSeed 0)
  obtain ⟨failing, -⟩ := evaluation_keeps_shapes (.appliedToPair .two) (Seeded.ofSeed 3)
  obtain ⟨-, refused⟩ := evaluation_keeps_shapes (.appliedToPair .three) (Seeded.ofSeed 0)
  refine ⟨htwo, hthree, ?_, ?_, refused hthree⟩
  · obtain ⟨v, hv, hshape⟩ | ⟨err, herr, -⟩ := shaped _ htwo
    · exact ⟨v, hv, Except.ok.inj (hv.symm.trans hvalue), hshape⟩
    · cases hvalue.symm.trans herr
  · obtain ⟨v, hv, -⟩ | ⟨err, herr, hnumbers⟩ := failing _ htwo
    · cases hzero.symm.trans hv
    · exact ⟨err, herr, Except.error.inj (herr.symm.trans hzero), hnumbers⟩

end MatrixCalc
