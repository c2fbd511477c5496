import MatrixCalc.Eval.Tree

/-!
# How deep evaluation recurs

Evaluation calls itself on the operands of an operator and on the arguments of a call. `evalWithin`
is evaluation that is cut off, without any result, where more calls of itself would be open than
it may have. Evaluation is never cut off when it may have one call more than the tree is high.
-/
namespace MatrixCalc

variable {σ : Type}

/-- A calculation that may also be cut off. -/
abbrev Bounded (σ : Type) := ExceptT CalcError (StateT σ Option)

/-- The calculation as one that is not cut off. -/
def Calc.whole {α : Type} (x : Calc σ α) : Bounded σ α := fun s => some (x s)

theorem Calc.whole_pure {α : Type} (a : α) : Calc.whole (σ := σ) (pure a) = pure a := rfl

theorem Calc.whole_bind {α β : Type} (x : Calc σ α) (f : α → Calc σ β) :
    (x >>= f).whole = x.whole >>= fun a => (f a).whole := by
  funext s
  rcases h : x s with ⟨result, t⟩
  simp only [whole, bind, ExceptT.bind, ExceptT.bindCont, ExceptT.mk, StateT.bind, Option.bind, h]
  cases result <;> rfl

variable [RandomSource σ]

namespace Expr

mutual

/-- Evaluation in which at most so many calls of itself are open together. -/
def evalWithin : Nat → Expr → Bounded σ Value
  | 0, _ => fun _ => none
  | _ + 1, literal v => return v
  | n + 1, binary op l r => do
    let left ← evalWithin n l
    let right ← evalWithin n r
    Calc.whole (.ofExcept (op.values left right))
  | n + 1, call f args => do
    let values ← evalAllWithin n args
    (f.call values).whole

def evalAllWithin : Nat → List Expr → Bounded σ (List Value)
  | _, [] => return []
  | n, e :: es => do
    let v ← evalWithin n e
    let vs ← evalAllWithin n es
    return v :: vs

end

mutual

theorem evalWithin_of_height_lt (e : Expr) {n : Nat} (h : e.height < n) :
    e.evalWithin n = (e.eval : Calc σ Value).whole := by
  obtain ⟨n, rfl⟩ : ∃ k, n = k + 1 := ⟨n - 1, by omega⟩
  cases e with
  | literal v => rfl
  | binary op l r =>
    have hmax : max l.height r.height < n := Nat.lt_of_succ_lt_succ h
    have hl := evalWithin_of_height_lt l (n := n) (by omega)
    have hr := evalWithin_of_height_lt r (n := n) (by omega)
    rw [evalWithin, eval, hl, hr, Calc.whole_bind]
    simp only [Calc.whole_bind]
  | call f args =>
    have hargs := evalAllWithin_of_heightAll_lt args (Nat.lt_of_succ_lt_succ h)
    rw [evalWithin, eval, hargs, Calc.whole_bind]

theorem evalAllWithin_of_heightAll_lt (es : List Expr) {n : Nat} (h : heightAll es < n) :
    evalAllWithin n es = (evalAll es : Calc σ (List Value)).whole := by
  cases es with
  | nil => rfl
  | cons e es =>
    have hmax : max e.height (heightAll es) < n := h
    have he := evalWithin_of_height_lt e (n := n) (by omega)
    have hes := evalAllWithin_of_heightAll_lt es (n := n) (by omega)
    rw [evalAllWithin, evalAll, he, hes, Calc.whole_bind]
    simp only [Calc.whole_bind, Calc.whole_pure]

end

end Expr
end MatrixCalc
