import MatrixCalc.Proofs.Except

/-!
# Calculations that fail or are refused

An attempt fails with an error of the calculator, or has a value, unless one of its accesses is
refused. An attempt without accesses is a calculation that may fail, and one attempt after the
other is one calculation after the other.
-/
namespace MatrixCalc.Checked

abbrev Attempt (ε : Type) := ExceptT ε Option

namespace Attempt

variable {ε α β : Type}

/-- The attempt that needs no access. -/
def of (x : Except ε α) : Attempt ε α := ExceptT.mk (some x)

@[simp] theorem run_of (x : Except ε α) : (of x).run = some x := rfl

theorem some_bind (a : α) (f : α → Attempt ε β) : liftM (some a) >>= f = f a := rfl

theorem ok_bind (a : α) (f : α → Attempt ε β) : of (.ok a) >>= f = f a := rfl

theorem bind_eq {x : Except ε α} {f : α → Attempt ε β} {g : α → Except ε β}
    (h : ∀ a, x = .ok a → f a = of (g a)) : of x >>= f = of (x >>= g) := by
  cases x with
  | ok a => exact h a rfl
  | error e => rfl

/-- The attempt is not refused, and its value or its error has its property. -/
def Yields (P : α → Prop) (E : ε → Prop) (x : Attempt ε α) : Prop :=
  ∃ result, x = of result ∧ Ensures P E result

namespace Yields

variable {P : α → Prop} {Q : β → Prop} {E : ε → Prop}

theorem pure {a : α} (h : P a) : Yields P E (Pure.pure a : Attempt ε α) := ⟨.ok a, rfl, h⟩

theorem throw {e : ε} (h : E e) : Yields P E (MonadExcept.throw e : Attempt ε α) :=
  ⟨.error e, rfl, h⟩

theorem lift {x : Except ε α} (h : Ensures P E x) : Yields P E (liftM x : Attempt ε α) := by
  refine ⟨x, ?_, h⟩
  cases x <;> rfl

theorem bind {x : Attempt ε α} {f : α → Attempt ε β} (hx : Yields P E x)
    (hf : ∀ a, P a → Yields Q E (f a)) : Yields Q E (x >>= f) := by
  obtain ⟨result, rfl, h⟩ := hx
  cases result with
  | ok a => exact hf a h
  | error e => exact ⟨.error e, rfl, h⟩

theorem map {x : Attempt ε α} {f : α → β} (hx : Yields P E x) (hf : ∀ a, P a → Q (f a)) :
    Yields Q E (f <$> x) := by
  obtain ⟨result, rfl, h⟩ := hx
  cases result with
  | ok a => exact ⟨.ok (f a), rfl, hf a h⟩
  | error e => exact ⟨.error e, rfl, h⟩

end Yields

end Attempt
end MatrixCalc.Checked
