import MatrixCalc.Proofs.Eval.Regularity

/-!
# What the parts of an expression hand on

What the literals of an expression have, and the operators and calls in it hand on, its value has;
and its error is the error of an operator or of a call (`Expr.eval_ensures`). Padding is handed on,
so all values are as they should be in storage.
-/
namespace MatrixCalc

namespace Expr

mutual

def literals : Expr → List Value
  | literal v => [v]
  | binary _ l r => l.literals ++ r.literals
  | call _ args => literalsAll args

def literalsAll : List Expr → List Value
  | [] => []
  | e :: es => e.literals ++ literalsAll es

end

mutual

/-- The functions that are called, each with the number of its arguments. -/
def calls : Expr → List (Function × Nat)
  | literal _ => []
  | binary _ l r => l.calls ++ r.calls
  | call f args => (f, args.length) :: callsAll args

def callsAll : List Expr → List (Function × Nat)
  | [] => []
  | e :: es => e.calls ++ callsAll es

end

end Expr

section Evaluation

variable {σ : Type}

theorem Calc.ensures_bind {α β : Type} {P : α → Prop} {Q : β → Prop} {E : CalcError → Prop}
    {x : Calc σ α} {f : α → Calc σ β} {s : σ} (hx : Ensures P E (x s).1)
    (hf : ∀ a t, P a → Ensures Q E (f a t).1) : Ensures Q E ((x >>= f) s).1 := by
  rcases h : x s with ⟨result, t⟩
  rw [h] at hx
  cases result with
  | error e =>
    rw [Calc.bind_of_error h]
    exact hx
  | ok a =>
    rw [Calc.bind_of_ok h]
    exact hf a t hx

variable [RandomSource σ]

/-- A call of the function `c.1` with `c.2` arguments hands on what the arguments have, or fails
with an error that has its property. -/
def HandsOn (σ : Type) [RandomSource σ] (P : Value → Prop) (E : CalcError → Prop)
    (c : Function × Nat) : Prop :=
  ∀ args : List Value, args.length = c.2 → (∀ v ∈ args, P v) →
    ∀ s : σ, Ensures P E (c.1.call args s).1

namespace Expr

variable {P : Value → Prop} {E : CalcError → Prop}

mutual

/-- A property of values is handed up from the literals, and a property of errors from where they
arise. -/
theorem eval_ensures (hop : ∀ (op : Operator) v w, P v → P w → Ensures P E (op.values v w)) :
    (e : Expr) → (∀ v ∈ e.literals, P v) → (∀ c ∈ e.calls, HandsOn σ P E c) →
      ∀ s : σ, Ensures P E (e.eval s).1
  | literal v, hlit, _, s => by
    rw [eval]
    exact hlit v (List.mem_singleton_self v)
  | binary op l r, hlit, hcall, s => by
    rw [literals, List.forall_mem_append] at hlit
    rw [calls, List.forall_mem_append] at hcall
    rw [eval]
    refine Calc.ensures_bind (eval_ensures hop l hlit.1 hcall.1 s) ?_
    intro v t hv
    refine Calc.ensures_bind (eval_ensures hop r hlit.2 hcall.2 t) ?_
    exact fun w _ hw => hop op v w hv hw
  | call f args, hlit, hcall, s => by
    rw [calls, List.forall_mem_cons] at hcall
    rw [eval]
    refine Calc.ensures_bind (evalAll_ensures hop args hlit hcall.2 s) ?_
    exact fun vs t hvs => hcall.1 vs hvs.1 hvs.2 t

theorem evalAll_ensures (hop : ∀ (op : Operator) v w, P v → P w → Ensures P E (op.values v w)) :
    (es : List Expr) → (∀ v ∈ literalsAll es, P v) → (∀ c ∈ callsAll es, HandsOn σ P E c) →
      ∀ s : σ, Ensures (fun vs => vs.length = es.length ∧ ∀ v ∈ vs, P v) E (evalAll es s).1
  | [], _, _, s => by
    rw [evalAll]
    exact ⟨rfl, List.forall_mem_nil _⟩
  | e :: es, hlit, hcall, s => by
    rw [literalsAll, List.forall_mem_append] at hlit
    rw [callsAll, List.forall_mem_append] at hcall
    rw [evalAll]
    refine Calc.ensures_bind (eval_ensures hop e hlit.1 hcall.1 s) ?_
    intro v t hv
    refine Calc.ensures_bind (evalAll_ensures hop es hlit.2 hcall.2 t) ?_
    rintro vs _ ⟨hlength, hvs⟩
    exact ⟨congrArg Nat.succ hlength, List.forall_mem_cons.2 ⟨hv, hvs⟩⟩

end

end Expr

end Evaluation

/-- The representation of values: a size from two to four, zeros behind the components of a vector
and the cells of the identity around the block of a matrix. This is equality and not `==`, for
which the two zeros are equal. -/
def Value.Valid : Value → Prop
  | .scalar _ => True
  | .vector v => (2 ≤ v.dim.toNat ∧ v.dim.toNat ≤ 4) ∧ ∀ i : Fin 4, v.dim.toNat ≤ i → v.get i = 0
  | .matrix m => (2 ≤ m.dim.toNat ∧ m.dim.toNat ≤ 4) ∧
    ∀ r c : Fin 4, m.dim.toNat ≤ r ∨ m.dim.toNat ≤ c → m.cell r c = if r = c then 1 else 0

example : (0 : Float) ≠ -0.0 ∧ (0 : Float) == -0.0 := by decide

theorem Value.valid_iff (v : Value) : v.Valid ↔ v.Padded := by
  cases v with
  | scalar x => exact Iff.rfl
  | vector v =>
    have hsize := And.intro v.dim.two_le_toNat v.dim.toNat_le_four
    refine (and_iff_right hsize).trans (forall_congr' fun i => ?_)
    rw [Dim.Active, Nat.not_lt]
  | matrix m =>
    have hsize := And.intro m.dim.two_le_toNat m.dim.toNat_le_four
    refine (and_iff_right hsize).trans (forall_congr' fun r => forall_congr' fun c => ?_)
    rw [Mat.Inside, Dim.Active, Dim.Active, not_and_or, Nat.not_lt, Nat.not_lt, Mat.unit]

/-- Evaluation of valid literals gives valid values, whatever the source of random numbers does,
and so do the constructors and operations of vectors and matrices. -/
theorem values_valid {σ : Type} [RandomSource σ] :
    (∀ (e : Expr) (s : σ) (v : Value), (∀ w ∈ e.literals, w.Valid) →
      (e.eval.run s).1 = .ok v → v.Valid) ∧
    (∀ v : Vec Float, v.Built → (Value.vector v).Valid) ∧
    ∀ m : Mat Float, m.Built → (Value.matrix m).Valid := by
  refine ⟨?_, ?_, ?_⟩
  · intro e s v hlit hv
    rw [Value.valid_iff]
    have heval : Ensures Value.Padded (fun _ => True) (e.eval s).1 := by
      apply e.eval_ensures
      · intro op v w hv hw
        refine (op.values_regular v w).mono (fun u hu => hu ?_) fun _ _ => trivial
        simp [hv, hw]
      · exact fun w hw => (Value.valid_iff w).1 (hlit w hw)
      · intro c _ args _ hargs s
        by_cases h : c.1.arity.accepts args.length = true
        · rw [Function.call_eq, if_pos h]
          exact (c.1.run_regular h s).mono (fun u hu => hu hargs) fun _ _ => trivial
        · rw [Function.call_eq, if_neg h]
          trivial
    exact heval.of_ok hv
  · intro v hv
    exact (Value.valid_iff (.vector v)).2 hv.padded
  · intro m hm
    exact (Value.valid_iff (.matrix m)).2 hm.padded

/-- The diagonal of ones of size two, doubled and applied to the zero vector. -/
def Expr.appliedToZero : Expr :=
  .binary .mul (.binary .add (.literal (.matrix (.identity .two))) (.literal (.scalar 2)))
    (.literal (.vector (.zero .two)))

theorem values_valid_of_appliedToZero :
    (∀ w ∈ Expr.appliedToZero.literals, w.Valid) ∧
      (Expr.appliedToZero.eval.run (Seeded.ofSeed 0)).1 =
        .ok (.vector (((Mat.identity .two).map (· + 2)).apply (.zero .two))) ∧
      (Value.vector (((Mat.identity .two).map (· + 2)).apply (.zero .two))).Valid ∧
      (Mat.identity .three : Mat Float).transpose.Built ∧
        (Value.matrix (Mat.identity .three).transpose).Valid := by
  have hlit : ∀ w ∈ Expr.appliedToZero.literals, w.Valid := by
    intro w hw
    rw [Value.valid_iff]
    simp only [Expr.appliedToZero, Expr.literals, List.mem_append, List.mem_singleton] at hw
    rcases hw with (rfl | rfl) | rfl
    · exact Mat.padded_identity .two
    · trivial
    · exact Vec.padded_zero .two
  have heval : (Expr.appliedToZero.eval.run (Seeded.ofSeed 0)).1 =
      .ok (.vector (((Mat.identity .two).map (· + 2)).apply (.zero .two))) := rfl
  have hbuilt : (Mat.identity .three : Mat Float).transpose.Built := .transpose (.identity .three)
  obtain ⟨hvalue, -, hmatrix⟩ := values_valid (σ := Seeded)
  exact ⟨hlit, heval, hvalue _ _ _ hlit heval, hbuilt, hmatrix _ hbuilt⟩

end MatrixCalc
