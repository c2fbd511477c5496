import Mathlib.Data.List.Forall2
import MatrixCalc.Proofs.Eval.FunctionShapes
import MatrixCalc.Proofs.Value.Components

/-!
# Calculation component by component

Arithmetic between a number and a shaped value looks for a zero divisor once, over the whole
block, and then calculates without a check; the real functions and mixing go straight to the
components. All of this is the calculation on numbers lifted to components (`Lifts`): it succeeds
exactly where every number succeeds, keeps the shape, and otherwise has the error of a number.
-/
namespace MatrixCalc

/-- The result is `f` taken part by part: of the given shape, with the value of `f` at each part
in the place of that part. It fails as soon as `f` fails at a part, with that error. -/
structure Lifts {ι : Type} (shape : Shape) (parts : List ι) (f : ι → Except CalcError Value)
    (result : Except CalcError Value) : Prop where
  succeeds : (∃ v, result = .ok v) ↔ ∀ c ∈ parts, ∃ y, f c = .ok (.scalar y)
  shaped : ∀ v, result = .ok v → v.shape = shape
  cells : ∀ v, result = .ok v → List.Forall₂ (fun c y => f c = .ok (.scalar y)) parts v.cells
  fails : ∀ c ∈ parts, ∀ e, f c = .error e → result = .error e

namespace Lifts

variable {ι : Type} {shape : Shape} {parts : List ι} {f : ι → Except CalcError Value}

theorem of_ok {v : Value} (hshape : v.shape = shape) (g : ι → Float)
    (hcells : v.cells = parts.map g) (hf : ∀ c ∈ parts, f c = .ok (.scalar (g c))) :
    Lifts shape parts f (.ok v) where
  succeeds := ⟨fun _ c hc => ⟨g c, hf c hc⟩, fun _ => ⟨v, rfl⟩⟩
  shaped := by
    rintro _ ⟨⟩
    exact hshape
  cells := by
    rintro _ ⟨⟩
    rw [hcells, List.forall₂_map_right_iff, List.forall₂_same]
    exact hf
  fails c hc e he := by
    rw [hf c hc] at he
    cases he

theorem of_error {e : CalcError} (hsome : ∃ c ∈ parts, f c = .error e)
    (hsole : ∀ c ∈ parts, ∀ e', f c = .error e' → e' = e) : Lifts shape parts f (.error e) where
  succeeds := by
    refine ⟨nofun, fun hall => ?_⟩
    obtain ⟨c, hc, he⟩ := hsome
    obtain ⟨y, hy⟩ := hall c hc
    rw [he] at hy
    cases hy
  shaped := nofun
  cells := nofun
  fails c hc e' he' := by rw [hsole c hc e' he']

end Lifts

namespace Operator

variable {op : Operator}

/-- Among the operators that broadcast, only division looks at its operands. -/
theorem scalars_of_broadcasts (hop : op.broadcasts = true) (x y : Float) :
    op.scalars x y =
      if op = div ∧ y == 0 then .error .divisionByZero else .ok (op.number x y) := by
  cases op with
  | add | sub | mul => rfl
  | div => simp [scalars]
  | mod | pow => cases hop

theorem eq_divisionByZero_of_scalars (hop : op.broadcasts = true) {x y : Float} {e : CalcError}
    (h : (op.scalars x y).map Value.scalar = .error e) : e = .divisionByZero := by
  rw [scalars_of_broadcasts hop] at h
  split at h <;> cases h
  rfl

/-- With a number on the left the divisors are the components of the other operand. -/
theorem values_scalar_left (hop : op.broadcasts = true) (s : Float) (x : Value) :
    op.values (.scalar s) x =
      if op = div ∧ x.cells.any (· == 0) then .error .divisionByZero
      else .ok (x.map (op.number s)) := by
  cases x with
  | scalar y =>
    have hany : [y].any (· == 0) = (y == 0) := Bool.or_false _
    rw [values, scalars_of_broadcasts hop, Value.cells, hany, apply_ite (Except.map _)]
    rfl
  | vector v => simp [values, broadcast, hop]
  | matrix m => simp [values, broadcast, hop]

/-- With a number on the right that number is the only divisor. -/
theorem values_scalar_right (hop : op.broadcasts = true) (x : Value) (s : Float) :
    op.values x (.scalar s) =
      if op = div ∧ s == 0 then .error .divisionByZero
      else .ok (x.map fun c => op.number c s) := by
  cases x with
  | scalar y =>
    rw [values, scalars_of_broadcasts hop, apply_ite (Except.map _)]
    rfl
  | vector v => simp [values, broadcast, hop, Value.cells]
  | matrix m => simp [values, broadcast, hop, Value.cells]

theorem values_scalar_left_lifts (hop : op.broadcasts = true) (s : Float) (x : Value) :
    Lifts x.shape x.cells (fun c => (op.scalars s c).map .scalar) (op.values (.scalar s) x) := by
  rw [values_scalar_left hop]
  split
  · next h =>
    obtain ⟨hdiv, hany⟩ := h
    obtain ⟨c, hc, hzero⟩ := List.any_eq_true.1 hany
    refine .of_error ⟨c, hc, ?_⟩ fun _ _ _ => eq_divisionByZero_of_scalars hop
    rw [scalars_of_broadcasts hop, if_pos ⟨hdiv, hzero⟩]
    rfl
  · next h =>
    refine .of_ok (x.shape_map _) (op.number s) (x.cells_map _) fun c hc => ?_
    have hnonzero : ¬ (op = div ∧ c == 0) := fun hzero =>
      h ⟨hzero.1, List.any_eq_true.2 ⟨c, hc, hzero.2⟩⟩
    rw [scalars_of_broadcasts hop, if_neg hnonzero]
    rfl

theorem values_scalar_right_lifts (hop : op.broadcasts = true) (x : Value) (s : Float) :
    Lifts x.shape x.cells (fun c => (op.scalars c s).map .scalar) (op.values x (.scalar s)) := by
  rw [values_scalar_right hop]
  split
  · next h =>
    -- A zero divisor is refused at every component, and there is one.
    obtain ⟨c, hc⟩ := List.exists_mem_of_ne_nil _ x.cells_ne_nil
    refine .of_error ⟨c, hc, ?_⟩ fun _ _ _ => eq_divisionByZero_of_scalars hop
    rw [scalars_of_broadcasts hop, if_pos h]
    rfl
  · next h =>
    refine .of_ok (x.shape_map _) (op.number · s) (x.cells_map _) fun c _ => ?_
    rw [scalars_of_broadcasts hop, if_neg h]
    rfl

theorem broadcasts_of_mem : ∀ op ∈ [add, sub, mul, div], op.broadcasts = true := by decide

theorem level_of_mem : ∀ op ∈ [add, sub], op.level = .sum := by decide

theorem broadcasts_of_sum (h : op.level = .sum) : op.broadcasts = true := by
  cases op <;> first | rfl | cases h

/-- Sums have no domain to check. -/
theorem scalars_of_sum (h : op.level = .sum) (x y : Float) :
    op.scalars x y = .ok (op.number x y) := by
  rw [scalars_of_broadcasts (broadcasts_of_sum h), if_neg]
  rintro ⟨rfl, -⟩
  cases h

theorem values_vectors_lifts (hop : op.level = .sum) {v w : Vec Float} (hdim : v.dim = w.dim) :
    Lifts (.vec v.dim) (v.toList.zip w.toList) (fun p => (op.scalars p.1 p.2).map .scalar)
      (op.values (.vector v) (.vector w)) := by
  rw [values, vectors, if_neg (not_not.2 hop), if_neg (not_not.2 hdim)]
  refine .of_ok rfl (fun p => op.number p.1 p.2) (Vec.toList_zipWith op.number hdim) fun p _ => ?_
  rw [scalars_of_sum hop]
  rfl

end Operator

namespace Builtin

theorem map_lifts (g : Float → Float) (x : Value) :
    Lifts x.shape x.cells (fun c => .ok (.scalar (g c))) (.ok (x.map g)) :=
  .of_ok (x.shape_map g) g (x.cells_map g) fun _ _ => rfl

theorem mix_scalar {x y : Value} (h : x.shape = y.shape) (a : Float) :
    Lifts x.shape (x.cells.zip y.cells) (fun p => .ok (.scalar (between a p.1 p.2)))
      (mix [x, y, .scalar a]) := by
  cases x with
  | scalar x =>
    cases y with
    | scalar y => exact .of_ok rfl (fun p => between a p.1 p.2) rfl fun _ _ => rfl
    | vector | matrix => cases h
  | vector v =>
    cases y with
    | vector w =>
      have hdim : v.dim = w.dim := Shape.vec.inj h
      have hmix : mix [.vector v, .vector w, .scalar a] = .ok (.vector (v.zipWith (between a) w)) :=
        if_pos hdim
      rw [hmix]
      exact .of_ok rfl _ (Vec.toList_zipWith (between a) hdim) fun _ _ => rfl
    | scalar | matrix => cases h
  | matrix m =>
    cases y with
    | matrix n =>
      have hdim : m.dim = n.dim := Shape.mat.inj h
      have hmix : mix [.matrix m, .matrix n, .scalar a] = .ok (.matrix (m.zipWith (between a) n)) :=
        if_pos hdim
      rw [hmix]
      exact .of_ok rfl _ (Mat.flatten_rows_zipWith (between a) hdim) fun _ _ => rfl
    | scalar | vector => cases h

/-- A weight that is no number is refused before the shapes are looked at. -/
theorem mix_of_weight {a : Value} {e : CalcError} (h : Function.mix.scalarArg 3 a = .error e)
    (x y : Value) : mix [x, y, a] = .error e := by
  rw [mix, h]
  rfl

theorem mix_lifts {x y : Value} (h : x.shape = y.shape) (a : Value) :
    Lifts x.shape (x.cells.zip y.cells) (fun p => mix [.scalar p.1, .scalar p.2, a])
      (mix [x, y, a]) := by
  have hparts : x.cells.zip y.cells ≠ [] := fun hnil =>
    (List.zip_eq_nil_iff.1 hnil).elim x.cells_ne_nil y.cells_ne_nil
  obtain ⟨p, hp⟩ := List.exists_mem_of_ne_nil _ hparts
  cases hweight : Function.mix.scalarArg 3 a with
  | ok w =>
    obtain rfl := Function.eq_scalar_of_scalarArg hweight
    exact mix_scalar h w
  | error e =>
    rw [mix_of_weight hweight]
    refine .of_error ⟨p, hp, mix_of_weight hweight _ _⟩ fun q _ e' he => ?_
    rw [mix_of_weight hweight] at he
    cases he
    rfl

end Builtin

/-- Shaped arithmetic, the real functions and mixing are the calculation on numbers taken
component by component. In sums, products and quotients with a number, the only error is a division
by zero. -/
theorem arithmetic_componentwise :
    (∀ op ∈ [Operator.add, .sub, .mul, .div], ∀ (s : Float) (x : Value),
      Lifts x.shape x.cells (fun c => (op.scalars s c).map .scalar) (op.values (.scalar s) x) ∧
      Lifts x.shape x.cells (fun c => (op.scalars c s).map .scalar) (op.values x (.scalar s)) ∧
      ∀ e, op.values (.scalar s) x = .error e ∨ op.values x (.scalar s) = .error e →
        e = .divisionByZero) ∧
    (∀ op ∈ [Operator.add, .sub], ∀ v w : Vec Float, v.dim = w.dim →
      Lifts (.vec v.dim) (v.toList.zip w.toList) (fun p => (op.scalars p.1 p.2).map .scalar)
        (op.values (.vector v) (.vector w))) ∧
    (∀ x : Value, Lifts x.shape x.cells (fun c => Builtin.negate [.scalar c])
      (Builtin.negate [x])) ∧
    (∀ (f : Pointwise) (x : Value), Lifts x.shape x.cells
      (fun c => Builtin.pointwise f [.scalar c]) (Builtin.pointwise f [x])) ∧
    (∀ x y : Value, x.shape = y.shape → ∀ a : Value, Lifts x.shape (x.cells.zip y.cells)
      (fun p => Builtin.mix [.scalar p.1, .scalar p.2, a]) (Builtin.mix [x, y, a])) := by
  refine ⟨fun op hmem s x => ?_,
    fun op hmem v w => Operator.values_vectors_lifts (Operator.level_of_mem op hmem),
    Builtin.map_lifts _, fun f => Builtin.map_lifts _, fun x y => Builtin.mix_lifts⟩
  have hop := Operator.broadcasts_of_mem op hmem
  refine ⟨Operator.values_scalar_left_lifts hop s x, Operator.values_scalar_right_lifts hop x s, ?_⟩
  rintro e (h | h)
  · rw [Operator.values_scalar_left hop] at h
    split at h <;> cases h
    rfl
  · rw [Operator.values_scalar_right hop] at h
    split at h <;> cases h
    rfl

/-- A NaN and a negative zero, with zeros behind them. -/
def Vec.nanAndZero : Vec Float := ⟨.two, ⟨0 / 0, -0, 0, 0⟩⟩

/-- One divided by the NaN alone has a value; the negative zero beside it makes the quotient fail.
A difference and a mixture take the pair component by component. -/
theorem arithmetic_componentwise_of_nanAndZero :
    (∃ y, Operator.div.scalars 1 (0 / 0) = .ok y) ∧
      Operator.div.values (.scalar 1) (.vector .nanAndZero) = .error .divisionByZero ∧
      Lifts (.vec .two) [(0 / 0, 3), (-0, 4)]
        (fun p => (Operator.sub.scalars p.1 p.2).map .scalar)
        (Operator.sub.values (.vector .nanAndZero) (.vector ⟨.two, ⟨3, 4, 5, 6⟩⟩)) ∧
      Lifts (.vec .two) [(0 / 0, 0 / 0), (-0, -0)]
        (fun p => Builtin.mix [.scalar p.1, .scalar p.2, .scalar 2])
        (Builtin.mix [.vector .nanAndZero, .vector .nanAndZero, .scalar 2]) := by
  obtain ⟨scaled, added, -, -, mixed⟩ := arithmetic_componentwise
  have hzero : -0 ∈ (Value.vector .nanAndZero).cells := .tail _ (.head _)
  have hquotient := (scaled .div (by decide) 1 (.vector .nanAndZero)).1
  exact ⟨⟨_, rfl⟩, hquotient.fails (-0) hzero .divisionByZero (by decide),
    added .sub (by decide) .nanAndZero ⟨.two, ⟨3, 4, 5, 6⟩⟩ rfl,
    mixed (.vector .nanAndZero) (.vector .nanAndZero) rfl (.scalar 2)⟩

end MatrixCalc
