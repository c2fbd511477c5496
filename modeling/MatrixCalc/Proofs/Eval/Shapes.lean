import MatrixCalc.Eval.Tree

/-!
# Static shapes

The shape of a result is known from the shapes of the operands alone: `Operator.shape?` and
`Function.shape?` are the tables of what is allowed and what comes out. A calculation agrees with
an entry when it gives a value of that shape or an error that hangs on the numbers; where there
is no entry it gives an error. Each operator and each function agrees with its table.
-/
namespace MatrixCalc

/-- The result of arguments that must have exactly these shapes. -/
def Shape.only (wanted : List Shape) (result : Shape) (found : List Shape) : Option Shape :=
  if found = wanted then some result else none

/-- The result of an operator between a number and a value of this shape. -/
def Operator.scaledShape? : Operator → Shape → Option Shape
  | .add, s | .sub, s | .mul, s | .div, s => some s
  | .mod, _ | .pow, _ => none

/-- The shape of the result of an operator, if the operator is defined between the two shapes. -/
def Operator.shape? (op : Operator) : Shape → Shape → Option Shape
  | .scalar, .scalar => some .scalar
  | .scalar, s | s, .scalar => op.scaledShape? s
  | .vec d, .vec e => if (op = .add ∨ op = .sub) ∧ d = e then some (.vec d) else none
  | .mat d, .mat e => if op = .mul ∧ d = e then some (.mat d) else none
  | .mat d, .vec e => if op = .mul ∧ d = e then some (.vec d) else none
  | .vec _, .mat _ => none

/-- The shape of the result of a function, if the function takes arguments of these shapes. -/
def Function.shape? : Function → List Shape → Option Shape
  | .pointwise _, [s] | .negate, [s] => some s
  | .mat d, [] | .mat d, [.scalar] | .mat d, [.mat _] => some (.mat d)
  | .length, [.scalar] | .length, [.vec _] => some .scalar
  | .normalize, [.vec d] => some (.vec d)
  | .dot, [.vec d, .vec e] => if d = e then some .scalar else none
  | .mix, [s, t, .scalar] => if s = t then some s else none
  | .invTranspose, [.mat d] => some (.mat d)
  | .vec d, found => Shape.only (List.replicate d.toNat .scalar) (.vec d) found
  | .cross, found => Shape.only [.vec .three, .vec .three] (.vec .three) found
  | .scale, found | .translate, found => Shape.only [.mat .four, .vec .three] (.mat .four) found
  | .rotate, found => Shape.only [.mat .four, .scalar, .vec .three] (.mat .four) found
  | .perspective, found | .ortho, found =>
    Shape.only [.scalar, .scalar, .scalar, .scalar] (.mat .four) found
  | .rand, found | .factorial, found => Shape.only [.scalar] .scalar found
  | _, _ => none

/-- The errors that hang on the numbers in the operands and not on their shapes. -/
inductive CalcError.OfNumbers : CalcError → Prop
  | divisionByZero : OfNumbers .divisionByZero
  | fractionalRemainder (x y : Float) : OfNumbers (.fractionalRemainder x y)
  | factorialOfNumber (x : Float) : OfNumbers (.factorialOfNumber x)
  | overflow : OfNumbers .overflow
  | singularMatrix : OfNumbers .singularMatrix
  | zeroAxis : OfNumbers .zeroAxis
  | randomBound (x : Float) : OfNumbers (.randomBound x)

/-- What an entry for the shape of a result says of the result. -/
inductive Foretells {α β : Type} (shape : α → β) : Option β → Except CalcError α → Prop
  | value (a : α) : Foretells shape (some (shape a)) (.ok a)
  | ofNumbers {b : β} {e : CalcError} (h : e.OfNumbers) : Foretells shape (some b) (.error e)
  | refused {e : CalcError} : Foretells shape none (.error e)

abbrev Agrees : Option Shape → Except CalcError Value → Prop := Foretells Value.shape

abbrev AgreesAll : Option (List Shape) → Except CalcError (List Value) → Prop :=
  Foretells (List.map Value.shape)

theorem Shape.only_self (wanted : List Shape) (result : Shape) :
    Shape.only wanted result wanted = some result := if_pos rfl

theorem Shape.only_of_ne {wanted found : List Shape} {result : Shape} (h : found ≠ wanted) :
    Shape.only wanted result found = none := if_neg h

namespace Foretells

variable {α β α' β' γ : Type} {shape : α → β} {shape' : α' → β'} {entry : Option β}

theorem of_shape {a : α} {b : β} (h : shape a = b) : Foretells shape (some b) (.ok a) :=
  h ▸ .value a

theorem of_entry {b : β} {result : Except CalcError α} (he : entry = some b)
    (h : Foretells shape (some b) result) : Foretells shape entry result :=
  he ▸ h

theorem of_none {e : CalcError} (h : entry = none) : Foretells shape entry (.error e) :=
  h ▸ .refused

theorem entry_eq {a : α} (h : Foretells shape entry (.ok a)) : entry = some (shape a) := by
  cases h
  rfl

/-- An error in a part ends the whole: it hangs on numbers, or the part has no entry. -/
theorem error_of_part {part : Option β'} {e : CalcError} (h : Foretells shape' part (.error e))
    (hnone : part = none → entry = none) : Foretells shape entry (.error e) := by
  cases h with
  | ofNumbers h =>
    cases entry with
    | none => exact .refused
    | some b => exact .ofNumbers h
  | refused => exact .of_none (hnone rfl)

/-- A calculation that reads an argument first: where the argument is not what the function takes,
there is no entry. -/
theorem bind {arg : Except CalcError γ} {f : γ → Except CalcError α}
    (hok : ∀ c, arg = .ok c → Foretells shape entry (f c))
    (herror : ∀ e, arg = .error e → entry = none) : Foretells shape entry (arg >>= f) := by
  cases harg : arg with
  | ok c => exact hok c harg
  | error e => exact of_none (herror e harg)

end Foretells

namespace Operator

theorem agrees_scalars (op : Operator) (x y : Float) :
    Agrees (some .scalar) ((op.scalars x y).map .scalar) := by
  cases op with
  | div =>
    unfold scalars
    dsimp only
    split
    · exact .ofNumbers .divisionByZero
    · exact .of_shape rfl
  | mod =>
    unfold scalars
    dsimp only
    split
    · exact .ofNumbers (.fractionalRemainder x y)
    · split
      · exact .ofNumbers .divisionByZero
      · exact .of_shape rfl
  | add | sub | mul | pow => exact .of_shape rfl

/-- A number and a shaped value, in either order. -/
theorem agrees_broadcast (op : Operator) {left right v : Value}
    (h : (∃ x, left = .scalar x ∧ right = v) ∨ ∃ y, left = v ∧ right = .scalar y) :
    Agrees (op.scaledShape? v.shape) (op.broadcast left right) := by
  unfold broadcast
  cases hb : op.broadcasts with
  | false => cases op <;> cases hb <;> exact .refused
  | true =>
    have hentry : op.scaledShape? v.shape = some v.shape := by
      cases op with
      | add | sub | mul | div => rfl
      | mod | pow => cases hb
    rw [hentry]
    simp only [Bool.not_true, Bool.false_eq_true, if_false]
    split
    · exact .ofNumbers .divisionByZero
    · rcases h with ⟨x, rfl, rfl⟩ | ⟨y, rfl, rfl⟩
      · exact .of_shape (Value.shape_map ..)
      · cases left with
        | scalar x => exact .of_shape rfl
        | vector | matrix => exact .of_shape (Value.shape_map ..)

theorem agrees_vectors (op : Operator) (v w : Vec Float) :
    Agrees (op.shape? (.vec v.dim) (.vec w.dim)) (op.vectors v w) := by
  have hlevel : op.level = .sum ↔ op = .add ∨ op = .sub := by cases op <;> decide
  unfold vectors
  split
  · next hop => exact .of_none (if_neg fun h => hop (hlevel.2 h.1))
  · next hop =>
    split
    · next hd => exact .of_none (if_neg fun h => hd h.2)
    · next hd =>
      rw [show op.shape? (.vec v.dim) (.vec w.dim) = some (.vec v.dim) from
        if_pos ⟨hlevel.1 (Decidable.not_not.1 hop), Decidable.not_not.1 hd⟩]
      exact .of_shape rfl

/-- A matrix on the left, and no number on the right. -/
theorem agrees_matrices (op : Operator) (m : Mat Float) {right : Value}
    (hright : ∀ y, right ≠ .scalar y) :
    Agrees (op.shape? (.mat m.dim) right.shape) (op.matrices (.matrix m) right) := by
  unfold matrices
  split
  · next hop =>
    refine .of_none ?_
    cases right with
    | scalar y => exact absurd rfl (hright y)
    | vector | matrix => exact if_neg fun h => hop h.1
  · next hop =>
    split
    · next hsize =>
      refine .of_none ?_
      cases right with
      | scalar y => exact absurd rfl (hright y)
      | vector | matrix => exact if_neg fun h => hsize (congrArg Dim.toNat h.2)
    · next hsize =>
      have hmul := Decidable.not_not.1 hop
      cases right with
      | scalar y => exact absurd rfl (hright y)
      | vector v =>
        have hd : m.dim = v.dim := Dim.toNat_injective (Decidable.not_not.1 hsize)
        rw [show op.shape? (.mat m.dim) (Value.vector v).shape = some (.vec m.dim) from
          if_pos ⟨hmul, hd⟩]
        exact .of_shape rfl
      | matrix n =>
        have hd : m.dim = n.dim := Dim.toNat_injective (Decidable.not_not.1 hsize)
        rw [show op.shape? (.mat m.dim) (Value.matrix n).shape = some (.mat m.dim) from
          if_pos ⟨hmul, hd⟩]
        exact .of_shape rfl

theorem agrees_values (op : Operator) (left right : Value) :
    Agrees (op.shape? left.shape right.shape) (op.values left right) := by
  cases left with
  | scalar x =>
    cases right with
    | scalar y => exact op.agrees_scalars x y
    | vector | matrix => exact op.agrees_broadcast (.inl ⟨x, rfl, rfl⟩)
  | vector v =>
    cases right with
    | scalar y => exact op.agrees_broadcast (v := .vector v) (.inr ⟨y, rfl, rfl⟩)
    | vector w => exact op.agrees_vectors v w
    | matrix n => exact .refused
  | matrix m =>
    cases right with
    | scalar y => exact op.agrees_broadcast (v := .matrix m) (.inr ⟨y, rfl, rfl⟩)
    | vector | matrix => exact op.agrees_matrices m (by simp)

end Operator
end MatrixCalc
