import MatrixCalc.Binary64.Basic

/-!
# Multiply and add with one rounding

`fusedMulAdd x y z` is `x * y + z` computed exactly and rounded once.
-/
namespace MatrixCalc.Binary64

open Float.Model.UnpackedFloat (Sign)

/-- The sum of two dyadic rationals, brought to the smaller exponent and rounded once. An exact
zero is positive. -/
def nearestSum (n e n' e' : Int) : Float :=
  let low := min e e'
  nearest (n * Nat.pow 2 (e - low).toNat + n' * Nat.pow 2 (e' - low).toNat) low .positive

/-- `x * y + z` with one rounding. Where a factor is zero or not finite the product alone is
exact, and where only `z` is not finite the product does not matter. -/
def fusedMulAdd (x y z : Float) : Float :=
  match parts x, parts y with
  | .finite s m e _, .finite s' m' e' _ =>
    let product := (s * s').apply (m * m' : Nat)
    match parts z with
    | .finite s₃ m₃ e₃ _ => nearestSum product (e + e') (s₃.apply m₃) e₃
    | .zero _ => nearest product (e + e') .positive
    | _ => z
  | _, _ => x * y + z

end MatrixCalc.Binary64
