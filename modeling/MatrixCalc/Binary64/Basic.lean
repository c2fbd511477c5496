/-!
# Numbers as exact dyadic rationals

A finite number is a sign, a significand and a power of two. Going to these parts and back
by one rounding gives the exact operations that the arithmetic of the processor does not offer.
-/
namespace MatrixCalc.Binary64

open Float.Model (UnpackedFloat Format)
open Float.Model.UnpackedFloat (Sign)

/-- Sign, significand and exponent of a number; a zero and an infinity have a sign only. -/
def parts (x : Float) : UnpackedFloat := x.toModel.unpack

def ofParts (u : UnpackedFloat) : Float := .ofModel (.pack u)

/-- The number nearest to `n * 2 ^ e`, a tie going to the even significand. An exact zero
takes the sign `zero`. -/
def nearest (n e : Int) (zero : Sign) : Float :=
  ofParts (UnpackedFloat.normalize Format.binary64 n e zero)

/-- The sign bit; a NaN counts as positive. -/
def sign (x : Float) : Sign :=
  match parts x with
  | .infinity s => s
  | .notANumber => .positive
  | .zero s => s
  | .finite s _ _ _ => s

end MatrixCalc.Binary64
