import MatrixCalc.Text
import MatrixCalc.Decimal.Shortest

/-!
# Numbers as text

A number is written with the fewest digits that read back, always positionally: never with an
exponent, a whole number without a point. A zero keeps its sign.
-/
namespace MatrixCalc.Decimal

/-- The digits of `c * 10 ^ k` with a point where `k` is negative. -/
def Scaled.text (d : Scaled) : Text :=
  let digits := Nat.toDigits 10 d.coefficient
  if 0 ≤ d.exponent then digits ++ List.replicate d.exponent.toNat '0'
  else
    let places := (-d.exponent).toNat
    let padded := List.replicate (places + 1 - digits.length) '0' ++ digits
    let whole := padded.take (padded.length - places)
    let fraction := padded.drop (padded.length - places)
    match (fraction.reverse.dropWhile (· == '0')).reverse with
    | [] => whole
    | kept => whole ++ '.' :: kept

def signText : Float.Model.UnpackedFloat.Sign → Text
  | .negative => ['-']
  | .positive => []

def text (x : Float) : Text :=
  match Binary64.parts x with
  | .notANumber => ['N', 'a', 'N']
  | .infinity s => signText s ++ ['i', 'n', 'f']
  | .zero s => signText s ++ ['0']
  | .finite s m e _ => signText s ++ (shortest m e).text

end MatrixCalc.Decimal
