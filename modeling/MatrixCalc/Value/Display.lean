import MatrixCalc.Binary64.Integral
import MatrixCalc.Value.Basic

/-!
# Results as text

A result is rounded to a number of decimals, a half going away from zero, and each number is
then written in its shortest form. A vector is written in parentheses, a matrix as one such
row per line.
-/
namespace MatrixCalc

namespace Display

def defaultPrecision : Nat := 3

/-- The largest number of decimals that is honoured. -/
def maxPrecision : Nat := 15

/-- The power of ten that moves the kept decimals in front of the point. -/
def factor (precision : Nat) : Float := Float.ofNat (Nat.pow 10 (min precision maxPrecision))

/-- Rounds to a number of decimals; a zero loses its sign. -/
def round (x : Float) (precision : Nat) : Float :=
  let rounded := Binary64.roundHalfAway (x * factor precision) / factor precision
  if rounded == 0 then 0 else rounded

def number (precision : Nat) (x : Float) : Text := Decimal.text (round x precision)

def commaSeparated : List Text → Text
  | [] => []
  | [t] => t
  | t :: ts => t ++ ',' :: ' ' :: commaSeparated ts

def row (precision : Nat) (xs : List Float) : Text :=
  '(' :: ' ' :: commaSeparated (xs.map (number precision)) ++ [' ', ')']

def lines : List Text → Text
  | [] => []
  | [t] => t
  | t :: ts => t ++ '\n' :: lines ts

end Display

def Value.display (precision : Nat) : Value → Text
  | scalar x => Display.number precision x
  | vector v => Display.row precision v.toList
  | matrix m => Display.lines (m.rows.map (Display.row precision))

end MatrixCalc
