import MatrixCalc.Text

/-!
# Numerals

A numeral is a run of digits and points. It has a value when it holds a digit and at most one
point; the value is the nearest number. A sign in front of a numeral belongs to it.
-/
namespace MatrixCalc.Decimal

def isNumeralChar (c : Char) : Bool := c.isDigit || c == '.'

def digitValue (c : Char) : Nat := c.toNat - '0'.toNat

/-- The natural number that the digits of a text spell in base ten. -/
def ofDigits (t : Text) : Nat := t.foldl (fun n c => 10 * n + digitValue c) 0

/-- Digits in front of the point and behind it. -/
def splitPoint (t : Text) : Text × Text :=
  (t.takeWhile (· != '.'), (t.dropWhile (· != '.')).drop 1)

def unsignedValue? (t : Text) : Option Float :=
  let (whole, fraction) := splitPoint t
  if t.all isNumeralChar && t.any Char.isDigit && !fraction.contains '.' then
    some (Float.ofScientific (ofDigits (whole ++ fraction)) true fraction.length)
  else none

/-- The value of a numeral that may carry a sign: a minus negates. -/
def value? : Text → Option Float
  | '-' :: t => (unsignedValue? t).map fun x => -x
  | '+' :: t => unsignedValue? t
  | t => unsignedValue? t

end MatrixCalc.Decimal
