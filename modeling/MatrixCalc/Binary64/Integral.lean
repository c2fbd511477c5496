import MatrixCalc.Binary64.Basic

/-!
# Whole numbers among the floats

`whole?` gives the integer that a float is equal to. Range checks, the remainder of a
division and rounding to a whole number are stated on that integer.
-/
namespace MatrixCalc.Binary64

open Float.Model.UnpackedFloat (Sign)

/-- The integer that a number is equal to, if it is a finite whole number. -/
def whole? (x : Float) : Option Int :=
  match parts x with
  | .zero _ => some 0
  | .finite s m e _ =>
    if 0 ≤ e then some (s.apply (m * Nat.pow 2 e.toNat : Nat))
    else if m % Nat.pow 2 (-e).toNat = 0 then some (s.apply (m / Nat.pow 2 (-e).toNat : Nat))
    else none
  | _ => none

def isWhole (x : Float) : Bool := (whole? x).isSome

/-- The largest integer below which every integer is a float of its own. -/
def maxSafe : Nat := Nat.pow 2 53 - 1

/-- The natural number that `x` is equal to, if it does not exceed `maxSafe`. -/
def natural? (x : Float) : Option Nat :=
  match whole? x with
  | some n => if 0 ≤ n ∧ n ≤ maxSafe then some n.toNat else none
  | none => none

def natural32? (x : Float) : Option Nat :=
  match natural? x with
  | some n => if n < Nat.pow 2 32 then some n else none
  | none => none

/-- The remainder of a division that truncates, for whole operands. It has the sign of the
dividend, also where it is zero. -/
def remainder (x y : Float) : Float :=
  match whole? x, whole? y with
  | some a, some b => if b = 0 then 0 / 0 else nearest (a.tmod b) 0 (sign x)
  | _, _ => 0 / 0

/-- The nearest whole number, a half going away from zero. -/
def roundHalfAway (x : Float) : Float :=
  match parts x with
  | .finite s m e _ =>
    if 0 ≤ e then x
    else
      let unit := Nat.pow 2 (-e).toNat
      nearest (s.apply ((m + unit / 2) / unit : Nat)) 0 s
  | _ => x

end MatrixCalc.Binary64
