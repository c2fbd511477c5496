import MatrixCalc.Binary64.Basic

/-!
# The shortest decimal of a binary number

A finite number stands for the interval of reals that round to it. Among the decimals in
that interval `shortest` takes one with the fewest digits, and of those the nearest to the
number. All comparisons are between natural numbers.
-/
namespace MatrixCalc.Decimal

structure Scaled where
  coefficient : Nat
  exponent : Int
  deriving DecidableEq

/-- The number of decimal digits; zero has none. -/
def digitCount (n : Nat) : Nat := if n = 0 then 0 else (Nat.toDigits 10 n).length

/-- Three points of the real line in units of `2 ^ (e - 2)`: the number `m * 2 ^ e` and the ends
of the interval that rounds to it. The ends belong to the interval when `m` is even. -/
structure Interval where
  low : Nat
  value : Nat
  high : Nat
  closed : Bool

/-- The interval of `m * 2 ^ e`. Below a power of two the next number is only half as far. -/
def Interval.around (m : Nat) (e : Int) : Interval where
  low := if m = Nat.pow 2 52 ∧ -1074 < e then 4 * m - 1 else 4 * m - 2
  value := 4 * m
  high := 4 * m + 2
  closed := m % 2 == 0

/-- Whether a point lies in the interval when one unit of the interval counts `unit`. -/
def Interval.holds (i : Interval) (unit point : Nat) : Bool :=
  if i.closed then i.low * unit ≤ point && point ≤ i.high * unit
  else i.low * unit < point && point < i.high * unit

/-- The multiple of `10 ^ k` in the interval around `m * 2 ^ e`, if there is one. Only the two
neighbours of the number can be nearest to it; of two equally near ones the larger is taken. -/
def onGrid (m : Nat) (e k : Int) : Option Nat :=
  let i := Interval.around m e
  let unit := Nat.pow 2 (e - 2).toNat * Nat.pow 10 (-k).toNat
  let step := Nat.pow 10 k.toNat * Nat.pow 2 (2 - e).toNat
  let below := i.value * unit / step
  match i.holds unit (below * step), i.holds unit ((below + 1) * step) with
  | true, true => if 2 * (i.value * unit) < (2 * below + 1) * step then some below
                  else some (below + 1)
  | true, false => some below
  | false, true => some (below + 1)
  | false, false => none

/-- The exponent `p` with `10 ^ (p - 1) ≤ m * 2 ^ e < 10 ^ p`. -/
def magnitude (m : Nat) (e : Int) : Int :=
  let numerator := m * Nat.pow 2 e.toNat
  let denominator := Nat.pow 2 (-e).toNat
  if denominator ≤ numerator then digitCount (numerator / denominator)
  else 1 - digitCount ((denominator - 1) / numerator)

/-- Seventeen digits always suffice, so the last grid is never passed by. -/
def shortest (m : Nat) (e : Int) : Scaled :=
  let p := magnitude m e
  let attempt (digits : Nat) : Option Scaled :=
    (onGrid m e (p - digits)).map fun c => ⟨c, p - digits⟩
  ((List.range 17).findSome? fun n => attempt (n + 1)).getD ⟨m, e⟩

end MatrixCalc.Decimal
