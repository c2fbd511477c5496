/-!
# Binary operators

The six operators between two operands and the three levels on which they bind.
-/
namespace MatrixCalc

/-- How tightly an operator binds: sums least, powers most. -/
inductive Level where
  | sum
  | product
  | power
  deriving DecidableEq

inductive Operator where
  | add
  | sub
  | mul
  | div
  | mod
  | pow
  deriving DecidableEq

namespace Operator

def level : Operator → Level
  | add | sub => .sum
  | mul | div | mod => .product
  | pow => .power

def symbol : Operator → Char
  | add => '+'
  | sub => '-'
  | mul => '*'
  | div => '/'
  | mod => '%'
  | pow => '^'

def all : List Operator := [add, sub, mul, div, mod, pow]

def ofSymbol? (c : Char) : Option Operator := all.find? fun op => op.symbol == c

theorem ofSymbol?_symbol (op : Operator) : ofSymbol? op.symbol = some op := by
  cases op <;> decide

end Operator
end MatrixCalc
