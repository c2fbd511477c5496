import MatrixCalc.Value.Basic

/-!
# Expressions

The tree of an expression: literal values, binary operators and calls of functions.
-/
namespace MatrixCalc

inductive Expr where
  | literal (v : Value)
  | binary (op : Operator) (left right : Expr)
  | call (f : Function) (args : List Expr)

namespace Expr

def number (x : Float) : Expr := literal (.scalar x)

def negate (e : Expr) : Expr := call .negate [e]

def factorial (e : Expr) : Expr := call .factorial [e]

mutual

/-- The largest number of operators and calls on a way from the root to a leaf. -/
def height : Expr → Nat
  | literal _ => 0
  | binary _ l r => max l.height r.height + 1
  | call _ args => heightAll args + 1

def heightAll : List Expr → Nat
  | [] => 0
  | e :: es => max e.height (heightAll es)

end

end Expr
end MatrixCalc
