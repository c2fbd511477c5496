import MatrixCalc.Text
import MatrixCalc.Dim

/-!
# Functions

The functions of the calculator, with the keyword that calls each of them and the number of
arguments that it takes. The prefix minus and the postfix factorial are functions without a
keyword.
-/
namespace MatrixCalc

/-- A real function that applies to each component or cell of its argument. -/
inductive Pointwise where
  | rad
  | deg
  | sin
  | cos
  | tan
  | asin
  | acos
  | atan
  | sinh
  | cosh
  | tanh
  | abs
  | ln
  | log
  | exp
  | sqrt
  deriving DecidableEq

inductive Function where
  | pointwise (f : Pointwise)
  | vec (d : Dim)
  | length
  | normalize
  | dot
  | cross
  | mix
  | mat (d : Dim)
  | scale
  | rotate
  | translate
  | invTranspose
  | perspective
  | ortho
  | rand
  | negate
  | factorial
  deriving DecidableEq

/-- The accepted numbers of arguments: all from the least to the most. -/
structure Arity where
  least : Nat
  most : Nat
  deriving DecidableEq

namespace Arity

def exactly (n : Nat) : Arity := ⟨n, n⟩

def accepts (a : Arity) (n : Nat) : Bool := a.least ≤ n && n ≤ a.most

end Arity

def Pointwise.name : Pointwise → String
  | rad => "rad"
  | deg => "deg"
  | sin => "sin"
  | cos => "cos"
  | tan => "tan"
  | asin => "asin"
  | acos => "acos"
  | atan => "atan"
  | sinh => "sinh"
  | cosh => "cosh"
  | tanh => "tanh"
  | abs => "abs"
  | ln => "ln"
  | log => "log"
  | exp => "exp"
  | sqrt => "sqrt"

namespace Function

def name : Function → String
  | pointwise f => f.name
  | vec .two => "vec2"
  | vec .three => "vec3"
  | vec .four => "vec4"
  | length => "length"
  | normalize => "normalize"
  | dot => "dot"
  | cross => "cross"
  | mix => "mix"
  | mat .two => "mat2"
  | mat .three => "mat3"
  | mat .four => "mat4"
  | scale => "scale"
  | rotate => "rotate"
  | translate => "translate"
  | invTranspose => "invtranspose"
  | perspective => "perspective"
  | ortho => "ortho"
  | rand => "rand"
  | negate => "-"
  | factorial => "!"

def arity : Function → Arity
  | pointwise _ => .exactly 1
  | vec d => .exactly d.toNat
  | length | normalize => .exactly 1
  | dot | cross => .exactly 2
  | mix => .exactly 3
  | mat _ => ⟨0, 1⟩
  | scale | translate => .exactly 2
  | rotate => .exactly 3
  | invTranspose => .exactly 1
  | perspective | ortho => .exactly 4
  | rand | negate | factorial => .exactly 1

/-- The functions that are called by their name, in the order of the reference table. -/
def keywords : List Function :=
  [pointwise .rad, pointwise .deg, pointwise .sin, pointwise .cos, pointwise .tan,
    pointwise .asin, pointwise .acos, pointwise .atan, pointwise .sinh, pointwise .cosh,
    pointwise .tanh, pointwise .abs, pointwise .ln, pointwise .log, pointwise .exp,
    pointwise .sqrt, vec .two, vec .three, vec .four, length, normalize, dot, cross, mix,
    mat .two, mat .three, mat .four, scale, rotate, translate, invTranspose, perspective,
    ortho, rand]

/-- The function that a name calls; upper and lower case differ. -/
def ofKeyword? (t : Text) : Option Function := keywords.find? fun f => f.name.toList == t

def isKeyword (t : Text) : Bool := (ofKeyword? t).isSome

def vectorDim? : Function → Option Dim
  | vec d => some d
  | _ => none

def matrixDim? : Function → Option Dim
  | mat d => some d
  | _ => none

theorem least_le_most (f : Function) : f.arity.least ≤ f.arity.most := by
  cases f <;> simp [arity, Arity.exactly]

theorem most_pos (f : Function) : 0 < f.arity.most := by
  cases f with
  | vec d => exact Nat.lt_of_lt_of_le Nat.zero_lt_two d.two_le_toNat
  | _ => exact Nat.succ_pos _

/-- A call that may not end yet takes another argument. -/
theorem lt_most_of_not_accepts (f : Function) {n : Nat} (hn : n < f.arity.most)
    (h : ¬ f.arity.accepts (n + 1) = true) : n + 1 < f.arity.most := by
  have hleast := f.least_le_most
  simp only [Arity.accepts, Bool.and_eq_true, decide_eq_true_eq, not_and] at h
  refine Nat.lt_of_not_le fun hmost => ?_
  exact h (by omega) (by omega)

end Function
end MatrixCalc
