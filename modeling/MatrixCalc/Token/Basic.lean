import MatrixCalc.Decimal.Positional
import MatrixCalc.Function
import MatrixCalc.Operator

/-!
# Tokens

The tokens of a line and how messages name them.
-/
namespace MatrixCalc

inductive Token where
  | stop
  | number (x : Float)
  /-- A name and the equals sign behind it. -/
  | target (name : Text)
  | reference (name : Text)
  | operator (op : Operator)
  | bang
  | leftParen
  | rightParen
  | comma
  | function (f : Function)
  deriving DecidableEq

namespace Token

def phrase : Token → String
  | stop => "end of expression"
  | number x => s!"number {String.ofList (Decimal.text x)}"
  | target name => s!"assignment to '{String.ofList name}'"
  | reference name => s!"variable '{String.ofList name}'"
  | operator op => s!"'{op.symbol}'"
  | bang => "'!'"
  | leftParen => "'('"
  | rightParen => "')'"
  | comma => "','"
  | function f => s!"function '{f.name}'"

/-- Whether a sign behind the token is an operator: it follows an operand, or the keyword of a
function. Everywhere else a sign belongs to the numeral behind it. -/
def keepsSign : Token → Bool
  | number _ | bang | rightParen | function _ => true
  | _ => false

end Token
end MatrixCalc
