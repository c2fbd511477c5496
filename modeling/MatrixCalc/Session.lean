import MatrixCalc.Eval.Tree
import MatrixCalc.Expr.Parser
import MatrixCalc.Variables.Resolution

/-!
# Sessions

A session keeps the variables and the source of random numbers from line to line. A line either
assigns a variable or has a value. Where it has neither, the variables are as they were.
-/
namespace MatrixCalc

structure Session (σ : Type) where
  vars : Variables
  source : σ

/-- Why a line has no outcome: it cannot be read, or it has no value. -/
inductive LineError where
  | parse (e : ParseError)
  | calculation (e : CalcError)
  deriving DecidableEq

def LineError.message : LineError → String
  | parse e => e.message
  | calculation e => e.message

inductive Outcome where
  | value (v : Value)
  | assigned
  deriving DecidableEq

namespace Session

variable {σ : Type}

def start (source : σ) : Session σ := ⟨.initial, source⟩

def evaluateExpression [RandomSource σ] (s : Session σ) (t : Text) :
    Except LineError Outcome × Session σ :=
  match Expr.parse s.vars.contains t with
  | .error e => (.error (.parse e), s)
  | .ok tree =>
    match tree.eval.run s.source with
    | (.ok v, source) => (.ok (.value v), { s with source })
    | (.error e, source) => (.error (.calculation e), { s with source })

def evaluate [RandomSource σ] (s : Session σ) (line : Text) :
    Except LineError Outcome × Session σ :=
  match s.vars.resolve line with
  | .error e => (.error (.parse e), s)
  | .ok (.assigned name value) =>
    (.ok .assigned, { s with vars := s.vars.assign name value })
  | .ok (.expression t) => s.evaluateExpression t

end Session
end MatrixCalc
