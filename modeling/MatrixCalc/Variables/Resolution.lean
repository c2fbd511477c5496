import MatrixCalc.Variables.Potential
import MatrixCalc.Variables.SelfPass

/-!
# Resolving a line

`Pass.run` takes the steps of the pass until it has a verdict. An expression is then free of
variables. An assignment stores the text behind the equals sign without the blanks around it;
only the name itself is replaced in it by its old text, once, so that a variable may build on
what it was. The stored text must not hold a second assignment.
-/
namespace MatrixCalc

inductive Resolution where
  | assigned (name value : Text)
  | expression (t : Text)
  deriving DecidableEq

namespace Variables

/-- The text that an assignment to `name` stores: `t` with each reference to the name replaced
by its text so far. The text begins at `offset`. -/
def expandSelf (vars : Variables) (name : Text) (offset : Nat) (t : Text) :
    Except ParseError Text :=
  (SelfPass.loop vars name).run (.start offset t)

/-- The text behind the equals sign of an assignment, as it is stored. -/
def assignment (vars : Variables) (name : Text) (offset : Nat) (behind : Text) :
    Except ParseError Text :=
  let start := offset + behind.blanks.size
  let t := behind.trimStart.trimEnd
  if t = [] then .error ⟨start, .nothingAssigned name⟩ else vars.expandSelf name start t

def resolve (vars : Variables) (line : Text) : Except ParseError Resolution := do
  match ← (Pass.start line).run vars with
  | .expression t => return .expression t
  | .target name offset behind => return .assigned name (← vars.assignment name offset behind)

def after (vars : Variables) : Resolution → Variables
  | .assigned name value => vars.assign name value
  | .expression _ => vars

end Variables
end MatrixCalc
