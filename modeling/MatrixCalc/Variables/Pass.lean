import MatrixCalc.Loop
import MatrixCalc.Token.Reading
import MatrixCalc.Variables.Basic

/-!
# One step of the resolution pass

Before a line is parsed, the texts of its variables are spliced into it. The pass goes through
the line token by token, with signs apart from numerals. A variable is replaced by its text and
reading goes on at the start of that text, so the variables in it are replaced in turn. A
variable is active until the pass has left its text; one that comes up while it is active
leads back to itself.

Where a spliced text ends is kept as a number of characters counted from the end of the line,
for a later splice does not move it.
-/
namespace MatrixCalc

structure Pass where
  /-- What has been read, the last character first. -/
  done : Text
  rest : Text
  /-- The names whose texts have been spliced in, the innermost first, each with the number of
  characters behind its text. -/
  active : List (Text × Nat)

inductive Verdict where
  | expression (t : Text)
  /-- An assignment, with the text behind the equals sign and its place. -/
  | target (name : Text) (offset : Nat) (rest : Text)
  deriving DecidableEq

namespace Pass

def start (line : Text) : Pass := ⟨[], line, []⟩

def text (p : Pass) : Text := p.done.reverse ++ p.rest

def offset (p : Pass) : Nat := p.done.size

/-- The active names whose texts are not yet left when `left` characters are still unread. -/
def enclosing (left : Nat) (active : List (Text × Nat)) : List (Text × Nat) :=
  active.dropWhile fun a => left ≤ a.2

def skip (p : Pass) (r : Reading) : Pass :=
  ⟨(r.blanks ++ (r.lexeme ++ r.behind)).reverse ++ p.done, r.rest, p.active⟩

/-- The pass after the name of a variable, which the text of the variable replaces. -/
def splice (p : Pass) (r : Reading) (name value : Text) : Pass :=
  ⟨r.blanks.reverse ++ p.done, value ++ r.rest,
    (name, r.rest.length) :: enclosing (r.lexeme.length + r.rest.length) p.active⟩

def step (vars : Variables) (p : Pass) : Turn Pass (Except ParseError Verdict) :=
  let r := read vars.contains false p.rest
  match r.outcome with
  | .error fault => .halt (.error ⟨r.start p.offset, fault⟩)
  | .ok .stop => .halt (.ok (.expression p.text))
  | .ok (.target name) => .halt (.ok (.target name (r.next p.offset) r.rest))
  | .ok (.reference name) =>
    if (enclosing (r.lexeme.length + r.rest.length) p.active).any (·.1 == name) then
      .halt (.error ⟨r.start p.offset, .cyclic name⟩)
    else .next (p.splice r name ((vars.get? name).getD []))
  | .ok _ => .next (p.skip r)

end Pass
end MatrixCalc
