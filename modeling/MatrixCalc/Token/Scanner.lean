import MatrixCalc.Token.Reading

/-!
# Scanning a text

A scanner hands out the tokens of a text one by one and remembers where the last one stood.
After the end it hands out nothing more and stays as it is.
-/
namespace MatrixCalc

structure Scanner where
  rest : Text
  position : Nat
  /-- Where the last token began. -/
  start : Nat
  /-- Where the last token ended; for the target of an assignment the end of its name. -/
  stop : Nat
  /-- The end has been handed out. -/
  finished : Bool

namespace Scanner

def startingAt (t : Text) (offset : Nat) : Scanner :=
  ⟨t.dropBytes offset, offset, offset, offset, false⟩

/-- The next token, or the error found in its place, and the scanner behind it. -/
def next (known : Text → Bool) (fold : Bool) (s : Scanner) :
    Except ParseError Token × Scanner :=
  if s.finished then (.error ⟨s.position, .afterEnd⟩, s)
  else
    let r := read known fold s.rest
    let moved : Scanner :=
      { rest := r.rest
        position := r.next s.position
        start := r.start s.position
        stop := r.stop s.position
        finished := false }
    match r.outcome with
    | .ok .stop => (.ok .stop, { moved with finished := true })
    | .ok token => (.ok token, moved)
    | .error fault => (.error ⟨moved.start, fault⟩, moved)

end Scanner
end MatrixCalc
