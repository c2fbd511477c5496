import MatrixCalc.Loop
import MatrixCalc.Token.Reading
import MatrixCalc.Variables.Basic

/-!
# The pass through an assigned text

The text behind the equals sign of an assignment is read once, token by token. A reference to
the assigned name is replaced by the text that the name had so far, and reading goes on behind
that text: a variable may build on what it was. Everything else stays as it was typed.
-/
namespace MatrixCalc

structure SelfPass where
  /-- Where in the line the unread part begins. -/
  cursor : Nat
  /-- What has been read of the assigned text, the last character first. -/
  done : Text
  rest : Text

namespace SelfPass

def start (offset : Nat) (t : Text) : SelfPass := ⟨offset, [], t⟩

def text (p : SelfPass) : Text := p.done.reverse ++ p.rest

/-- The pass after a token in whose place a text is kept. -/
def keep (p : SelfPass) (r : Reading) (kept : Text) : SelfPass :=
  ⟨r.start p.cursor + kept.size, (r.blanks ++ kept).reverse ++ p.done, r.rest⟩

def step (vars : Variables) (name : Text) (p : SelfPass) :
    Turn SelfPass (Except ParseError Text) :=
  let r := read vars.contains false p.rest
  match r.outcome with
  | .error fault => .halt (.error ⟨r.start p.cursor, fault⟩)
  | .ok .stop => .halt (.ok p.text)
  | .ok (.target _) => .halt (.error ⟨r.next p.cursor - 1, .strayCharacter '='⟩)
  | .ok token =>
    .next (p.keep r (if token = .reference name then (vars.get? name).getD [] else r.lexeme))

theorem rest_step {vars : Variables} {name : Text} {p q : SelfPass}
    (h : p.step vars name = .next q) : q.rest.length < p.rest.length := by
  have hs := @read_shorter vars.contains false p.rest
  unfold step at h
  generalize read vars.contains false p.rest = r at h hs
  simp only at h
  split at h
  · cases h
  · cases h
  · cases h
  · next token hstop _ ho =>
    cases h
    refine hs fun he => hstop ?_
    rw [ho] at he
    exact Except.ok.inj he

def loop (vars : Variables) (name : Text) : Loop SelfPass (Except ParseError Text) where
  turn := step vars name
  left := fun p => p.rest.length
  left_lt := rest_step

end SelfPass
end MatrixCalc
