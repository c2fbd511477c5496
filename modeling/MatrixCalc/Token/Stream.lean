import MatrixCalc.Token.Reading

/-!
# The tokens of an expression

Where a sign is read as part of a numeral depends on the token in front of it, so the whole
text can be split before it is parsed. The stream ends with the end of the text or with the
first error; what stands behind an error is not read.
-/
namespace MatrixCalc

/-- A token, its place, and the text from there on. -/
structure Placed where
  token : Token
  offset : Nat
  text : Text

structure Stream where
  tokens : List Placed
  ending : Except ParseError Placed

namespace Stream

def cons (p : Placed) (s : Stream) : Stream := { s with tokens := p :: s.tokens }

/-- The stream of a text that begins at `offset`; `fold` holds for its first token. -/
def ofTextFrom (known : Text → Bool) (offset : Nat) (fold : Bool) (t : Text) : Stream :=
  let r := read known fold t
  match _read : r.outcome with
  | .error fault => ⟨[], .error ⟨r.start offset, fault⟩⟩
  | .ok token =>
    if _more : token = .stop then ⟨[], .ok ⟨.stop, r.start offset, []⟩⟩
    else
      cons ⟨token, r.start offset, t.trimStart⟩
        (ofTextFrom known (r.next offset) (!token.keepsSign) r.rest)
termination_by t.length
decreasing_by
  refine read_shorter fun he => _more ?_
  rw [show r.outcome = _ from he] at _read
  exact (Except.ok.inj _read).symm

/-- The stream of an expression, which begins with an operand. -/
def ofText (known : Text → Bool) (t : Text) : Stream := ofTextFrom known 0 true t

end Stream
end MatrixCalc
