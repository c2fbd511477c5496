import MatrixCalc.Expr.Parser
import MatrixCalc.Proofs.Except

/-!
# Where the errors of a parsed text come from

An error is either the one that ends the tokens of the text, or the grammar does not allow a token
where it stands, or too many levels are open. The last two are reported at the token.
-/
namespace MatrixCalc

/-- The faults that the parser finds in tokens. -/
inductive Fault.OfGrammar : Fault → Prop
  | expected (wanted found : Token) : OfGrammar (.expected wanted found)
  | unexpected (token : Token) : OfGrammar (.unexpected token)
  | trailing (text : Text) : OfGrammar (.trailing text)
  | tooDeep : OfGrammar .tooDeep

/-- The error of the grammar about a token, at the place of the token. -/
inductive Placed.RefusedBy (p : Placed) : ParseError → Prop
  | expected (wanted : Token) : RefusedBy p ⟨p.offset, .expected wanted p.token⟩
  | unexpected : RefusedBy p ⟨p.offset, .unexpected p.token⟩
  | trailing : RefusedBy p ⟨p.offset, .trailing p.text⟩
  | tooDeep : RefusedBy p ⟨p.offset, .tooDeep⟩

namespace Placed.RefusedBy

variable {p : Placed} {e : ParseError} (h : p.RefusedBy e)

include h

theorem ofGrammar : e.fault.OfGrammar := by
  cases h with
  | expected wanted => exact .expected wanted p.token
  | unexpected => exact .unexpected p.token
  | trailing => exact .trailing p.text
  | tooDeep => exact .tooDeep

theorem offset_eq : e.offset = p.offset := by
  cases h <;> rfl

end Placed.RefusedBy

/-- The calculation refuses the token, if it fails. -/
def Refusing {α : Type} (p : Placed) : Except ParseError α → Prop :=
  Ensures (fun _ => True) p.RefusedBy

theorem Refusing.bind {α β : Type} {p : Placed} {x : Except ParseError α}
    {f : α → Except ParseError β} (hx : Refusing p x) (hf : ∀ a, Refusing p (f a)) :
    Refusing p (x >>= f) :=
  Ensures.bind hx fun a _ => hf a

namespace Parser

variable (p : Placed)

theorem enter_refusing (depth : Nat) : Refusing p (enter p depth) := by
  unfold enter
  split
  · trivial
  · exact .tooDeep

theorem operand_refusing (s : Parser) : Refusing p (s.operand p) := by
  unfold operand
  split
  · trivial
  · exact (enter_refusing p s.depth).bind fun _ => trivial
  · exact (enter_refusing p s.depth).bind fun _ => trivial
  · exact (enter_refusing p s.depth).bind fun _ => trivial
  · exact (enter_refusing p s.depth).bind fun _ => trivial
  · split
    · split
      · trivial
      · exact .unexpected
    · exact .unexpected
  · exact .unexpected

theorem settle_refusing (depth : Nat) (stack : List Frame) (level : Level) (links : Nat)
    (tree : Expr) (looser : List Level) :
    Refusing p (settle p depth stack level links tree looser) := by
  induction looser generalizing depth stack level links tree with
  | nil =>
    unfold settle
    cases level.link? p.token with
    | some op => exact (enter_refusing p depth).bind fun _ => trivial
    | none => trivial
  | cons next looser ih =>
    unfold settle
    cases level.link? p.token with
    | some op => exact (enter_refusing p depth).bind fun _ => trivial
    | none => exact ih _ _ _ _ _

theorem close_refusing (depth : Nat) (stack : List Frame) (tree : Expr) :
    Refusing p (close p depth stack tree) := by
  unfold close
  split
  · exact .trailing
  · split
    · trivial
    · exact .expected _
  · dsimp only
    split
    · trivial
    · split
      · trivial
      · exact .expected _
  · exact .expected _

theorem feed_refusing (s : Parser) : Refusing p (s.feed p) := by
  unfold feed
  split
  · exact operand_refusing p s
  · split
    · trivial
    · exact .expected _
  · split
    · exact (enter_refusing p s.depth).bind fun _ => trivial
    · refine (settle_refusing ..).bind ?_
      intro settled
      cases settled with
      | linked s => trivial
      | closed depth stack tree => exact close_refusing p depth stack tree

theorem finish_refusing (s : Parser) : Refusing p (s.finish p) := by
  unfold finish
  split
  · exact .unexpected
  · exact .expected _
  · dsimp only
    split
    · trivial
    · exact .expected _

end Parser

/-- An error of the parser is the error that ends the tokens, or a fault of the grammar. -/
theorem Stream.parse_ensures (s : Stream) :
    Ensures (fun _ => True) (fun e => s.ending = .error e ∨ e.fault.OfGrammar) s.parse := by
  have hfold : Ensures (fun _ => True) (fun e => e.fault.OfGrammar)
      (s.tokens.foldlM Parser.feed .start) :=
    Ensures.foldlM trivial
      (fun s p _ => (s.feed_refusing p).mono (fun _ h => h) fun _ h => h.ofGrammar) s.tokens
  refine Ensures.bind (hfold.mono (fun _ h => h) fun _ he => .inr he) ?_
  intro state _
  cases hending : s.ending with
  | error e => exact .inl rfl
  | ok p => exact (state.finish_refusing p).mono (fun _ h => h) fun _ he => .inr he.ofGrammar

end MatrixCalc
