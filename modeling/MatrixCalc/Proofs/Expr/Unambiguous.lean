import MatrixCalc.Proofs.Expr.Grammar

/-!
# The grammar is unambiguous

Two phrases of one kind at the beginning of the same tokens are the same phrase, unless the tokens
behind one of them go on with it. Behind an operand nothing does. A member of a chain goes on with
the operators that bind tighter than the chain's, a chain with its own operators too, and the
arguments of a call with a comma.
-/
namespace MatrixCalc

/-- How loosely the operators of a level bind. -/
def Level.looseness : Level → Nat
  | .power => 1
  | .product => 2
  | .sum => 3

/-- Whether a token goes on with a chain of this level, or with the last member of one. -/
def Level.continues (level : Level) : Token → Bool
  | .operator op => op.level.looseness ≤ level.looseness
  | .bang => true
  | _ => false

/-- Whether a token goes on with a phrase of this kind. -/
def Rank.continues : Rank → Token → Bool
  | .member .power => fun _ => false
  | .member .product => Level.power.continues
  | .member .sum => Level.product.continues
  | .chain level | .links level => level.continues
  | .further _ _ => fun t => t == .comma || Level.sum.continues t

/-- The tokens do not go on with a phrase that stands in front of them. -/
def Rank.Ends (r : Rank) (ts : List Token) : Prop := ∀ t ∈ ts.head?, r.continues t = false

/-- Whether an operand is expected where a phrase of this kind begins. -/
def Rank.opensOperand : Rank → Bool
  | .member _ | .chain _ => true
  | .links _ | .further _ _ => false

theorem Rank.ends_cons {r : Rank} {t : Token} {ts : List Token} :
    r.Ends (t :: ts) ↔ r.continues t = false := by
  simp [Rank.Ends]

theorem Rank.ends_nil (r : Rank) : r.Ends [] := by
  simp [Rank.Ends]

namespace Phrase

/-- What begins with an operand does not begin with a closing parenthesis. -/
theorem tokens_eq_cons {r : Rank} (p : Phrase r) (hr : r.opensOperand = true) :
    ∃ t ts, p.tokens = t :: ts ∧ t ≠ .rightParen := by
  induction p with
  | power p ih => exact ih rfl
  | product p ih => exact ih rfl
  | chain level first links ihfirst ihlinks =>
    obtain ⟨t, ts, h, ht⟩ := ihfirst rfl
    exact ⟨t, ts ++ links.tokens, by simp [h], ht⟩
  | done | link | bang | noMore | next => cases hr
  | number | group | signed | emptyCall | call => simp

end Phrase
end MatrixCalc
