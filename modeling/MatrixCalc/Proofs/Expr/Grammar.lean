import MatrixCalc.Expr.Parser

/-!
# The grammar of expressions

A derivation is a phrase: an expression is a sum, a sum a chain of products, a product a chain of
powers, a power a chain of operands. A phrase has the tokens that it derives, the tree that it
stands for, and the number of levels that are open where most are. All this is said of phrases
and not of the parser.
-/
namespace MatrixCalc

/-- The kinds of phrases. -/
inductive Rank where
  /-- A member of a chain: an operand, a power or a product. -/
  | member (level : Level)
  | chain (level : Level)
  /-- What follows the first member of a chain. -/
  | links (level : Level)
  /-- What follows the first `given` arguments of a call: the others, each behind a comma. -/
  | further (f : Function) (given : Nat)

inductive Phrase : Rank → Type where
  | number (x : Float) : Phrase (.member .power)
  | group (inner : Phrase (.chain .sum)) : Phrase (.member .power)
  | signed (negative : Bool) (operand : Phrase (.member .power)) : Phrase (.member .power)
  | emptyCall (f : Function) (h : f.arity.accepts 0 = true) : Phrase (.member .power)
  | call (f : Function) (first : Phrase (.chain .sum)) (more : Phrase (.further f 1)) :
      Phrase (.member .power)
  | power (p : Phrase (.chain .power)) : Phrase (.member .product)
  | product (p : Phrase (.chain .product)) : Phrase (.member .sum)
  | chain (level : Level) (first : Phrase (.member level)) (links : Phrase (.links level)) :
      Phrase (.chain level)
  | done (level : Level) : Phrase (.links level)
  | link (level : Level) (op : Operator) (h : op.level = level) (right : Phrase (.member level))
      (more : Phrase (.links level)) : Phrase (.links level)
  | bang (more : Phrase (.links .power)) : Phrase (.links .power)
  | noMore (f : Function) (given : Nat) (h : f.arity.accepts given = true) :
      Phrase (.further f given)
  | next (f : Function) (given : Nat) (argument : Phrase (.chain .sum))
      (more : Phrase (.further f (given + 1))) : Phrase (.further f given)

/-- What a phrase stands for: a tree; links turn the tree on their left into a tree. -/
abbrev Rank.Meaning : Rank → Type
  | .member _ | .chain _ => Expr
  | .links _ => Expr → Expr
  | .further _ _ => List Expr

namespace Phrase

/-- The tree of a phrase. Chains fold to the left. -/
def tree {r : Rank} : Phrase r → r.Meaning
  | number x => Expr.number x
  | group inner => inner.tree
  | signed negative operand => if negative then operand.tree.negate else operand.tree
  | emptyCall f _ => Expr.call f []
  | call f first more => Expr.call f (first.tree :: more.tree)
  | power p => p.tree
  | product p => p.tree
  | chain _ first links => links.tree first.tree
  | done _ => id
  | link _ op _ right more => fun left => more.tree (.binary op left right.tree)
  | bang more => fun left => more.tree left.factorial
  | noMore _ _ _ => []
  | next _ _ argument more => argument.tree :: more.tree

/-- The tokens of a phrase, each with whether an operand is expected in its place, so that a sign
directly in front of a numeral belongs to the numeral. -/
def spelling {r : Rank} : Phrase r → List (Bool × Token)
  | number x => [(true, .number x)]
  | group inner => (true, .leftParen) :: inner.spelling ++ [(false, .rightParen)]
  | signed negative operand =>
    (true, .operator (if negative then .sub else .add)) :: operand.spelling
  | emptyCall f _ => [(true, .function f), (false, .leftParen), (true, .rightParen)]
  | call f first more =>
    (true, .function f) :: (false, .leftParen) :: first.spelling ++ more.spelling ++
      [(false, .rightParen)]
  | power p => p.spelling
  | product p => p.spelling
  | chain _ first links => first.spelling ++ links.spelling
  | done _ => []
  | link _ op _ right more => (false, .operator op) :: right.spelling ++ more.spelling
  | bang more => (false, .bang) :: more.spelling
  | noMore _ _ _ => []
  | next _ _ argument more => (false, .comma) :: argument.spelling ++ more.spelling

/-- How many levels are open where most are. A parenthesis, a sign and a call are open until they
end, and an operator of a chain until the chain ends. -/
def levels {r : Rank} : Phrase r → Nat
  | number _ => 0
  | group inner => inner.levels + 1
  | signed _ operand => operand.levels + 1
  | emptyCall _ _ => 1
  | call _ first more => max first.levels more.levels + 1
  | power p => p.levels
  | product p => p.levels
  | chain _ first links => max first.levels links.levels
  | done _ => 0
  | link _ _ _ right more => max right.levels more.levels + 1
  | bang more => more.levels + 1
  | noMore _ _ _ => 0
  | next _ _ argument more => max argument.levels more.levels

def tokens {r : Rank} (p : Phrase r) : List Token := p.spelling.map Prod.snd

@[simp] theorem tokens_number (x : Float) : (number x).tokens = [.number x] := rfl

@[simp] theorem tokens_group (inner : Phrase (.chain .sum)) :
    (group inner).tokens = .leftParen :: (inner.tokens ++ [.rightParen]) := by
  simp [tokens, spelling]

@[simp] theorem tokens_signed (negative : Bool) (operand : Phrase (.member .power)) :
    (signed negative operand).tokens =
      .operator (if negative then .sub else .add) :: operand.tokens := rfl

@[simp] theorem tokens_emptyCall (f : Function) (h : f.arity.accepts 0 = true) :
    (emptyCall f h).tokens = [.function f, .leftParen, .rightParen] := rfl

@[simp] theorem tokens_call (f : Function) (first : Phrase (.chain .sum))
    (more : Phrase (.further f 1)) :
    (call f first more).tokens =
      .function f :: .leftParen :: (first.tokens ++ (more.tokens ++ [.rightParen])) := by
  simp [tokens, spelling]

@[simp] theorem tokens_power (p : Phrase (.chain .power)) : (power p).tokens = p.tokens := rfl

@[simp] theorem tokens_product (p : Phrase (.chain .product)) :
    (product p).tokens = p.tokens := rfl

@[simp] theorem tokens_chain (level : Level) (first : Phrase (.member level))
    (links : Phrase (.links level)) :
    (chain level first links).tokens = first.tokens ++ links.tokens := by
  simp [tokens, spelling]

@[simp] theorem tokens_done (level : Level) : (done level).tokens = [] := rfl

@[simp] theorem tokens_link (level : Level) (op : Operator) (h : op.level = level)
    (right : Phrase (.member level)) (more : Phrase (.links level)) :
    (link level op h right more).tokens = .operator op :: (right.tokens ++ more.tokens) := by
  simp [tokens, spelling]

@[simp] theorem tokens_bang (more : Phrase (.links .power)) :
    (bang more).tokens = .bang :: more.tokens := rfl

@[simp] theorem tokens_noMore (f : Function) (given : Nat) (h : f.arity.accepts given = true) :
    (noMore f given h).tokens = [] := rfl

@[simp] theorem tokens_next (f : Function) (given : Nat) (argument : Phrase (.chain .sum))
    (more : Phrase (.further f (given + 1))) :
    (next f given argument more).tokens = .comma :: (argument.tokens ++ more.tokens) := by
  simp [tokens, spelling]

end Phrase
end MatrixCalc
