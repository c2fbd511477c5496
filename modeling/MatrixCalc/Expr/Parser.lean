import MatrixCalc.Expr.Basic
import MatrixCalc.Token.Stream

/-!
# Parsing expressions

The grammar has four levels. A sum is a chain of products, a product a chain of powers and a
power a chain of operands, where a factorial sign is a link of its own. All chains fold to the
left. An operand is a number, an expression in parentheses, a sign and an operand, or a
function with its arguments.

The parser takes one token after the other. What is open (parentheses, signs, calls, chains
that wait for an operand) lies on a stack. Every parenthesis, sign and call and every operator
of an unfinished chain is an open level, and at most `maxDepth` levels may be open at a time.
-/
namespace MatrixCalc

/-- What is open and not yet finished. -/
inductive Frame where
  | group
  | sign (negative : Bool)
  /-- A call whose next argument is read, with the arguments before it. -/
  | call (f : Function) (args : List Expr)
  /-- A chain whose last operator waits for its operand, with the number of its operators. -/
  | chain (level : Level) (links : Nat) (left : Expr) (op : Operator)

/-- What comes next. -/
inductive Phase where
  | operand
  /-- The parenthesis behind the name of a function. -/
  | parenthesis
  /-- What follows an operand: the power it belongs to has `links` operators so far. -/
  | chain (links : Nat) (tree : Expr)

structure Parser where
  depth : Nat
  /-- What is open, the innermost first. -/
  stack : List Frame
  phase : Phase

def maxDepth : Nat := 256

/-- The operator by which a token continues a chain of this level. -/
def Level.link? (level : Level) : Token → Option Operator
  | .operator op => if op.level = level then some op else none
  | _ => none

namespace Parser

def start : Parser := ⟨0, [], .operand⟩

def enter (p : Placed) (depth : Nat) : Except ParseError Nat :=
  if depth < maxDepth then .ok (depth + 1) else .error ⟨p.offset, .tooDeep⟩

/-- The operand `tree` ends the chain of this level that waits for it, if there is one. What
remains are the stack below, the number of operators in the chain, and its tree. -/
def join (level : Level) (stack : List Frame) (tree : Expr) : List Frame × Nat × Expr :=
  match stack with
  | .chain l links left op :: below =>
    if l = level then (below, links, .binary op left tree) else (stack, 0, tree)
  | _ => (stack, 0, tree)

/-- An operand is complete: the signs in front of it apply, and it joins its power. -/
def complete (depth : Nat) (stack : List Frame) (tree : Expr) : Parser :=
  match stack with
  | .sign negative :: below =>
    complete (depth - 1) below (if negative then tree.negate else tree)
  | _ =>
    let (below, links, tree) := join .power stack tree
    ⟨depth, below, .chain links tree⟩

/-- A token where an operand begins. Directly behind the parenthesis of a call that takes no
arguments, the call may end. -/
def operand (s : Parser) (p : Placed) : Except ParseError Parser :=
  match p.token with
  | .number x => .ok (complete s.depth s.stack (.number x))
  | .leftParen => do
    return ⟨← enter p s.depth, .group :: s.stack, .operand⟩
  | .operator .sub => do
    return ⟨← enter p s.depth, .sign true :: s.stack, .operand⟩
  | .operator .add => do
    return ⟨← enter p s.depth, .sign false :: s.stack, .operand⟩
  | .function f => do
    return ⟨← enter p s.depth, .call f [] :: s.stack, .parenthesis⟩
  | .rightParen =>
    match s.stack with
    | .call f [] :: below =>
      if f.arity.accepts 0 then .ok (complete (s.depth - 1) below (.call f []))
      else .error ⟨p.offset, .unexpected p.token⟩
    | _ => .error ⟨p.offset, .unexpected p.token⟩
  | token => .error ⟨p.offset, .unexpected token⟩

/-- What a token finds behind an operand. -/
inductive Settled where
  | linked (s : Parser)
  /-- It continues none: all chains of the innermost construct are closed. -/
  | closed (depth : Nat) (stack : List Frame) (tree : Expr)

/-- Closes the chains that a token does not continue, from the given level to the looser ones. -/
def settle (p : Placed) (depth : Nat) (stack : List Frame) (level : Level) (links : Nat)
    (tree : Expr) (looser : List Level) : Except ParseError Settled :=
  match level.link? p.token, looser with
  | some op, _ => do
    return .linked ⟨← enter p depth, .chain level (links + 1) tree op :: stack, .operand⟩
  | none, [] => .ok (.closed (depth - links) stack tree)
  | none, next :: looser =>
    let (below, links', tree) := join next stack tree
    settle p (depth - links) below next links' tree looser

/-- The token that must follow a complete expression inside the innermost construct, unless
another argument follows. -/
def wanted : List Frame → Token
  | .call f args :: _ => if f.arity.accepts (args.length + 1) then .rightParen else .comma
  | _ => .rightParen

/-- A token behind a complete expression: it ends the innermost construct or begins the next
argument of a call. Outside of all constructs nothing may follow. -/
def close (p : Placed) (depth : Nat) (stack : List Frame) (tree : Expr) :
    Except ParseError Parser :=
  match stack with
  | [] => .error ⟨p.offset, .trailing p.text⟩
  | .group :: below =>
    if p.token = .rightParen then .ok (complete (depth - 1) below tree)
    else .error ⟨p.offset, .expected (wanted stack) p.token⟩
  | .call f args :: below =>
    let args := args ++ [tree]
    if p.token = .comma ∧ args.length < f.arity.most then
      .ok ⟨depth, .call f args :: below, .operand⟩
    else if p.token = .rightParen ∧ f.arity.accepts args.length then
      .ok (complete (depth - 1) below (.call f args))
    else .error ⟨p.offset, .expected (wanted stack) p.token⟩
  | _ => .error ⟨p.offset, .expected (wanted stack) p.token⟩

def feed (s : Parser) (p : Placed) : Except ParseError Parser :=
  match s.phase with
  | .operand => s.operand p
  | .parenthesis =>
    if p.token = .leftParen then .ok { s with phase := .operand }
    else .error ⟨p.offset, .expected .leftParen p.token⟩
  | .chain links tree =>
    if p.token = .bang then do
      return { s with depth := ← enter p s.depth, phase := .chain (links + 1) tree.factorial }
    else do
      match ← settle p s.depth s.stack .power links tree [.product, .sum] with
      | .linked s => return s
      | .closed depth stack tree => close p depth stack tree

/-- The end of the text, at which nothing may be open but chains. -/
def finish (s : Parser) (p : Placed) : Except ParseError Expr :=
  match s.phase with
  | .operand => .error ⟨p.offset, .unexpected p.token⟩
  | .parenthesis => .error ⟨p.offset, .expected .leftParen p.token⟩
  | .chain _ tree =>
    let (stack, _, tree) := join .product s.stack tree
    let (stack, _, tree) := join .sum stack tree
    match stack with
    | [] => .ok tree
    | _ => .error ⟨p.offset, .expected (wanted stack) p.token⟩

end Parser

def Stream.parse (s : Stream) : Except ParseError Expr := do
  let state ← s.tokens.foldlM Parser.feed .start
  state.finish (← s.ending)

/-- The tree of an expression. `known` tells the names of variables, none of which may occur. -/
def Expr.parse (known : Text → Bool) (t : Text) : Except ParseError Expr :=
  (Stream.ofText known t).parse

end MatrixCalc
