import MatrixCalc.Proofs.Checked.Parser
import MatrixCalc.Proofs.Expr.Steps
import MatrixCalc.Token.Scanner

/-!
# Parsing by recursive descent

One routine for each level of chains, one for operands, one for calls and one for their arguments
call each other. Here the call stack is spelled out: an activation is a routine that waits for the
one it called, with what it holds meanwhile. A turn runs the innermost routine up to its next call
or its return. The routines count open levels by hand, up where a level opens and down in bulk
where they return, and a level that is not there cannot be closed (`Cursor.ascend`).
-/
namespace MatrixCalc

namespace Descent

open Checked (Attempt minus?)

/-- The token that is looked at, the scanner behind it and the counter of open levels. -/
structure Cursor where
  scanner : Scanner
  current : Placed
  depth : Nat

namespace Cursor

/-- Reads the next token. With `keep` a sign in front of a numeral is a token of its own. -/
def advance (known : Text → Bool) (keep : Bool) (c : Cursor) : Except ParseError Cursor :=
  match c.scanner.next known (!keep) with
  | (.ok token, scanner) =>
    let text := if token = .stop then [] else c.scanner.rest.trimStart
    .ok { c with scanner := scanner, current := ⟨token, scanner.start, text⟩ }
  | (.error e, _) => .error e

/-- One more level is open from the current token on. -/
def descend (known : Text → Bool) (keep : Bool) (c : Cursor) : Except ParseError Cursor := do
  let depth ← Parser.enter c.current c.depth
  advance known keep { c with depth := depth }

def ascend (levels : Nat) (c : Cursor) : Option Cursor := do
  return { c with depth := ← minus? c.depth levels }

def expect (wanted : Token) (c : Cursor) : Except ParseError Unit :=
  if c.current.token = wanted then .ok ()
  else .error ⟨c.current.offset, .expected wanted c.current.token⟩

end Cursor

inductive Routine where
  | chain (level : Level)
  | operand
  | call (f : Function)
  | arguments (f : Function)
  deriving DecidableEq

/-- The routine for the members of a chain. -/
def Routine.member : Level → Routine
  | .sum => chain .product
  | .product => chain .power
  | .power => operand

/-- A routine that waits for another one. -/
inductive Activation where
  /-- A chain whose first member is read. -/
  | first (level : Level)
  /-- A chain behind its last operator, with the number of its operators. -/
  | link (level : Level) (links : Nat) (left : Expr) (op : Operator)
  | group
  | sign (negative : Bool)
  /-- An operand that is a call. -/
  | callee (f : Function)
  | call (f : Function)
  /-- The arguments of a call, the next of which is read. -/
  | argument (f : Function) (args : List Expr)

/-- What the innermost routine does next. -/
inductive Control where
  | enter (r : Routine)
  /-- It looks for another operator of its chain. -/
  | chain (level : Level) (links : Nat) (tree : Expr)
  /-- It looks for another argument. -/
  | arguments (f : Function) (args : List Expr)
  | back (r : Routine) (tree : Expr)
  | listed (f : Function) (args : List Expr)

structure State where
  cursor : Cursor
  /-- The routines that wait, the innermost first. -/
  calls : List Activation
  control : Control

section Turn

variable (known : Text → Bool) (c : Cursor) (calls : List Activation)

def operand : Attempt ParseError State :=
  match c.current.token with
  | .number x => do
    return ⟨← c.advance known true, calls, .back .operand (.number x)⟩
  | .leftParen => do
    return ⟨← c.descend known false, .group :: calls, .enter (.chain .sum)⟩
  | .operator .sub => do
    return ⟨← c.descend known false, .sign true :: calls, .enter .operand⟩
  | .operator .add => do
    return ⟨← c.descend known false, .sign false :: calls, .enter .operand⟩
  | .function f => return ⟨c, .callee f :: calls, .enter (.call f)⟩
  | token => throw ⟨c.current.offset, .unexpected token⟩

def call (f : Function) : Attempt ParseError State := do
  let c ← c.descend known true
  c.expect .leftParen
  return ⟨← c.advance known false, .call f :: calls, .enter (.arguments f)⟩

/-- The chain goes on with its own operators, a power with the factorial sign too. All its levels
close together at its end. -/
def chain (level : Level) (links : Nat) (tree : Expr) : Attempt ParseError State :=
  match level.link? c.current.token with
  | some op => do
    return ⟨← c.descend known false, .link level (links + 1) tree op :: calls,
      .enter (.member level)⟩
  | none =>
    if level = .power ∧ c.current.token = .bang then do
      return ⟨← c.descend known true, calls, .chain .power (links + 1) tree.factorial⟩
    else do
      return ⟨← c.ascend links, calls, .back (.chain level) tree⟩

/-- The list ends at the largest number of arguments; where it may be empty, a closing parenthesis
ends it at once. -/
def arguments (f : Function) (args : List Expr) : Attempt ParseError State :=
  if args = [] ∧ args.length < f.arity.most ∧
      ¬ (f.arity.accepts 0 ∧ c.current.token = .rightParen) then
    return ⟨c, .argument f [] :: calls, .enter (.chain .sum)⟩
  else if args ≠ [] ∧ args.length < f.arity.most ∧ c.current.token = .comma then do
    return ⟨← c.advance known false, .argument f args :: calls, .enter (.chain .sum)⟩
  else if f.arity.accepts args.length then
    return ⟨c, calls, .listed f args⟩
  else throw ⟨c.current.offset, .expected .comma c.current.token⟩

/-- The tree goes to the routine that waits for it. -/
def back (tree : Expr) : Activation → Attempt ParseError State
  | .first level => return ⟨c, calls, .chain level 0 tree⟩
  | .link level links left op => return ⟨c, calls, .chain level links (.binary op left tree)⟩
  | .group => do
    c.expect .rightParen
    let c ← c.advance known true
    return ⟨← c.ascend 1, calls, .back .operand tree⟩
  | .sign negative => do
    return ⟨← c.ascend 1, calls, .back .operand (if negative then tree.negate else tree)⟩
  | .callee _ => return ⟨c, calls, .back .operand tree⟩
  | .argument f args => return ⟨c, calls, .arguments f (args ++ [tree])⟩
  -- A call waits for a list of arguments.
  | .call _ => liftM (none : Option State)

def listed (args : List Expr) : Activation → Attempt ParseError State
  | .call f => do
    c.expect .rightParen
    let c ← c.advance known true
    return ⟨← c.ascend 1, calls, .back (.call f) (.call f args)⟩
  | _ => liftM (none : Option State)

/-- Behind a complete expression the text must end. -/
def finish (tree : Expr) : Attempt ParseError Expr :=
  if c.current.token = .stop then return tree
  else throw ⟨c.current.offset, .trailing c.current.text⟩

end Turn

def turn (known : Text → Bool) (s : State) : Attempt ParseError (Turn State Expr) :=
  match s.control, s.calls with
  | .enter (.chain level), calls =>
    return .next ⟨s.cursor, .first level :: calls, .enter (.member level)⟩
  | .enter .operand, calls => .next <$> operand known s.cursor calls
  | .enter (.call f), calls => .next <$> call known s.cursor calls f
  | .enter (.arguments f), calls => return .next ⟨s.cursor, calls, .arguments f []⟩
  | .chain level links tree, calls => .next <$> chain known s.cursor calls level links tree
  | .arguments f args, calls => .next <$> arguments known s.cursor calls f args
  | .back _ tree, activation :: calls => .next <$> back known s.cursor calls tree activation
  | .back _ tree, [] => .halt <$> finish s.cursor tree
  | .listed _ args, activation :: calls => .next <$> listed known s.cursor calls args activation
  | .listed _ _, [] => liftM (none : Option (Turn State Expr))

/-- The descent begins with the loosest chain at the first token. -/
def start (known : Text → Bool) (t : Text) : Except ParseError State := do
  let c ← Cursor.advance known false ⟨.startingAt t 0, ⟨.stop, 0, []⟩, 0⟩
  return ⟨c, [], .enter (.chain .sum)⟩

/-- An error ends the descent. -/
def answer : Except ParseError (Turn State Expr) → Turn State (Except ParseError Expr)
  | .ok (.next s) => .next s
  | .ok (.halt tree) => .halt (.ok tree)
  | .error e => .halt (.error e)

def parseTurn (known : Text → Bool) (s : State) : Part (Turn State (Except ParseError Expr)) := do
  return answer (← (turn known s).run)

/-- The tree of a text; undefined where a turn is refused or the routines never end. -/
def parse (known : Text → Bool) (t : Text) : Part (Except ParseError Expr) :=
  match start known t with
  | .ok s => Checked.run (parseTurn known) s
  | .error e => .some (.error e)

end Descent
end MatrixCalc
