import MatrixCalc.Proofs.Expr.CallStack

/-!
# What the parser makes of a descent

The parser may go on wherever the descent is. Before a routine begins it waits for an operand;
behind an operand it settles the chains that the routines close one after the other. `outcome` says
in which tree or error it would end.
-/
namespace MatrixCalc.Descent

open Checked (resume resume_cons)

namespace Cursor

/-- The tokens behind the current one. -/
def rest (known : Text → Bool) (c : Cursor) : Stream :=
  .ofTextFrom known c.scanner.position (!c.current.token.keepsSign) c.scanner.rest

/-- The tokens from the current one on. -/
def stream (known : Text → Bool) (c : Cursor) : Stream :=
  if c.current.token = .stop then ⟨[], .ok c.current⟩ else .cons c.current (c.rest known)

/-- A bound on the number of tokens behind the current one. -/
def left (c : Cursor) : Nat := if c.scanner.finished then 0 else c.scanner.rest.length + 1

/-- There are tokens behind every token but the end. -/
def Reading (c : Cursor) : Prop := c.current.token ≠ .stop → c.scanner.finished = false

/-- The current token has been passed. -/
structure Passed (known : Text → Bool) (c : Cursor) (depth : Nat) (c' : Cursor) : Prop where
  stream : c'.stream known = c.rest known
  depth : c'.depth = depth
  reading : c'.Reading
  left : c'.left < c.left

variable {known : Text → Bool} {c : Cursor}

theorem advance_passed (h : c.scanner.finished = false) :
    Ensures (c.Passed known c.depth) (fun e => c.rest known = ⟨[], .error e⟩)
      (c.advance known c.current.token.keepsSign) := by
  obtain ⟨r, hr⟩ : ∃ r, read known (!c.current.token.keepsSign) c.scanner.rest = r := ⟨_, rfl⟩
  have hleft : c.left = c.scanner.rest.length + 1 := by
    rw [left, h]
    rfl
  rw [advance, Scanner.next, h, if_neg (by decide), hr]
  dsimp only
  cases hread : r.outcome with
  | error fault =>
    have hrest : c.rest known = ⟨[], .error ⟨r.start c.scanner.position, fault⟩⟩ := by
      rw [rest, ofTextFrom_of_fault (hr ▸ hread), hr]
    exact hrest
  | ok token =>
    by_cases hstop : token = .stop
    · subst hstop
      have hrest : c.rest known = ⟨[], .ok ⟨.stop, r.start c.scanner.position, []⟩⟩ := by
        rw [rest, ofTextFrom_of_stop (hr ▸ hread), hr]
      refine ⟨hrest.symm, rfl, fun h => absurd rfl h, ?_⟩
      rw [hleft]
      exact Nat.succ_pos _
    · have hrest : c.rest known =
          .cons ⟨token, r.start c.scanner.position, c.scanner.rest.trimStart⟩
            (.ofTextFrom known (r.next c.scanner.position) (!token.keepsSign) r.rest) := by
        rw [rest, ofTextFrom_of_token (hr ▸ hread) hstop, hr]
      have hshorter : r.rest.length < c.scanner.rest.length := by
        rw [← hr]
        refine read_shorter fun he => hstop ?_
        rw [hr, hread] at he
        exact Except.ok.inj he
      cases token with
      | stop => exact absurd rfl hstop
      | _ => exact ⟨hrest.symm, rfl, fun _ => rfl, hleft ▸ Nat.succ_lt_succ hshorter⟩

/-- A level that cannot be opened is an error of the parser too, and so is a missing token. -/
theorem descend_passed (h : c.scanner.finished = false) :
    Ensures (fun c' => c.depth < maxDepth ∧ c.Passed known (c.depth + 1) c')
      (fun e => ∀ q : Nat → Parser, (do
        let depth ← Parser.enter c.current c.depth
        resume (q depth) (c.rest known)) = .error e)
      (c.descend known c.current.token.keepsSign) := by
  rw [descend, Parser.enter]
  split
  · next hlt =>
    refine (advance_passed (c := { c with depth := c.depth + 1 }) h).mono ?_ ?_
    · exact fun c' hc' => ⟨hlt, hc'.stream, hc'.depth, hc'.reading, hc'.left⟩
    · intro e he q
      change resume (q (c.depth + 1)) (c.rest known) = .error e
      rw [show c.rest known = ⟨[], .error e⟩ from he]
      rfl
  · exact fun q => rfl

end Cursor

/-! ## What the parser makes of a state -/

def looser : Level → List Level
  | .power => [.product, .sum]
  | .product => [.sum]
  | .sum => []

/-- A complete chain joins the next looser one. -/
def rise (p : Placed) (depth : Nat) (stack : List Frame) (tree : Expr) :
    List Level → Except ParseError Parser.Settled
  | [] => .ok (.closed depth stack tree)
  | next :: looser =>
    let x := Pending.joined next depth stack tree
    Parser.settle p x.depth x.stack next x.links x.tree looser

theorem settle_eq_rise {p : Placed} {level : Level} (h : level.link? p.token = none) (depth : Nat)
    (stack : List Frame) (links : Nat) (tree : Expr) (looser : List Level) :
    Parser.settle p depth stack level links tree looser =
      rise p (depth - links) stack tree looser := by
  unfold Parser.settle
  rw [h]
  cases looser <;> rfl

section Outcome

variable (known : Text → Bool) (c : Cursor)

/-- A complete expression at the end of the text. -/
def ended (tree : Expr) : List Frame → Except ParseError Expr
  | [] => .ok tree
  | stack => .error ⟨c.current.offset, .expected (Parser.wanted stack) c.current.token⟩

/-- The parser goes on behind the current token, once that has settled a chain. -/
def closing : Parser.Settled → Except ParseError Expr
  | .linked q => resume q (c.rest known)
  | .closed depth stack tree =>
    if c.current.token = .stop then ended c tree stack
    else do
      resume (← Parser.close c.current depth stack tree) (c.rest known)

/-- The parser goes on behind a closing parenthesis. -/
def closed (q : Parser) : Except ParseError Expr :=
  if c.current.token = .rightParen then resume q (c.rest known)
  else .error ⟨c.current.offset, .expected .rightParen c.current.token⟩

/-- The parser goes on behind the last argument that it has read. -/
def listedTo (below : List Frame) (f : Function) (args : List Expr) : Except ParseError Expr :=
  if c.current.token = .comma ∧ args.length < f.arity.most then
    resume ⟨c.depth, .call f args :: below, .operand⟩ (c.rest known)
  else if f.arity.accepts args.length then
    closed known c (Parser.complete (c.depth - 1) below (.call f args))
  else .error ⟨c.current.offset, .expected .comma c.current.token⟩

theorem resume_stream (q : Parser) : resume q (c.stream known) =
    if c.current.token = .stop then q.finish c.current
    else q.feed c.current >>= fun q => resume q (c.rest known) := by
  rw [Cursor.stream]
  split
  · rfl
  · exact resume_cons q c.current _

theorem resume_chain (depth : Nat) (stack : List Frame) (links : Nat) (tree : Expr)
    (hbang : c.current.token ≠ .bang) :
    resume ⟨depth, stack, .chain links tree⟩ (c.stream known) =
      Parser.settle c.current depth stack .power links tree [.product, .sum] >>=
        closing known c := by
  rw [resume_stream]
  split
  · next hstop =>
    have hlink : ∀ level : Level, level.link? c.current.token = none := fun level => by
      rw [hstop]
      rfl
    rw [settle_eq_rise (hlink _), rise, settle_eq_rise (hlink _), rise, settle_eq_rise (hlink _)]
    change _ = closing known c (.closed _ _ _)
    rw [closing, if_pos hstop, Parser.finish]
    dsimp only
    rw [Pending.joined, Pending.joined]
    rcases Parser.join .sum (Parser.join .product stack tree).1
      (Parser.join .product stack tree).2.2 with ⟨_ | ⟨frame, below⟩, links, tree⟩ <;> rfl
  · next hstop =>
    rw [Parser.feed]
    dsimp only
    rw [if_neg hbang, bind_assoc]
    refine congrArg _ (funext fun settled => ?_)
    cases settled with
    | linked q => rfl
    | closed depth stack tree => exact (if_neg hstop).symm

theorem closing_group (depth : Nat) (below : List Frame) (tree : Expr) :
    closing known c (.closed depth (.group :: below) tree) =
      closed known c (Parser.complete (depth - 1) below tree) := by
  rw [closing, closed]
  split
  · next hstop =>
    rw [if_neg (by simp [hstop])]
    rfl
  · rw [Parser.close]
    split <;> rfl

theorem closing_call (below : List Frame) (f : Function) (args : List Expr) (tree : Expr) :
    closing known c (.closed c.depth (.call f args :: below) tree) =
      listedTo known c below f (args ++ [tree]) := by
  rw [closing, listedTo, closed]
  split
  · next hstop =>
    simp only [ended, Parser.wanted, hstop, List.length_append, List.length_singleton,
      reduceCtorEq, false_and, if_false]
    split <;> rfl
  · simp only [Parser.close, Parser.wanted, List.length_append, List.length_singleton]
    split
    · rfl
    · by_cases hparen : c.current.token = .rightParen <;>
        by_cases haccepts : f.arity.accepts (args.length + 1) = true <;>
        simp only [hparen, haccepts, and_self, and_true, if_true, if_false] <;> rfl

end Outcome

/-- How the parser ends that goes on where the descent is. -/
def State.outcome (known : Text → Bool) (s : State) : Except ParseError Expr :=
  let c := s.cursor
  let stack := frames s.calls
  match s.control with
  | .enter (.arguments f) | .arguments f [] =>
    resume ⟨c.depth, .call f [] :: stack, .operand⟩ (c.stream known)
  | .enter _ => resume ⟨c.depth, stack, .operand⟩ (c.stream known)
  | .chain .power links tree => resume ⟨c.depth, stack, .chain links tree⟩ (c.stream known)
  | .chain level links tree => do
    closing known c
      (← Parser.settle c.current c.depth stack level links tree (looser level))
  | .arguments f args => listedTo known c stack f args
  | .back (.chain level) tree => do
    closing known c (← rise c.current c.depth stack tree (looser level))
  | .back _ tree => resume (Parser.complete c.depth stack tree) (c.stream known)
  | .listed f args => closed known c (Parser.complete (c.depth - 1) stack (.call f args))

end MatrixCalc.Descent
