import MatrixCalc.Proofs.Except
import MatrixCalc.Proofs.Expr.Unambiguous

/-!
# The parser on bare tokens

Whether the parser takes a token does not depend on the place of the token. What it becomes is
said here once, token by token; `feed`, `settle` and `close` are opened nowhere else.
-/
namespace MatrixCalc

/-- How loosely an open construct holds what stands in it: a sign holds an operand, a chain its
next member, a parenthesis everything. -/
def Frame.looseness : Frame → Nat
  | .sign _ => 0
  | .chain level _ _ _ => level.looseness
  | .group | .call _ _ => 4

/-- A member of a chain of this level may end here, or the chain itself. -/
def Waits (level : Level) (stack : List Frame) : Prop :=
  ∀ frame ∈ stack.head?, level.looseness ≤ frame.looseness

/-- A chain of this level may begin here. -/
def Fresh (level : Level) (stack : List Frame) : Prop :=
  ∀ frame ∈ stack.head?, level.looseness < frame.looseness

/-- A parser behind an operand. -/
structure Pending where
  depth : Nat
  stack : List Frame
  links : Nat
  tree : Expr

namespace Pending

def parser (x : Pending) : Parser := ⟨x.depth, x.stack, .chain x.links x.tree⟩

/-- A tree is complete up to the given level. -/
def joined (level : Level) (depth : Nat) (stack : List Frame) (tree : Expr) : Pending :=
  let (below, links, tree) := Parser.join level stack tree
  ⟨depth, below, links, tree⟩

/-- The chain is closed and its tree complete up to the given level. -/
def up (level : Level) (x : Pending) : Pending :=
  joined level (x.depth - x.links) x.stack x.tree

/-- All chains that bind tighter than the given level are closed. -/
def climb (level : Level) (x : Pending) : Pending :=
  match level with
  | .power => x
  | .product => x.up .product
  | .sum => (x.up .product).up .sum

end Pending

namespace Parser

/-- What a token makes of a parser. -/
def step? (s : Parser) (t : Token) : Option Parser := (s.feed ⟨t, 0, []⟩).toOption

def finish? (s : Parser) : Option Expr := (s.finish ⟨.stop, 0, []⟩).toOption

def run? (s : Parser) (ts : List Token) : Option Parser := ts.foldlM step? s

theorem toOption_enter (p : Placed) (d : Nat) :
    (enter p d).toOption = if d < maxDepth then some (d + 1) else none := by
  unfold enter
  split <;> rfl

section Places

variable {p q : Placed} (h : p.token = q.token)

include h

theorem toOption_operand (s : Parser) : (s.operand p).toOption = (s.operand q).toOption := by
  unfold operand
  rw [h]
  split
  · rfl
  · simp [toOption_map, toOption_enter]
  · simp [toOption_map, toOption_enter]
  · simp [toOption_map, toOption_enter]
  · simp [toOption_map, toOption_enter]
  · split
    · split <;> rfl
    · rfl
  · rfl

theorem toOption_settle (d : Nat) (stack : List Frame) (level : Level) (links : Nat)
    (tree : Expr) (looser : List Level) :
    (settle p d stack level links tree looser).toOption =
      (settle q d stack level links tree looser).toOption := by
  induction looser generalizing d stack level links tree with
  | nil =>
    unfold settle
    rw [h]
    split
    · simp [toOption_map, toOption_enter]
    · rfl
    · next heq => cases heq
  | cons next looser ih =>
    unfold settle
    rw [h]
    split
    · simp [toOption_map, toOption_enter]
    · next heq => cases heq
    · next heq =>
      cases heq
      exact ih _ _ _ _ _

theorem toOption_close (d : Nat) (stack : List Frame) (tree : Expr) :
    (close p d stack tree).toOption = (close q d stack tree).toOption := by
  unfold close
  rw [h]
  split
  · rfl
  · split <;> rfl
  · next f args below =>
    simp only
    split
    · rfl
    · split <;> rfl
  · rfl

theorem toOption_feed (s : Parser) : (s.feed p).toOption = (s.feed q).toOption := by
  unfold feed
  rw [h]
  split
  · exact toOption_operand h s
  · split <;> rfl
  · split
    · simp [toOption_map, toOption_enter]
    · rw [toOption_bind, toOption_bind, toOption_settle h]
      congr 1
      funext settled
      cases settled with
      | linked s => rfl
      | closed d stack tree => exact toOption_close h d stack tree

end Places

theorem toOption_finish (s : Parser) (p : Placed) : (s.finish p).toOption = s.finish? := by
  unfold finish? finish
  split
  · rfl
  · rfl
  · simp only
    split <;> rfl

theorem toOption_feed_eq (s : Parser) (p : Placed) : (s.feed p).toOption = s.step? p.token := by
  refine toOption_feed ?_ s
  rfl

theorem toOption_foldlM_feed (ps : List Placed) (s : Parser) :
    (ps.foldlM feed s).toOption = s.run? (ps.map Placed.token) := by
  induction ps generalizing s with
  | nil => rfl
  | cons p ps ih =>
    rw [List.foldlM_cons, toOption_bind, toOption_feed_eq]
    exact congrArg _ (funext ih)

@[simp] theorem run?_nil (s : Parser) : s.run? [] = some s := rfl

@[simp] theorem run?_cons (s : Parser) (t : Token) (ts : List Token) :
    s.run? (t :: ts) = (s.step? t).bind fun s => s.run? ts := by
  simp [run?]

theorem run?_append (s : Parser) (ts us : List Token) :
    s.run? (ts ++ us) = (s.run? ts).bind fun s => s.run? us := by
  simp [run?, List.foldlM_append]

section Operand

variable (d : Nat) (stack : List Frame)

theorem step?_number (x : Float) :
    step? ⟨d, stack, .operand⟩ (.number x) = some (complete d stack (.number x)) := rfl

theorem step?_leftParen : step? ⟨d, stack, .operand⟩ .leftParen =
    if d < maxDepth then some ⟨d + 1, .group :: stack, .operand⟩ else none := by
  simp only [step?, feed, operand, bind_pure_comp, toOption_map, toOption_enter]
  split <;> rfl

theorem step?_sign (negative : Bool) :
    step? ⟨d, stack, .operand⟩ (.operator (if negative then .sub else .add)) =
      if d < maxDepth then some ⟨d + 1, .sign negative :: stack, .operand⟩ else none := by
  cases negative <;>
    simp only [step?, feed, operand, bind_pure_comp, toOption_map, toOption_enter,
      Bool.false_eq_true, if_true, if_false] <;>
    split <;> rfl

theorem step?_function (f : Function) : step? ⟨d, stack, .operand⟩ (.function f) =
    if d < maxDepth then some ⟨d + 1, .call f [] :: stack, .parenthesis⟩ else none := by
  simp only [step?, feed, operand, bind_pure_comp, toOption_map, toOption_enter]
  split <;> rfl

theorem step?_parenthesis (t : Token) : step? ⟨d, stack, .parenthesis⟩ t =
    if t = .leftParen then some ⟨d, stack, .operand⟩ else none := by
  simp only [step?, feed]
  split <;> rfl

theorem step?_emptyCall (f : Function) :
    step? ⟨d, .call f [] :: stack, .operand⟩ .rightParen =
      if f.arity.accepts 0 then some (complete (d - 1) stack (.call f [])) else none := by
  simp only [step?, feed, operand]
  split <;> rfl

end Operand

section Behind

variable (x : Pending)

theorem step?_bang : x.parser.step? .bang =
    if x.depth < maxDepth then
      some (Pending.parser ⟨x.depth + 1, x.stack, x.links + 1, x.tree.factorial⟩)
    else none := by
  simp only [step?, feed, Pending.parser, bind_pure_comp, toOption_map, toOption_enter, if_true]
  split <;> rfl

theorem toOption_settle_link {p : Placed} {level : Level} {op : Operator}
    (h : level.link? p.token = some op) (looser : List Level) :
    (settle p x.depth x.stack level x.links x.tree looser).toOption =
      if x.depth < maxDepth then
        some (.linked ⟨x.depth + 1, .chain level (x.links + 1) x.tree op :: x.stack, .operand⟩)
      else none := by
  unfold settle
  rw [h]
  simp only [bind_pure_comp, toOption_map, toOption_enter]
  split <;> rfl

theorem settle_up {p : Placed} {level : Level} (h : level.link? p.token = none) (next : Level)
    (looser : List Level) :
    settle p x.depth x.stack level x.links x.tree (next :: looser) =
      settle p (x.up next).depth (x.up next).stack next (x.up next).links (x.up next).tree
        looser := by
  conv =>
    lhs
    unfold settle
  rw [h]
  rfl

theorem settle_closed {p : Placed} {level : Level} (h : level.link? p.token = none) :
    settle p x.depth x.stack level x.links x.tree [] =
      .ok (.closed (x.depth - x.links) x.stack x.tree) := by
  unfold settle
  rw [h]

/-- An operator closes the chains that bind tighter and goes on with its own. -/
theorem step?_operator (op : Operator) : x.parser.step? (.operator op) =
    if (x.climb op.level).depth < maxDepth then
      some ⟨(x.climb op.level).depth + 1,
        .chain op.level ((x.climb op.level).links + 1) (x.climb op.level).tree op ::
          (x.climb op.level).stack, .operand⟩
    else none := by
  have hsettle : (settle ⟨.operator op, 0, []⟩ x.depth x.stack .power x.links x.tree
      [.product, .sum]).toOption =
      if (x.climb op.level).depth < maxDepth then
        some (.linked ⟨(x.climb op.level).depth + 1,
          .chain op.level ((x.climb op.level).links + 1) (x.climb op.level).tree op ::
            (x.climb op.level).stack, .operand⟩)
      else none := by
    cases op with
    | pow => exact toOption_settle_link x rfl _
    | mul | div | mod =>
      rw [settle_up x rfl]
      exact toOption_settle_link (x.up .product) rfl _
    | add | sub =>
      rw [settle_up x rfl, settle_up (x.up .product) rfl]
      exact toOption_settle_link ((x.up .product).up .sum) rfl _
  simp only [step?, feed, Pending.parser, reduceCtorEq, if_false, toOption_bind, hsettle]
  split <;> rfl

/-- A token that is no operator closes all chains of the innermost construct. -/
theorem step?_closing {t : Token} (h : Level.sum.continues t = false) : x.parser.step? t =
    (close ⟨t, 0, []⟩ ((x.climb .sum).depth - (x.climb .sum).links) (x.climb .sum).stack
      (x.climb .sum).tree).toOption := by
  have hlink : ∀ level : Level, level.link? t = none := by
    intro level
    cases t with
    | operator op => cases op <;> cases h
    | _ => rfl
  have hbang : t ≠ .bang := by
    rintro rfl
    cases h
  simp only [step?, feed, Pending.parser, if_neg hbang]
  rw [settle_up x (hlink _), settle_up (x.up .product) (hlink _), settle_closed _ (hlink _)]
  rfl

theorem finish?_of_waiting : x.parser.finish? =
    if (x.climb .sum).stack = [] then some (x.climb .sum).tree else none := by
  unfold finish? finish
  dsimp only [Pending.parser]
  split
  · next hstack => exact (if_pos hstack).symm
  · next hstack => exact (if_neg hstack).symm

end Behind

section Close

variable (t : Token) (d : Nat) (below : List Frame) (tree : Expr)

theorem toOption_close_nil : (close ⟨t, 0, []⟩ d [] tree).toOption = none := rfl

theorem toOption_close_group : (close ⟨t, 0, []⟩ d (.group :: below) tree).toOption =
    if t = .rightParen then some (complete (d - 1) below tree) else none := by
  simp only [close]
  split <;> rfl

theorem toOption_close_call (f : Function) (args : List Expr) :
    (close ⟨t, 0, []⟩ d (.call f args :: below) tree).toOption =
      if t = .comma ∧ args.length + 1 < f.arity.most then
        some ⟨d, .call f (args ++ [tree]) :: below, .operand⟩
      else if t = .rightParen ∧ f.arity.accepts (args.length + 1) then
        some (complete (d - 1) below (.call f (args ++ [tree])))
      else none := by
  simp only [close, List.length_append, List.length_singleton]
  split
  · rfl
  · split <;> rfl

end Close

theorem complete_sign (d : Nat) (negative : Bool) (below : List Frame) (tree : Expr) :
    complete d (.sign negative :: below) tree =
      complete (d - 1) below (if negative then tree.negate else tree) := by
  rw [complete]

/-- Where a power may end, a complete operand joins it. -/
theorem complete_of_waits {stack : List Frame} (h : Waits .power stack) (d : Nat) (tree : Expr) :
    complete d stack tree = (Pending.joined .power d stack tree).parser := by
  cases stack with
  | nil => rfl
  | cons frame below =>
    cases frame with
    | sign => exact absurd (h _ rfl) (Nat.not_succ_le_zero 0)
    | group | call | chain =>
      rw [complete]
      · rfl
      · nofun

end Parser

namespace Pending

theorem joined_of_fresh {level : Level} {stack : List Frame} (h : Fresh level stack) (d : Nat)
    (tree : Expr) : joined level d stack tree = ⟨d, stack, 0, tree⟩ := by
  cases stack with
  | nil => rfl
  | cons frame below =>
    cases frame with
    | chain l links left op =>
      have hne : l ≠ level := by
        rintro rfl
        exact Nat.lt_irrefl _ (h _ rfl)
      simp [joined, Parser.join, hne]
    | group | call | sign => rfl

theorem joined_chain (level : Level) (links : Nat) (left : Expr) (op : Operator)
    (below : List Frame) (d : Nat) (tree : Expr) :
    joined level d (.chain level links left op :: below) tree =
      ⟨d, below, links, .binary op left tree⟩ := by
  simp [joined, Parser.join]

end Pending

theorem waits_chain (level : Level) (links : Nat) (left : Expr) (op : Operator)
    (below : List Frame) : Waits level (.chain level links left op :: below) := by
  simp [Waits, Frame.looseness]

theorem Fresh.waits {level : Level} {stack : List Frame} (h : Fresh level stack) :
    Waits level stack := fun frame hframe => Nat.le_of_lt (h frame hframe)

/-- Where a chain may begin, a chain that binds tighter may. -/
theorem Waits.fresh {tight loose : Level} {stack : List Frame} (h : Waits loose stack)
    (hlt : tight.looseness < loose.looseness) : Fresh tight stack :=
  fun frame hframe => Nat.lt_of_lt_of_le hlt (h frame hframe)

theorem fresh_group (level : Level) (below : List Frame) : Fresh level (.group :: below) := by
  cases level <;> simp [Fresh, Frame.looseness, Level.looseness]

theorem fresh_call (level : Level) (f : Function) (args : List Expr) (below : List Frame) :
    Fresh level (.call f args :: below) := by
  cases level <;> simp [Fresh, Frame.looseness, Level.looseness]

theorem fresh_nil (level : Level) : Fresh level [] := by
  simp [Fresh]

end MatrixCalc
