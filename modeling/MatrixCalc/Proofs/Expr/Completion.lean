import MatrixCalc.Proofs.Expr.Derivations
import MatrixCalc.Proofs.Expr.Spaced

/-!
# What the parser has taken can be completed

Every token that the parser takes leaves it in a state from which it can finish: a call never holds
so many arguments that none can follow where one must, and chains are open in an order in which they
can be closed. Closing what is open needs no further levels, so it succeeds at any depth.
-/
namespace MatrixCalc

/-- The construct may be open on top of these: a chain where one of its level may begin, and a call
while it can take one more argument. -/
inductive Frame.Fits : Frame → List Frame → Prop
  | group (below : List Frame) : Fits .group below
  | sign (negative : Bool) (below : List Frame) : Fits (.sign negative) below
  | call {f : Function} {args : List Expr} (h : args.length < f.arity.most)
      (below : List Frame) : Fits (.call f args) below
  | chain {level : Level} {below : List Frame} (h : Fresh level below) (links : Nat)
      (left : Expr) (op : Operator) : Fits (.chain level links left op) below

inductive Ordered : List Frame → Prop
  | nil : Ordered []
  | cons {frame : Frame} {below : List Frame} (h : frame.Fits below) (hbelow : Ordered below) :
      Ordered (frame :: below)

/-- How many tokens may be missing until the construct ends, apart from operands. -/
def Frame.owed : Frame → Nat
  | .group => 1
  | .call f args => f.arity.most - args.length
  | .sign _ | .chain _ _ _ _ => 0

def owed : List Frame → Nat
  | [] => 0
  | frame :: below => frame.owed + owed below

theorem Level.looseness_pos (level : Level) : 0 < level.looseness := by
  cases level <;> decide

theorem Level.looseness_injective {l l' : Level} (h : l.looseness = l'.looseness) : l = l' := by
  cases l <;> cases l' <;> first | rfl | cases h

/-- Where a chain of this level may end but none may begin, one waits for its operand. -/
theorem Waits.exists_chain {level : Level} {stack : List Frame} (hw : Waits level stack)
    (hf : ¬ Fresh level stack) :
    ∃ links left op below, stack = .chain level links left op :: below := by
  cases stack with
  | nil => exact absurd (fresh_nil level) hf
  | cons frame below =>
    cases frame with
    | group => exact absurd (fresh_group level below) hf
    | call f args => exact absurd (fresh_call level f args below) hf
    | sign negative => exact absurd (hw _ rfl) (Nat.not_le_of_lt level.looseness_pos)
    | chain l links left op =>
      have hle : level.looseness ≤ l.looseness := hw _ rfl
      have hge : ¬ level.looseness < l.looseness := by
        intro hlt
        refine hf fun frame hframe => ?_
        cases hframe
        exact hlt
      obtain rfl := Level.looseness_injective (Nat.le_antisymm hle (Nat.le_of_not_lt hge))
      exact ⟨links, left, op, below, rfl⟩

/-- Where a chain may begin, one of the next looser level may end. -/
theorem Fresh.waits_looser {tight loose : Level} {stack : List Frame} (h : Fresh tight stack)
    (hnext : loose.looseness = tight.looseness + 1) : Waits loose stack := by
  intro frame hframe
  rw [hnext]
  exact h frame hframe

namespace Pending

/-- What is open is in order, and a chain of this level may go on. -/
structure Orderly (level : Level) (x : Pending) : Prop where
  ordered : Ordered x.stack
  fresh : Fresh level x.stack

theorem orderly_joined {level : Level} {stack : List Frame} (ho : Ordered stack)
    (hw : Waits level stack) (d : Nat) (tree : Expr) :
    (joined level d stack tree).Orderly level := by
  by_cases hf : Fresh level stack
  · rw [joined_of_fresh hf]
    exact ⟨ho, hf⟩
  · obtain ⟨links, left, op, below, rfl⟩ := hw.exists_chain hf
    rw [joined_chain]
    cases ho with
    | cons hfits hbelow =>
      cases hfits with
      | chain hfresh => exact ⟨hbelow, hfresh⟩

theorem owed_joined (level : Level) (d : Nat) (stack : List Frame) (tree : Expr) :
    owed (joined level d stack tree).stack = owed stack := by
  cases stack with
  | nil => rfl
  | cons frame below =>
    cases frame with
    | group | sign | call => rfl
    | chain l links left op =>
      by_cases hl : l = level
      · subst hl
        rw [joined_chain]
        exact (Nat.zero_add _).symm
      · simp only [joined, Parser.join, if_neg hl]

namespace Orderly

variable {x : Pending} (h : x.Orderly .power)

include h

/-- Closing the tighter chains leaves what is open in order. -/
theorem climb (level : Level) : (x.climb level).Orderly level := by
  have hproduct : (x.climb .product).Orderly .product :=
    orderly_joined h.ordered (h.fresh.waits_looser rfl) _ _
  cases level with
  | power => exact h
  | product => exact hproduct
  | sum => exact orderly_joined hproduct.ordered (hproduct.fresh.waits_looser rfl) _ _

end Orderly

theorem owed_climb (level : Level) (x : Pending) : owed (x.climb level).stack = owed x.stack := by
  cases level with
  | power => rfl
  | product => exact owed_joined _ _ _ _
  | sum => exact (owed_joined _ _ _ _).trans (owed_joined _ _ _ _)

end Pending

/-- The parser can go on from here to the end of an expression. -/
inductive Parser.Viable : Parser → Prop
  | operand (d : Nat) {stack : List Frame} (h : Ordered stack) : Viable ⟨d, stack, .operand⟩
  | parenthesis (d : Nat) {stack : List Frame} (h : Ordered stack) :
      Viable ⟨d, stack, .parenthesis⟩
  | pending {x : Pending} (h : x.Orderly .power) : Viable x.parser

namespace Parser

/-- A complete operand leaves the parser behind an operand, with as much missing as before. -/
theorem exists_complete {stack : List Frame} (h : Ordered stack) (d : Nat) (tree : Expr) :
    ∃ x : Pending, complete d stack tree = x.parser ∧ x.Orderly .power ∧
      owed x.stack = owed stack := by
  have hjoined : ∀ {stack : List Frame}, Ordered stack → Waits .power stack → ∀ d tree,
      ∃ x : Pending, complete d stack tree = x.parser ∧ x.Orderly .power ∧
        owed x.stack = owed stack := fun ho hw d tree =>
    ⟨_, complete_of_waits hw d tree, Pending.orderly_joined ho hw d tree,
      Pending.owed_joined _ _ _ _⟩
  induction h generalizing d tree with
  | nil => exact hjoined .nil (fresh_nil _).waits d tree
  | cons hfits hbelow ih =>
    cases hfits with
    | group => exact hjoined (.cons (.group _) hbelow) (fresh_group _ _).waits d tree
    | sign negative =>
      obtain ⟨x, hx, ho, howed⟩ := ih (d - 1) (if negative then tree.negate else tree)
      exact ⟨x, (complete_sign _ _ _ _).trans hx, ho, howed.trans (Nat.zero_add _).symm⟩
    | call hmost => exact hjoined (.cons (.call hmost _) hbelow) (fresh_call _ _ _ _).waits d tree
    | @chain level _ hfresh links left op =>
      refine hjoined (.cons (.chain hfresh links left op) hbelow) ?_ d tree
      intro frame hframe
      cases hframe
      exact level.looseness_pos

theorem viable_complete {stack : List Frame} (h : Ordered stack) (d : Nat) (tree : Expr) :
    (complete d stack tree).Viable := by
  obtain ⟨x, hx, ho, -⟩ := exists_complete h d tree
  rw [hx]
  exact .pending ho

theorem viable_begins {d : Nat} {stack : List Frame} (h : Ordered stack) {t : Token} {s : Parser}
    (hb : Begins d stack t s) : s.Viable := by
  cases hb with
  | number x => exact viable_complete h d _
  | leftParen => exact .operand _ (.cons (.group _) h)
  | sign negative => exact .operand _ (.cons (.sign negative _) h)
  | function f =>
    have hmost : ([] : List Expr).length < f.arity.most := f.most_pos
    exact .parenthesis _ (.cons (.call hmost _) h)
  | rightParen f below hstack =>
    subst hstack
    cases h with
    | cons _ hbelow => exact viable_complete hbelow _ _

theorem viable_close {t : Token} {d : Nat} {stack : List Frame} (h : Ordered stack) {tree : Expr}
    {s : Parser} (hs : (close ⟨t, 0, []⟩ d stack tree).toOption = some s) : s.Viable := by
  cases h with
  | nil => cases hs
  | cons hfits hbelow =>
    cases hfits with
    | group =>
      rw [toOption_close_group, Option.ite_none_right_eq_some] at hs
      cases hs.2
      exact viable_complete hbelow _ _
    | sign | chain => cases hs
    | call hmost =>
      rw [toOption_close_call] at hs
      split at hs
      · next hcomma =>
        cases hs
        refine .operand _ (.cons (.call ?_ _) hbelow)
        rw [List.length_append]
        exact hcomma.2
      · rw [Option.ite_none_right_eq_some] at hs
        cases hs.2
        exact viable_complete hbelow _ _

theorem viable_step_pending {x : Pending} (h : x.Orderly .power) {t : Token} {s : Parser}
    (hs : x.parser.step? t = some s) : s.Viable := by
  have hclosing : Level.sum.continues t = false → s.Viable := by
    intro ht
    rw [step?_closing x ht] at hs
    exact viable_close (h.climb .sum).ordered hs
  cases t with
  | bang =>
    rw [step?_bang, Option.ite_none_right_eq_some] at hs
    cases hs.2
    exact .pending ⟨h.ordered, h.fresh⟩
  | operator op =>
    rw [step?_operator, Option.ite_none_right_eq_some] at hs
    cases hs.2
    have hc := h.climb op.level
    exact .operand _ (.cons (.chain hc.fresh _ _ _) hc.ordered)
  | stop | number | target | reference | leftParen | rightParen | comma | function =>
    exact hclosing rfl

/-- Every token that is taken leaves the parser where it can go on to the end. -/
theorem Viable.step {s s' : Parser} (h : s.Viable) {t : Token} (hs : s.step? t = some s') :
    s'.Viable := by
  cases h with
  | operand d ho => exact viable_begins ho (begins_of_step? hs)
  | parenthesis d ho =>
    rw [step?_parenthesis, Option.ite_none_right_eq_some] at hs
    cases hs.2
    exact .operand d ho
  | pending ho => exact viable_step_pending ho hs

theorem Viable.run {s s' : Parser} (h : s.Viable) {ts : List Token} (hs : s.run? ts = some s') :
    s'.Viable := by
  induction ts generalizing s with
  | nil =>
    cases hs
    exact h
  | cons t ts ih =>
    rw [run?_cons, Option.bind_eq_some_iff] at hs
    obtain ⟨s₁, hstep, hs⟩ := hs
    exact ih (h.step hstep) hs

theorem viable_start : start.Viable := .operand 0 .nil

/-- With some tokens that can be written down, the parser finishes. -/
def Completable (s : Parser) : Prop :=
  ∃ ts, (∀ token ∈ ts, Writable token) ∧ s.Finishes ts

theorem Completable.of_step {s s' : Parser} {token : Token} (hw : Writable token)
    (hs : s.step? token = some s') (h : s'.Completable) : s.Completable := by
  obtain ⟨ts, hts, last, tree, hrun, hfinish⟩ := h
  refine ⟨token :: ts, List.forall_mem_cons.2 ⟨hw, hts⟩, last, tree, ?_, hfinish⟩
  rw [run?_cons, hs, Option.bind_some, hrun]

/-- Behind an operand, what is open is closed from the innermost on, and each call gets the
arguments that it lacks. -/
theorem completable_pending (x : Pending) (h : x.Orderly .power) : x.parser.Completable := by
  have hcomplete : ∀ {stack : List Frame}, Ordered stack → owed stack < owed x.stack →
      ∀ d tree, (complete d stack tree).Completable := by
    intro stack ho hlt d tree
    obtain ⟨y, hy, hyo, hyowed⟩ := exists_complete ho d tree
    have hless : owed y.stack < owed x.stack := by rwa [hyowed]
    rw [hy]
    exact completable_pending y hyo
  have howed := Pending.owed_climb .sum x
  obtain ⟨ho, hfresh⟩ := h.climb .sum
  generalize hstack : (x.climb .sum).stack = stack at ho hfresh howed
  rw [← howed] at hcomplete
  cases ho with
  | nil =>
    refine ⟨[], nofun, x.parser, (x.climb .sum).tree, rfl, ?_⟩
    rw [finish?_of_waiting, if_pos hstack]
  | @cons frame below hfits hbelow =>
    cases hfits with
    | sign => exact absurd (hfresh _ rfl) (Nat.not_lt_zero _)
    | @chain level =>
      have hlt : Level.sum.looseness < level.looseness := hfresh _ rfl
      cases level <;> exact absurd hlt (by decide)
    | group =>
      have hclose := step?_closing x (t := .rightParen) rfl
      rw [hstack, toOption_close_group, if_pos rfl] at hclose
      exact .of_step Word.rightParen.writable hclose
        (hcomplete hbelow (Nat.lt_add_of_pos_left Nat.one_pos) _ _)
    | @call f args hmost =>
      by_cases haccepts : f.arity.accepts (args.length + 1) = true
      · have hclose := step?_closing x (t := .rightParen) rfl
        rw [hstack, toOption_close_call, if_neg (by simp), if_pos ⟨rfl, haccepts⟩] at hclose
        have hlt : owed below < owed (.call f args :: below) := by
          rw [owed, Frame.owed]
          omega
        exact .of_step Word.rightParen.writable hclose (hcomplete hbelow hlt _ _)
      · have hmore : args.length + 1 < f.arity.most := f.lt_most_of_not_accepts hmost haccepts
        have hcomma := step?_closing x (t := .comma) rfl
        rw [hstack, toOption_close_call, if_pos ⟨rfl, hmore⟩] at hcomma
        have hnext : (args ++ [(x.climb .sum).tree]).length < f.arity.most := by
          rwa [List.length_append]
        have hlt : owed (.call f (args ++ [(x.climb .sum).tree]) :: below) <
            owed (.call f args :: below) := by
          rw [owed, owed, Frame.owed, Frame.owed, List.length_append, List.length_singleton]
          omega
        exact .of_step Word.comma.writable hcomma (.of_step word_one.writable (step?_number _ _ 1)
          (hcomplete (.cons (.call hnext _) hbelow) hlt _ _))
termination_by owed x.stack

theorem Viable.completable {s : Parser} (h : s.Viable) : s.Completable := by
  have hoperand : ∀ d {stack : List Frame}, Ordered stack →
      Completable ⟨d, stack, .operand⟩ := by
    intro d stack ho
    obtain ⟨x, hx, hxo, -⟩ := exists_complete ho d (.number 1)
    have hone := (step?_number d stack 1).trans (congrArg some hx)
    exact .of_step word_one.writable hone (completable_pending x hxo)
  cases h with
  | operand d ho => exact hoperand d ho
  | parenthesis d ho =>
    refine .of_step Word.leftParen.writable ?_ (hoperand d ho)
    rw [step?_parenthesis, if_pos rfl]
  | @pending x ho => exact completable_pending x ho

end Parser
end MatrixCalc
