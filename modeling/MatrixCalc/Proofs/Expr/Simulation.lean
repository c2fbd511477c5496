import Mathlib.Data.List.Forall2
import MatrixCalc.Eval.Tree
import MatrixCalc.Proofs.Expr.Derivations
import MatrixCalc.Proofs.Token.Signs

/-!
# Signs of numerals and signs in front of operands

A sign that belongs to a numeral gives a literal, a sign apart from it gives a prefix operator. Two
parsers that differ in such literals only take the same tokens (`Alike.step`), and one that takes a
numeral with its sign stays alike to one that takes the sign and the numeral. The sign apart needs
an open level for a moment: that is all that can go wrong.
-/
namespace MatrixCalc

/-- The second tree is the first with some literals replaced by the negation of their negative. -/
inductive Expr.Unfolds : Expr → Expr → Prop
  | literal (v : Value) : Unfolds (.literal v) (.literal v)
  | sign (x : Float) : Unfolds (number (-x)) (negate (number x))
  | binary (op : Operator) {left left' right right' : Expr} (hl : Unfolds left left')
      (hr : Unfolds right right') : Unfolds (.binary op left right) (.binary op left' right')
  | call (f : Function) {args args' : List Expr} (h : List.Forall₂ Unfolds args args') :
      Unfolds (.call f args) (.call f args')

namespace Expr.Unfolds

variable {σ : Type} [RandomSource σ]

theorem eval_number (x : Float) : (number x).eval = (pure (.scalar x) : Calc σ Value) := rfl

theorem eval_negate_number (x : Float) :
    (negate (number x)).eval = (pure (.scalar (-x)) : Calc σ Value) := rfl

mutual

/-- Negating a literal gives the value of the negative literal and draws no random numbers. -/
theorem eval_eq {e e' : Expr} (h : e.Unfolds e') : (e.eval : Calc σ Value) = e'.eval := by
  cases h with
  | literal v => rfl
  | sign x => rw [eval_number, eval_negate_number]
  | binary op hl hr => rw [eval, eval, eval_eq hl, eval_eq hr]
  | call f hargs => rw [eval, eval, evalAll_eq hargs]

theorem evalAll_eq {es es' : List Expr} (h : List.Forall₂ Unfolds es es') :
    (evalAll es : Calc σ (List Value)) = evalAll es' := by
  cases h with
  | nil => rfl
  | cons he hes => rw [evalAll, evalAll, eval_eq he, evalAll_eq hes]

end

end Expr.Unfolds

/-- The same is open, and the trees in it unfold. -/
inductive Frame.Alike : Frame → Frame → Prop
  | group : Alike .group .group
  | sign (negative : Bool) : Alike (.sign negative) (.sign negative)
  | call (f : Function) {args args' : List Expr} (h : List.Forall₂ Expr.Unfolds args args') :
      Alike (.call f args) (.call f args')
  | chain (level : Level) (links : Nat) (op : Operator) {left left' : Expr}
      (h : left.Unfolds left') : Alike (.chain level links left op) (.chain level links left' op)

structure Pending.Alike (x y : Pending) : Prop where
  depth : x.depth = y.depth
  stack : List.Forall₂ Frame.Alike x.stack y.stack
  links : x.links = y.links
  tree : x.tree.Unfolds y.tree

/-- The parsers stand at the same place, and the trees that they hold unfold. -/
inductive Parser.Alike : Parser → Parser → Prop
  | operand (d : Nat) {stack stack' : List Frame} (h : List.Forall₂ Frame.Alike stack stack') :
      Alike ⟨d, stack, .operand⟩ ⟨d, stack', .operand⟩
  | parenthesis (d : Nat) {stack stack' : List Frame}
      (h : List.Forall₂ Frame.Alike stack stack') :
      Alike ⟨d, stack, .parenthesis⟩ ⟨d, stack', .parenthesis⟩
  | pending {x y : Pending} (h : x.Alike y) : Alike x.parser y.parser

namespace Pending

theorem alike_joined (level : Level) (d : Nat) {stack stack' : List Frame}
    (hstack : List.Forall₂ Frame.Alike stack stack') {tree tree' : Expr}
    (htree : tree.Unfolds tree') :
    (joined level d stack tree).Alike (joined level d stack' tree') := by
  cases hstack with
  | nil => exact ⟨rfl, .nil, rfl, htree⟩
  | cons hframe hbelow =>
    cases hframe with
    | group => exact ⟨rfl, .cons .group hbelow, rfl, htree⟩
    | sign negative => exact ⟨rfl, .cons (.sign negative) hbelow, rfl, htree⟩
    | call f hargs => exact ⟨rfl, .cons (.call f hargs) hbelow, rfl, htree⟩
    | chain l links op hleft =>
      by_cases hl : l = level
      · subst hl
        rw [joined_chain, joined_chain]
        exact ⟨rfl, hbelow, rfl, .binary op hleft htree⟩
      · simp only [joined, Parser.join, if_neg hl]
        exact ⟨rfl, .cons (.chain l links op hleft) hbelow, rfl, htree⟩

namespace Alike

variable {x y : Pending} (h : x.Alike y)

include h

theorem up (level : Level) : (x.up level).Alike (y.up level) := by
  rw [Pending.up, Pending.up, h.depth, h.links]
  exact alike_joined level _ h.stack h.tree

theorem climb (level : Level) : (x.climb level).Alike (y.climb level) := by
  cases level with
  | power => exact h
  | product => exact h.up .product
  | sum => exact (h.up .product).up .sum

end Alike
end Pending

namespace Parser

theorem complete_of_not_sign {frame : Frame} (h : ∀ negative, frame ≠ .sign negative) (d : Nat)
    (below : List Frame) (tree : Expr) :
    complete d (frame :: below) tree =
      (Pending.joined .power d (frame :: below) tree).parser := by
  rw [complete]
  · rfl
  · rintro negative below' heq
    exact h negative (List.cons.inj heq).1

theorem alike_complete {stack stack' : List Frame}
    (hstack : List.Forall₂ Frame.Alike stack stack') (d : Nat) {tree tree' : Expr}
    (htree : tree.Unfolds tree') : (complete d stack tree).Alike (complete d stack' tree') := by
  induction hstack generalizing d tree tree' with
  | nil => exact .pending (Pending.alike_joined .power d .nil htree)
  | cons hframe hbelow ih =>
    have hjoined := Pending.alike_joined .power d (.cons hframe hbelow) htree
    cases hframe with
    | sign negative =>
      rw [complete_sign, complete_sign]
      apply ih
      cases negative with
      | false => exact htree
      | true => exact .call .negate (.cons htree .nil)
    | group | call | chain =>
      rw [complete_of_not_sign, complete_of_not_sign]
      · exact .pending hjoined
      · nofun
      · nofun

theorem rel_ite {α : Type} {R : α → α → Prop} {a b : α} {c : Prop} [Decidable c] (h : R a b) :
    Option.Rel R (if c then some a else none) (if c then some b else none) := by
  split
  · exact .some h
  · exact .none

section Steps

variable (d : Nat) {stack stack' : List Frame} (hstack : List.Forall₂ Frame.Alike stack stack')

include hstack

theorem alike_step_operand (t : Token) :
    Option.Rel Alike (step? ⟨d, stack, .operand⟩ t) (step? ⟨d, stack', .operand⟩ t) := by
  have hsign : ∀ negative, Option.Rel Alike
      (step? ⟨d, stack, .operand⟩ (.operator (signOperator negative)))
      (step? ⟨d, stack', .operand⟩ (.operator (signOperator negative))) := by
    intro negative
    rw [signOperator, step?_sign, step?_sign]
    exact rel_ite (.operand (d + 1) (.cons (.sign negative) hstack))
  cases t with
  | number x => exact .some (alike_complete hstack d (.literal _))
  | leftParen =>
    rw [step?_leftParen, step?_leftParen]
    exact rel_ite (.operand (d + 1) (.cons .group hstack))
  | operator op =>
    cases op with
    | add => exact hsign false
    | sub => exact hsign true
    | mul | div | mod | pow => exact .none
  | function f =>
    rw [step?_function, step?_function]
    exact rel_ite (.parenthesis (d + 1) (.cons (.call f .nil) hstack))
  | rightParen =>
    cases hstack with
    | nil => exact .none
    | cons hframe hbelow =>
      cases hframe with
      | group | sign | chain => exact .none
      | call f hargs =>
        cases hargs with
        | nil =>
          rw [step?_emptyCall, step?_emptyCall]
          exact rel_ite (alike_complete hbelow (d - 1) (.call f .nil))
        | cons => exact .none
  | stop | target | reference | bang | comma => exact .none

theorem alike_close {t : Token} {tree tree' : Expr} (htree : tree.Unfolds tree') :
    Option.Rel Alike (close ⟨t, 0, []⟩ d stack tree).toOption
      (close ⟨t, 0, []⟩ d stack' tree').toOption := by
  cases hstack with
  | nil => exact .none
  | cons hframe hbelow =>
    cases hframe with
    | group =>
      rw [toOption_close_group, toOption_close_group]
      exact rel_ite (alike_complete hbelow (d - 1) htree)
    | sign | chain => exact .none
    | @call f args args' hargs =>
      have happend : List.Forall₂ Expr.Unfolds (args ++ [tree]) (args' ++ [tree']) :=
        List.rel_append hargs (.cons htree .nil)
      rw [toOption_close_call, toOption_close_call, hargs.length_eq]
      split
      · exact .some (.operand d (.cons (.call f happend) hbelow))
      · exact rel_ite (alike_complete hbelow (d - 1) (.call f happend))

end Steps

theorem alike_step_pending {x y : Pending} (h : x.Alike y) (t : Token) :
    Option.Rel Alike (x.parser.step? t) (y.parser.step? t) := by
  have hclosing : Level.sum.continues t = false →
      Option.Rel Alike (x.parser.step? t) (y.parser.step? t) := by
    intro ht
    have hc := h.climb .sum
    rw [step?_closing x ht, step?_closing y ht, hc.depth, hc.links]
    exact alike_close _ hc.stack hc.tree
  cases t with
  | bang =>
    rw [step?_bang, step?_bang, h.depth, h.links]
    exact rel_ite (.pending ⟨rfl, h.stack, rfl, .call .factorial (.cons h.tree .nil)⟩)
  | operator op =>
    have hc := h.climb op.level
    rw [step?_operator, step?_operator, hc.depth, hc.links]
    exact rel_ite (.operand _ (.cons (.chain _ _ op hc.tree) hc.stack))
  | stop | number | target | reference | leftParen | rightParen | comma | function =>
    exact hclosing rfl

theorem alike_finish_pending {x y : Pending} (h : x.Alike y) :
    Option.Rel Expr.Unfolds x.parser.finish? y.parser.finish? := by
  have hc := h.climb .sum
  have hnil : (x.climb .sum).stack = [] ↔ (y.climb .sum).stack = [] := by
    rw [← List.length_eq_zero_iff, ← List.length_eq_zero_iff, hc.stack.length_eq]
  rw [finish?_of_waiting, finish?_of_waiting]
  simp only [hnil]
  exact rel_ite hc.tree

namespace Alike

variable {s s' : Parser} (h : s.Alike s')

include h

/-- Parsers that are alike take the same tokens and stay alike. -/
theorem step (t : Token) : Option.Rel Alike (s.step? t) (s'.step? t) := by
  cases h with
  | operand d hstack => exact alike_step_operand d hstack t
  | parenthesis d hstack =>
    rw [step?_parenthesis, step?_parenthesis]
    exact rel_ite (.operand d hstack)
  | pending hpending => exact alike_step_pending hpending t

theorem finish : Option.Rel Expr.Unfolds s.finish? s'.finish? := by
  cases h with
  | operand | parenthesis => exact .none
  | pending hpending => exact alike_finish_pending hpending

end Alike

theorem operand_of_close {t : Token} (ht : t.keepsSign = false) {d : Nat} {stack : List Frame}
    {tree : Expr} {r : Parser} (h : (close ⟨t, 0, []⟩ d stack tree).toOption = some r) :
    r.phase = .operand := by
  have hparen : t ≠ .rightParen := by
    rintro rfl
    cases ht
  cases stack with
  | nil => cases h
  | cons frame below =>
    cases frame with
    | group =>
      rw [toOption_close_group, if_neg hparen] at h
      cases h
    | call f args =>
      rw [toOption_close_call] at h
      split at h
      · cases h
        rfl
      · rw [if_neg fun hc => hparen hc.1] at h
        cases h
    | sign | chain => cases h

/-- Behind a token that lets an operand follow, the parser expects one. -/
theorem operand_of_step? {s r : Parser} {t : Token} (h : s.step? t = some r)
    (ht : t.keepsSign = false) : r.phase = .operand := by
  obtain ⟨d, stack, phase⟩ := s
  cases phase with
  | operand =>
    cases begins_of_step? h with
    | leftParen | sign => rfl
    | number | function | rightParen => cases ht
  | parenthesis =>
    rw [step?_parenthesis, Option.ite_none_right_eq_some] at h
    cases h.2
    rfl
  | chain links tree =>
    have h : (Pending.parser ⟨d, stack, links, tree⟩).step? t = some r := h
    have hclosing : Level.sum.continues t = false → r.phase = .operand := by
      intro hc
      rw [step?_closing _ hc] at h
      exact operand_of_close ht h
    cases t with
    | operator op =>
      rw [step?_operator, Option.ite_none_right_eq_some] at h
      cases h.2
      rfl
    | bang => cases ht
    | stop | number | target | reference | leftParen | rightParen | comma | function =>
      exact hclosing rfl

/-- A sign in front of an operand is applied as soon as the operand is complete. -/
theorem alike_complete_sign (d : Nat) {stack stack' : List Frame}
    (h : List.Forall₂ Frame.Alike stack stack') (negative : Bool) (x : Float) :
    (complete d stack (.number (signed negative x))).Alike
      (complete (d + 1) (.sign negative :: stack') (.number x)) := by
  rw [complete_sign, Nat.add_sub_cancel]
  apply alike_complete h
  cases negative with
  | false => exact .literal _
  | true => exact .sign x

theorem exists_of_rel {α : Type} {R : α → α → Prop} {x y : Option α} (h : Option.Rel R x y) {b : α}
    (hy : y = some b) : ∃ a, x = some a ∧ R a b := by
  cases h with
  | some h =>
    cases hy
    exact ⟨_, rfl, h⟩
  | none => cases hy

section Feed

variable {p : Placed} (d : Nat) (stack : List Frame)

theorem feed_number {x : Float} (hp : p.token = .number x) :
    feed ⟨d, stack, .operand⟩ p = .ok (complete d stack (.number x)) := by
  simp only [feed, operand, hp]

theorem feed_sign {negative : Bool} (hp : p.token = .operator (signOperator negative)) :
    Ensures (· = ⟨d + 1, .sign negative :: stack, .operand⟩) (fun e => e.fault = .tooDeep)
      (feed ⟨d, stack, .operand⟩ p) := by
  have hfeed : feed ⟨d, stack, .operand⟩ p =
      (⟨·, .sign negative :: stack, .operand⟩) <$> enter p d := by
    cases negative <;>
    · simp only [feed, operand, hp, signOperator, if_true, Bool.false_eq_true, if_false]
      rfl
  rw [hfeed, enter]
  split <;> rfl

end Feed

end Parser

/-- The tokens of a text and of one with further blanks: where an operand may begin, the second may
hold a sign and a numeral for a numeral of the first. -/
inductive Loosened : Bool → List Token → List Token → Prop
  | nil (fold : Bool) : Loosened fold [] []
  | same (fold : Bool) (token : Token) {ts ts' : List Token}
      (h : Loosened (!token.keepsSign) ts ts') : Loosened fold (token :: ts) (token :: ts')
  | apart (negative : Bool) (x : Float) {ts ts' : List Token} (h : Loosened false ts ts') :
      Loosened true (.number (signed negative x) :: ts)
        (.operator (signOperator negative) :: .number x :: ts')

namespace Loosened

open MatrixCalc.Parser

variable {fold : Bool} {ts ts' : List Token}

/-- What the parser takes with signs apart, it takes with the signs in the numerals. -/
theorem run (h : Loosened fold ts ts') {s s' r' : Parser} (hs : s.Alike s')
    (hfold : fold = true → s.phase = .operand) (hr : s'.run? ts' = some r') :
    ∃ r, s.run? ts = some r ∧ r.Alike r' := by
  induction h generalizing s s' with
  | nil fold =>
    cases hr
    exact ⟨s, rfl, hs⟩
  | same fold token _ ih =>
    rw [run?_cons, Option.bind_eq_some_iff] at hr
    obtain ⟨s₁', hstep', hr⟩ := hr
    obtain ⟨s₁, hstep, hs₁⟩ := exists_of_rel (hs.step token) hstep'
    rw [run?_cons, hstep, Option.bind_some]
    exact ih hs₁ (fun hkeep => operand_of_step? hstep (Bool.not_eq_true' _ ▸ hkeep)) hr
  | apart negative x _ ih =>
    cases hs with
    | parenthesis | pending => cases hfold rfl
    | operand d hstack =>
      rw [run?_cons, signOperator, step?_sign, Option.bind_eq_some_iff] at hr
      obtain ⟨s₁', hsign, hr⟩ := hr
      rw [Option.ite_none_right_eq_some] at hsign
      cases hsign.2
      rw [run?_cons, step?_number, Option.bind_some] at hr
      rw [run?_cons, step?_number, Option.bind_some]
      exact ih (alike_complete_sign d hstack negative x) nofun hr

/-- What the parser takes with the signs in the numerals, it takes with signs apart, unless too
many levels are open at a sign. -/
theorem foldlM_feed (h : Loosened fold ts ts') {s s' r : Parser} (hs : s.Alike s')
    (hfold : fold = true → s.phase = .operand) (hr : s.run? ts = some r) {ps' : List Placed}
    (hps : ps'.map Placed.token = ts') :
    Ensures r.Alike (fun e => e.fault = .tooDeep) (ps'.foldlM feed s') := by
  induction h generalizing s s' ps' with
  | nil fold =>
    cases List.map_eq_nil_iff.1 hps
    cases hr
    exact hs
  | same fold token _ ih =>
    obtain ⟨p, ps', rfl, hp, hps⟩ := List.map_eq_cons_iff.1 hps
    rw [run?_cons, Option.bind_eq_some_iff] at hr
    obtain ⟨s₁, hstep, hr⟩ := hr
    have hstep' := hs.step token
    rw [hstep, ← hp, ← toOption_feed_eq] at hstep'
    rw [List.foldlM_cons]
    cases hfeed : s'.feed p with
    | error e =>
      rw [hfeed] at hstep'
      cases hstep'
    | ok s₁' =>
      rw [hfeed] at hstep'
      cases hstep' with
      | some hs₁ =>
        exact ih hs₁ (fun hkeep => operand_of_step? hstep (Bool.not_eq_true' _ ▸ hkeep)) hr hps
  | apart negative x _ ih =>
    obtain ⟨p, ps', rfl, hp, hps⟩ := List.map_eq_cons_iff.1 hps
    obtain ⟨q, ps', rfl, hq, hps⟩ := List.map_eq_cons_iff.1 hps
    cases hs with
    | parenthesis | pending => cases hfold rfl
    | operand d hstack =>
      rw [run?_cons, step?_number, Option.bind_some] at hr
      rw [List.foldlM_cons]
      refine (feed_sign d _ hp).bind ?_
      rintro _ rfl
      rw [List.foldlM_cons, feed_number _ _ hq]
      exact ih (alike_complete_sign d hstack negative x) nofun hr hps

end Loosened
end MatrixCalc
