import MatrixCalc.Proofs.Binary64.Whole
import MatrixCalc.Proofs.Eval.FunctionShapes
import MatrixCalc.Proofs.Eval.Postorder
import MatrixCalc.Proofs.Eval.ShapeSoundness
import MatrixCalc.Proofs.Session.Calls

/-!
# Random draws

A source that counts its draws (`Counted`) gives the same results as the source it wraps. With it
the draws of an evaluation are those of the nodes that were gone through in postorder: a random
number that is given draws once, and nothing else draws, also not a node that fails.
-/
namespace MatrixCalc

/-- A source of random numbers together with the number of draws so far. -/
structure Counted (σ : Type) where
  source : σ
  draws : Nat

variable {σ : Type}

instance [RandomSource σ] : RandomSource (Counted σ) where
  draw bound h s :=
    let (k, t) := RandomSource.draw bound h s.source
    (k, ⟨t, s.draws + 1⟩)

/-- Apart from the count the first calculation is the second. -/
def Calc.Counts {α : Type} (x : Calc (Counted σ) α) (y : Calc σ α) : Prop :=
  ∀ s, y s.source = ((x s).1, (x s).2.source)

namespace Calc.Counts

variable {α β : Type}

theorem ofExcept (r : Except CalcError α) :
    Counts (.ofExcept r : Calc (Counted σ) α) (.ofExcept r) := fun _ => rfl

theorem draw [RandomSource σ] (n : Nat) (h : 0 < n) :
    Counts (Calc.draw n h : Calc (Counted σ) _) (Calc.draw n h) := fun _ => rfl

theorem bind {x : Calc (Counted σ) α} {y : Calc σ α} {f : α → Calc (Counted σ) β}
    {g : α → Calc σ β} (hx : x.Counts y) (hf : ∀ a, (f a).Counts (g a)) :
    (x >>= f).Counts (y >>= g) := by
  intro s
  have hy := hx s
  rcases h : x s with ⟨result, t⟩
  rw [h] at hy
  cases result with
  | error e => rw [Calc.bind_of_error h, Calc.bind_of_error hy]
  | ok a => rw [Calc.bind_of_ok h, Calc.bind_of_ok hy, hf a t]

end Calc.Counts

namespace Function

theorem exists_run_of_ne_rand {f : Function} (h : f ≠ .rand) (args : List Value) :
    ∃ r : Except CalcError Value,
      ∀ (τ : Type) [RandomSource τ], (f.run args : Calc τ Value) = .ofExcept r := by
  cases f with
  | rand => exact absurd rfl h
  | _ => exact ⟨_, fun _ _ => run_eq _ args⟩

/-- Only a call for a random number below a bound in range looks at the source. -/
theorem call_cases (f : Function) (args : List Value) :
    (∃ x n, f = .rand ∧ args = [.scalar x] ∧ Builtin.randomBound? x = some n) ∨
      ∃ r : Except CalcError Value, (f = .rand → ∃ e, r = .error e) ∧
        ∀ (τ : Type) [RandomSource τ], (f.call args : Calc τ Value) = .ofExcept r := by
  cases haccepts : f.arity.accepts args.length with
  | false =>
    refine .inr ⟨.error (.argumentCount f.arity.most args.length), fun _ => ⟨_, rfl⟩, ?_⟩
    intro τ _
    rw [call_eq, haccepts]
    rfl
  | true =>
    by_cases hrand : f = .rand
    · subst hrand
      obtain ⟨v, rfl⟩ := List.length_eq_one_iff.1 (Arity.eq_of_accepts_exactly haccepts)
      cases v with
      | scalar x =>
        cases hbound : Builtin.randomBound? x with
        | some n => exact .inl ⟨x, n, rfl, rfl, hbound⟩
        | none =>
          refine .inr ⟨.error (.randomBound x), fun _ => ⟨_, rfl⟩, fun τ _ => ?_⟩
          exact (call_of_accepts haccepts).trans (Builtin.rand_of_no_bound hbound)
      | vector | matrix => exact .inr ⟨.error _, fun _ => ⟨_, rfl⟩, fun _ _ => rfl⟩
    · obtain ⟨r, hr⟩ := exists_run_of_ne_rand hrand args
      exact .inr ⟨r, fun h => absurd h hrand, fun τ _ => (call_of_accepts haccepts).trans (hr τ)⟩

variable [RandomSource σ]

theorem call_rand {x : Float} {n : Nat} (h : Builtin.randomBound? x = some n) :
    (rand.call [.scalar x] : Calc σ Value) = do
      return .scalar (Float.ofNat (← Calc.draw n (Builtin.randomBound?_pos h))) :=
  (call_of_accepts rfl).trans (Builtin.rand_of_bound h)

theorem call_rand_apply {x : Float} {n : Nat} (h : Builtin.randomBound? x = some n) (s : σ) :
    (rand.call [.scalar x] : Calc σ Value) s =
      (.ok (.scalar (Float.ofNat (RandomSource.draw n (Builtin.randomBound?_pos h) s).1)),
        (RandomSource.draw n (Builtin.randomBound?_pos h) s).2) :=
  congrFun (call_rand h) s

theorem call_counts (f : Function) (args : List Value) :
    (f.call args : Calc (Counted σ) Value).Counts (f.call args) := by
  rcases f.call_cases args with ⟨x, n, rfl, rfl, hbound⟩ | ⟨r, -, hr⟩
  · rw [call_rand hbound, call_rand hbound]
    exact (Calc.Counts.draw n _).bind fun k => .ofExcept (.ok _)
  · rw [hr, hr]
    exact .ofExcept r

end Function

namespace Expr

variable [RandomSource σ]

mutual

theorem eval_counts : (e : Expr) → (e.eval : Calc (Counted σ) Value).Counts e.eval
  | literal v => by
    rw [eval, eval]
    exact .ofExcept (.ok v)
  | binary op l r => by
    rw [eval, eval]
    exact (eval_counts l).bind fun v => (eval_counts r).bind fun w => .ofExcept (op.values v w)
  | call f args => by
    rw [eval, eval]
    exact (evalAll_counts args).bind f.call_counts

theorem evalAll_counts : (es : List Expr) →
    (evalAll es : Calc (Counted σ) (List Value)).Counts (evalAll es)
  | [] => by
    rw [evalAll, evalAll]
    exact .ofExcept (.ok [])
  | e :: es => by
    rw [evalAll, evalAll]
    exact (eval_counts e).bind fun v => (evalAll_counts es).bind fun vs => .ofExcept (.ok (v :: vs))

end

end Expr

namespace Node

def isRand : Node → Bool
  | call f _ => f = .rand
  | _ => false

variable [RandomSource σ]

/-- A node that gives a value has drawn once if it is for a random number, and else not at all; a
node that fails has not drawn. -/
theorem step_draws (node : Node) (stack : List Value) (s : Counted σ) :
    (∃ stack' t, node.step stack s = (.ok stack', t) ∧
      t.draws = s.draws + if node.isRand then 1 else 0) ∨
    ∃ e, node.step stack s = (.error e, s) := by
  cases node with
  | literal v => exact .inl ⟨_, s, rfl, rfl⟩
  | binary op =>
    match stack with
    | [] | [_] => exact .inl ⟨_, s, rfl, rfl⟩
    | right :: left :: rest =>
      cases hvalue : op.values left right with
      | ok v =>
        have hstep : Calc.ofExcept (op.values left right) s = (.ok v, s) := by rw [hvalue]; rfl
        exact .inl ⟨v :: rest, s, Calc.bind_of_ok hstep, rfl⟩
      | error e =>
        have hstep : Calc.ofExcept (op.values left right) s = (.error e, s) := by rw [hvalue]; rfl
        exact .inr ⟨e, Calc.bind_of_error hstep⟩
  | call f count =>
    rcases f.call_cases (stack.take count).reverse with ⟨x, n, rfl, hargs, hbound⟩ | ⟨r, hrand, hr⟩
    · have hstep := Calc.bind_of_ok (f := fun v => pure (v :: stack.drop count))
        (Function.call_rand_apply hbound s)
      rw [← hargs] at hstep
      exact .inl ⟨_, _, hstep, rfl⟩
    · cases r with
      | ok v =>
        have hne : f ≠ .rand := fun h => by
          obtain ⟨e, he⟩ := hrand h
          cases he
        refine .inl ⟨v :: stack.drop count, s, ?_, ?_⟩
        · rw [step, hr]
          rfl
        · rw [isRand, decide_eq_false hne]
          rfl
      | error e =>
        refine .inr ⟨e, ?_⟩
        rw [step, hr]
        rfl

/-- A run draws for the random numbers among its nodes, up to the node that fails. -/
theorem run_draws (nodes : List Node) (stack : List Value) (s : Counted σ) :
    (∃ stack' t, run nodes stack s = (.ok stack', t) ∧
      t.draws = s.draws + nodes.countP isRand) ∨
    ∃ e t, run nodes stack s = (.error e, t) ∧ ∃ pre node post stack',
      nodes = pre ++ node :: post ∧ run pre stack s = (.ok stack', t) ∧
      node.step stack' t = (.error e, t) ∧ t.draws = s.draws + pre.countP isRand := by
  induction nodes generalizing stack s with
  | nil => exact .inl ⟨stack, s, rfl, rfl⟩
  | cons node nodes ih =>
    rcases node.step_draws stack s with ⟨stack₁, t, hstep, hdraws⟩ | ⟨e, hstep⟩
    · rw [run_cons, Calc.bind_of_ok hstep]
      rcases ih stack₁ t with ⟨stack', u, hu, hcount⟩ |
        ⟨e, u, hu, pre, last, post, stack', rfl, hpre, hlast, hcount⟩
      · refine .inl ⟨stack', u, hu, ?_⟩
        rw [hcount, hdraws, List.countP_cons]
        omega
      · refine .inr ⟨e, u, hu, node :: pre, last, post, stack', rfl, ?_, hlast, ?_⟩
        · rw [run_cons, Calc.bind_of_ok hstep, hpre]
        · rw [hcount, hdraws, List.countP_cons]
          omega
    · rw [run_cons, Calc.bind_of_error hstep]
      exact .inr ⟨e, s, rfl, [], node, nodes, stack, rfl, rfl, hstep, rfl⟩

/-- A run that comes to its end has drawn for every random number that it has gone past. -/
theorem draws_of_run_append {pre post : List Node} {stack stack' : List Value} {s t : Counted σ}
    (h : run (pre ++ post) stack s = (.ok stack', t)) :
    ∃ stack₁ u, run pre stack s = (.ok stack₁, u) ∧ u.draws = s.draws + pre.countP isRand := by
  rcases run_draws pre stack s with hok | ⟨e, u, herror, -⟩
  · exact hok
  · rw [run_append, Calc.bind_of_error herror] at h
    cases h

end Node

namespace Builtin

theorem randomBound?_eq_some_iff {x : Float} {n : Nat} :
    randomBound? x = some n ↔ Binary64.whole? x = some (n : Int) ∧ 1 ≤ n ∧ n ≤ maxRandomBound := by
  unfold randomBound?
  constructor
  · intro h
    split at h
    · next m hm =>
      split at h
      · next hrange =>
        cases h
        exact ⟨(Binary64.natural32?_eq_some_iff.1 hm).1, hrange⟩
      · cases h
    · cases h
  · rintro ⟨hwhole, hrange⟩
    have hword : maxRandomBound < Nat.pow 2 32 := by decide
    rw [Binary64.natural32?_eq_some_iff.2 ⟨hwhole, by omega⟩]
    exact if_pos hrange

end Builtin

/-- The value is a whole number in the range of bounds for a random number. -/
def Value.IsBound (v : Value) (n : Nat) : Prop :=
  ∃ x, v = .scalar x ∧ Binary64.whole? x = some (n : Int) ∧ 1 ≤ n ∧ n ≤ 32768

namespace Expr

variable [RandomSource σ] {arg : Expr} {v : Value} {s t : Counted σ}

theorem eval_rand (h : arg.eval s = (.ok v, t)) :
    (call .rand [arg]).eval s = Function.rand.call [v] t := by
  have hargs : evalAll [arg] s = (.ok [v], t) := by
    rw [evalAll, Calc.bind_of_ok h]
    rfl
  rw [eval, Calc.bind_of_ok hargs]

theorem eval_rand_of_isBound {n : Nat} (h : arg.eval s = (.ok v, t)) (hv : v.IsBound n) :
    ∃ y u, (call .rand [arg]).eval s = (.ok (.scalar y), u) ∧ u.draws = t.draws + 1 ∧
      ∃ k : Nat, Binary64.whole? y = some (k : Int) ∧ k < n := by
  obtain ⟨x, rfl, hx⟩ := hv
  have hbound := Builtin.randomBound?_eq_some_iff.2 hx
  rw [eval_rand h, Function.call_rand_apply hbound]
  have hlt := (RandomSource.draw n (Builtin.randomBound?_pos hbound) t).1.isLt
  refine ⟨_, _, rfl, rfl, _, Binary64.whole?_ofNat ?_, hlt⟩
  have hmax := hx.2.2
  omega

theorem eval_rand_of_not_isBound (h : arg.eval s = (.ok v, t)) (hv : ∀ n, ¬ v.IsBound n) :
    ∃ e, (call .rand [arg]).eval s = (.error e, t) := by
  rw [eval_rand h]
  rcases Function.call_cases .rand [v] with ⟨x, n, -, hargs, hbound⟩ | ⟨r, hr, hcall⟩
  · obtain rfl : v = .scalar x := List.singleton_inj.1 hargs
    exact absurd ⟨x, rfl, Builtin.randomBound?_eq_some_iff.1 hbound⟩ (hv n)
  · obtain ⟨e, rfl⟩ := hr rfl
    rw [hcall]
    exact ⟨e, rfl⟩

/-- Evaluation is the run over the postorder. -/
theorem run_postorder_nil (e : Expr) (s : σ) :
    Node.run e.postorder [] s = ((e.eval s).1.map ([·]), (e.eval s).2) := by
  rw [run_postorder]
  rcases h : e.eval s with ⟨result, t⟩
  cases result with
  | ok v => exact Calc.bind_of_ok h
  | error err => exact Calc.bind_of_error h

end Expr

/-- Random numbers are drawn in the order of evaluation and by calls that succeed only. -/
theorem draws_in_postorder [RandomSource σ] (e : Expr) (s : Counted σ) :
    e.eval s.source = ((e.eval s).1, (e.eval s).2.source) ∧
    Node.run e.postorder [] s = ((e.eval s).1.map ([·]), (e.eval s).2) ∧
    (∀ v t, e.eval s = (.ok v, t) →
      t.draws = s.draws + e.postorder.countP Node.isRand ∧
      ∀ pre post, e.postorder = pre ++ post → ∃ stack u, Node.run pre [] s = (.ok stack, u) ∧
        u.draws = s.draws + pre.countP Node.isRand) ∧
    (∀ err t, e.eval s = (.error err, t) → ∃ pre node post stack,
      e.postorder = pre ++ node :: post ∧ Node.run pre [] s = (.ok stack, t) ∧
      node.step stack t = (.error err, t) ∧ t.draws = s.draws + pre.countP Node.isRand) ∧
    ∀ arg v t, arg.eval s = (.ok v, t) →
      (∀ n, v.IsBound n → ∃ y u, (Expr.call .rand [arg]).eval s = (.ok (.scalar y), u) ∧
        u.draws = t.draws + 1 ∧ ∃ k : Nat, Binary64.whole? y = some (k : Int) ∧ k < n) ∧
      ((∀ n, ¬ v.IsBound n) → ∃ err, (Expr.call .rand [arg]).eval s = (.error err, t)) := by
  have hrun := e.run_postorder_nil s
  refine ⟨e.eval_counts s, hrun, ?_, ?_, ?_⟩
  · intro v t h
    rw [h] at hrun
    have hpast : ∀ pre post, e.postorder = pre ++ post → ∃ stack u,
        Node.run pre [] s = (.ok stack, u) ∧ u.draws = s.draws + pre.countP Node.isRand := by
      intro pre post hsplit
      rw [hsplit] at hrun
      exact Node.draws_of_run_append hrun
    obtain ⟨stack, u, hall, hdraws⟩ := hpast e.postorder [] (List.append_nil _).symm
    rw [hrun] at hall
    cases hall
    exact ⟨hdraws, hpast⟩
  · intro err t h
    rw [h] at hrun
    rcases Node.run_draws e.postorder [] s with ⟨stack, u, hok, -⟩ |
      ⟨err', u, herror, pre, node, post, stack, hsplit, hpre, hnode, hdraws⟩
    · rw [hrun] at hok
      cases hok
    · rw [hrun] at herror
      cases herror
      exact ⟨pre, node, post, stack, hsplit, hpre, hnode, hdraws⟩
  · intro arg v t h
    exact ⟨fun n => Expr.eval_rand_of_isBound h, Expr.eval_rand_of_not_isBound h⟩

def Counted.ofSeed (seed : Nat) : Counted Seeded := ⟨.ofSeed seed, 0⟩

/-- A random number below three plus one below zero, which is refused. -/
def Expr.drawnAndRefused : Expr :=
  .binary .add (.call .rand [.number 3]) (.call .rand [.number 0])

/-- The first of the two calls draws and the second is the node that fails. The first on its own
has a value, and three is its bound. -/
theorem draws_in_postorder_of_drawnAndRefused :
    (∃ t, Expr.drawnAndRefused.eval (Counted.ofSeed 0) = (.error (.randomBound 0), t) ∧
      t.draws = 1 ∧ ∃ pre node post stack,
        Expr.drawnAndRefused.postorder = pre ++ node :: post ∧
        Node.run pre [] (Counted.ofSeed 0) = (.ok stack, t) ∧
        node.step stack t = (.error (.randomBound 0), t) ∧
        t.draws = 0 + pre.countP Node.isRand) ∧
    (∃ v t, (Expr.call .rand [.number 3]).eval (Counted.ofSeed 0) = (.ok v, t) ∧
      t.draws = 0 + 1) ∧
    (Value.scalar 3).IsBound 3 ∧
    ∃ y u, (Expr.call .rand [.number 3]).eval (Counted.ofSeed 0) = (.ok (.scalar y), u) ∧
      u.draws = 1 ∧ ∃ k : Nat, Binary64.whole? y = some (k : Int) ∧ k < 3 := by
  have hthree : (Value.scalar 3).IsBound 3 := ⟨3, rfl, by decide⟩
  obtain ⟨-, -, -, hfails, -⟩ := draws_in_postorder .drawnAndRefused (Counted.ofSeed 0)
  obtain ⟨-, -, hsucceeds, -, hrand⟩ :=
    draws_in_postorder (.call .rand [.number 3]) (Counted.ofSeed 0)
  obtain ⟨y, u, hu, hdraws, hy⟩ := (hrand (.number 3) _ _ rfl).1 3 hthree
  exact ⟨⟨_, rfl, by decide, hfails _ _ rfl⟩, ⟨_, u, hu, (hsucceeds _ u hu).1⟩, hthree, y, u, hu,
    hdraws, hy⟩

end MatrixCalc
