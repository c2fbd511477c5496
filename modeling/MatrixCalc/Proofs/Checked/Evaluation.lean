import MatrixCalc.Proofs.Checked.Functions
import MatrixCalc.Proofs.Checked.Parser
import MatrixCalc.Proofs.Checked.Resolution
import MatrixCalc.Session

/-!
# Evaluation with refusals

The calculation of a line, from its characters to its value, with every access checked: texts are
cut and rewritten at byte offsets (the rest of the line at each token, the text of a variable in
place of its name, the text behind an equals sign, the text behind a complete expression),
differences of sizes and the depth of the parser may not go below zero, arguments, components and
cells are read and written by indices, and a random number is drawn below a bound that is not zero.
Whatever the table holds and whatever the line is, nothing is refused
(`evaluation_never_refused`).
-/
namespace MatrixCalc.Checked

/-- A calculation that may draw random numbers and may fail, unless one of its accesses is
refused. -/
abbrev Drawing (σ : Type) := ExceptT CalcError (StateT σ Option)

namespace Drawing

variable {σ α β : Type}

/-- The calculation without accesses. -/
def of (x : Calc σ α) : Drawing σ α := fun s => some (x s)

@[simp] theorem run_of (x : Calc σ α) (s : σ) : (of x).run s = some (x.run s) := rfl

/-- An attempt draws no random numbers. -/
def ofAttempt (x : Attempt CalcError α) : Drawing σ α := fun s =>
  x.run.map fun result => (result, s)

theorem ofAttempt_of (x : Except CalcError α) :
    (ofAttempt (.of x) : Drawing σ α) = of (.ofExcept x) := rfl

theorem bind_eq {x : Calc σ α} {f : α → Drawing σ β} {g : α → Calc σ β}
    (h : ∀ a, f a = of (g a)) : of x >>= f = of (x >>= g) := by
  funext s
  change Option.bind (some (x s)) (fun p => ExceptT.bindCont f p.1 p.2) =
    some (ExceptT.bindCont g (x s).1 (x s).2)
  rcases x s with ⟨e | a, t⟩
  · rfl
  · exact congrFun (h a) t

/-- A number below a bound; there is none below zero. -/
def draw [RandomSource σ] (bound : Nat) : Drawing σ Nat := fun s =>
  if h : 0 < bound then
    let (k, s) := RandomSource.draw bound h s
    some (.ok k.val, s)
  else none

theorem draw_eq [RandomSource σ] {bound : Nat} (h : 0 < bound) :
    draw bound = of (Fin.val <$> Calc.draw bound h : Calc σ Nat) := by
  funext s
  exact dif_pos h

end Drawing

variable {σ : Type} [RandomSource σ]

def rand (args : List Value) : Drawing σ Value := do
  let x ← .ofAttempt (do checkCount 1 args.length; readArg Function.rand.scalarArg args 0)
  match Builtin.randomBound? x with
  | some n => return .scalar (Float.ofNat (← .draw n))
  | none => throw (.randomBound x)

def runFunction (f : Function) (args : List Value) : Drawing σ Value :=
  match f with
  | .pointwise g => .ofAttempt (Builtin.pointwise g args)
  | .vec _ => .ofAttempt (Builtin.vector f args)
  | .length => .ofAttempt (Builtin.length args)
  | .normalize => .ofAttempt (Builtin.normalize args)
  | .dot => .ofAttempt (Builtin.dot args)
  | .cross => .ofAttempt (Builtin.cross args)
  | .mix => .ofAttempt (Builtin.mix args)
  | .mat _ => .ofAttempt (Builtin.matrix f args)
  | .scale => .ofAttempt (Builtin.scale args)
  | .rotate => .ofAttempt (Builtin.rotate args)
  | .translate => .ofAttempt (Builtin.translate args)
  | .invTranspose => .ofAttempt (Builtin.invTranspose args)
  | .perspective => .ofAttempt (Builtin.projection f Mat.perspective args)
  | .ortho => .ofAttempt (Builtin.projection f Mat.ortho args)
  | .rand => rand args
  | .negate => .ofAttempt (Builtin.negate args)
  | .factorial => .ofAttempt (Builtin.factorial args)

def call (f : Function) (args : List Value) : Drawing σ Value :=
  if f.arity.accepts args.length then runFunction f args
  else throw (.argumentCount f.arity.most args.length)

mutual

def eval : Expr → Drawing σ Value
  | .literal v => return v
  | .binary op l r => do
    let left ← eval l
    let right ← eval r
    .ofAttempt (Operator.values op left right)
  | .call f args => do
    let values ← evalAll args
    call f values

def evalAll : List Expr → Drawing σ (List Value)
  | [] => return []
  | e :: es => do
    let v ← eval e
    let vs ← evalAll es
    return v :: vs

end

theorem rand_eq (v : Value) : rand [v] = .of (Builtin.rand (σ := σ) [v]) := by
  rw [rand, checkCount_bind (by rfl), readArg_eq rfl, Drawing.ofAttempt_of]
  cases v with
  | scalar x =>
    change (match Builtin.randomBound? x with
      | some n => do return .scalar (Float.ofNat (← Drawing.draw n))
      | none => throw (.randomBound x)) = Drawing.of (Builtin.rand [.scalar x])
    cases h : Builtin.randomBound? x with
    | some n =>
      rw [Builtin.rand_of_bound h]
      dsimp only
      rw [Drawing.draw_eq (Builtin.randomBound?_pos h)]
      rfl
    | none =>
      rw [Builtin.rand_of_no_bound h]
      rfl
  | vector v => rfl
  | matrix m => rfl

theorem runFunction_eq (f : Function) {args : List Value}
    (h : f.arity.accepts args.length = true) :
    runFunction (σ := σ) f args = .of (f.run args) := by
  rw [Function.run_eq]
  cases f, args, h using Function.accepted_cases with
  | pointwise g v => exact congrArg Drawing.ofAttempt (Builtin.pointwise_eq g v)
  | vec d args h => exact congrArg Drawing.ofAttempt (Builtin.vector_eq h)
  | length v => exact congrArg Drawing.ofAttempt (Builtin.length_eq v)
  | normalize v => exact congrArg Drawing.ofAttempt (Builtin.normalize_eq v)
  | dot v w => exact congrArg Drawing.ofAttempt (Builtin.dot_eq v w)
  | cross v w => exact congrArg Drawing.ofAttempt (Builtin.cross_eq v w)
  | mix v w a => exact congrArg Drawing.ofAttempt (Builtin.mix_eq v w a)
  | identity d => exact congrArg Drawing.ofAttempt (Builtin.matrix_eq d [])
  | mat d v => exact congrArg Drawing.ofAttempt (Builtin.matrix_eq d [v])
  | scale m v => exact congrArg Drawing.ofAttempt (Builtin.scale_eq m v)
  | rotate m x v => exact congrArg Drawing.ofAttempt (Builtin.rotate_eq m x v)
  | translate m v => exact congrArg Drawing.ofAttempt (Builtin.translate_eq m v)
  | invTranspose m => exact congrArg Drawing.ofAttempt (Builtin.invTranspose_eq m)
  | perspective x y z w => exact congrArg Drawing.ofAttempt (Builtin.perspective_eq x y z w)
  | ortho x y z w => exact congrArg Drawing.ofAttempt (Builtin.ortho_eq x y z w)
  | rand v => exact rand_eq v
  | negate v => exact congrArg Drawing.ofAttempt (Builtin.negate_eq v)
  | factorial v => exact congrArg Drawing.ofAttempt (Builtin.factorial_eq v)

theorem call_eq (f : Function) (args : List Value) :
    call (σ := σ) f args = .of (f.call args) := by
  rw [call, Function.call_eq]
  by_cases h : f.arity.accepts args.length = true
  · rw [if_pos h, if_pos h, runFunction_eq f h]
  · rw [if_neg h, if_neg h]
    rfl

mutual

theorem eval_eq : (e : Expr) → eval (σ := σ) e = .of e.eval
  | .literal v => by
    rw [eval, Expr.eval]
    rfl
  | .binary op l r => by
    rw [eval, Expr.eval, eval_eq l, eval_eq r]
    refine Drawing.bind_eq fun left => Drawing.bind_eq fun right => ?_
    rw [Operator.values_eq]
    rfl
  | .call f args => by
    rw [eval, Expr.eval, evalAll_eq args]
    exact Drawing.bind_eq fun values => call_eq f values

theorem evalAll_eq : (es : List Expr) → evalAll (σ := σ) es = .of (Expr.evalAll es)
  | [] => by
    rw [evalAll, Expr.evalAll]
    rfl
  | e :: es => by
    rw [evalAll, Expr.evalAll, eval_eq e, evalAll_eq es]
    exact Drawing.bind_eq fun v => Drawing.bind_eq fun vs => rfl

end

def evaluateExpression (s : Session σ) (t : Text) :
    Part (Except LineError Outcome × Session σ) := do
  match ← parse s.vars.contains t with
  | .error e => return (.error (.parse e), s)
  | .ok tree =>
    match ← (eval tree).run s.source with
    | (.ok v, source) => return (.ok (.value v), { s with source })
    | (.error e, source) => return (.error (.calculation e), { s with source })

def evaluate (s : Session σ) (line : Text) : Part (Except LineError Outcome × Session σ) := do
  match ← resolve s.vars line with
  | .error e => return (.error (.parse e), s)
  | .ok (.assigned name value) =>
    return (.ok .assigned, { s with vars := s.vars.assign name value })
  | .ok (.expression t) => evaluateExpression s t

theorem evaluateExpression_eq (s : Session σ) (t : Text) :
    evaluateExpression s t = .some (s.evaluateExpression t) := by
  rw [evaluateExpression, parse_eq, some_bind, Session.evaluateExpression]
  cases Expr.parse s.vars.contains t with
  | error e => rfl
  | ok tree =>
    dsimp only
    rw [eval_eq, Drawing.run_of, liftM_some, some_bind]
    rcases tree.eval.run s.source with ⟨e | v, source⟩ <;> rfl

/-- No line makes the calculator reach outside of a text, below zero, beyond a list, a vector or a
matrix, or for a random number below zero, whatever the table and the source of random numbers are.
With every access checked, the line has the result that it has without checks. -/
theorem evaluation_never_refused (s : Session σ) (line : Text) :
    evaluate s line = .some (s.evaluate line) := by
  rw [evaluate, resolve_eq, some_bind, Session.evaluate]
  rcases s.vars.resolve line with e | ⟨name, value⟩ | t
  · rfl
  · rfl
  · exact evaluateExpression_eq s t

end MatrixCalc.Checked
