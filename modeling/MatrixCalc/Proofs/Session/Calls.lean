import MatrixCalc.Proofs.Eval.Inheritance
import MatrixCalc.Proofs.Expr.Spelling
import MatrixCalc.Proofs.Session.Lines

/-!
# Calls with the right number of arguments

How many arguments a function takes is known to its arity, to the parser and to the function
itself. The grammar derives only calls that the arity accepts, so a function that is called from a
parsed tree has no complaint about the number of its arguments, and a session never reports one.
-/
namespace MatrixCalc

namespace Expr

/-- Every call in the expression has a number of arguments that its function takes. -/
def WellCalled (e : Expr) : Prop := ∀ c ∈ e.calls, c.1.arity.accepts c.2 = true

def AllWellCalled (es : List Expr) : Prop := ∀ c ∈ callsAll es, c.1.arity.accepts c.2 = true

theorem wellCalled_literal (v : Value) : (literal v).WellCalled := List.forall_mem_nil _

theorem wellCalled_binary {op : Operator} {l r : Expr} :
    (binary op l r).WellCalled ↔ l.WellCalled ∧ r.WellCalled := by
  unfold WellCalled
  rw [calls, List.forall_mem_append]

theorem wellCalled_call {f : Function} {args : List Expr} :
    (call f args).WellCalled ↔ f.arity.accepts args.length = true ∧ AllWellCalled args := by
  unfold WellCalled AllWellCalled
  rw [calls, List.forall_mem_cons]

theorem allWellCalled_nil : AllWellCalled [] := List.forall_mem_nil _

theorem allWellCalled_cons {e : Expr} {es : List Expr} :
    AllWellCalled (e :: es) ↔ e.WellCalled ∧ AllWellCalled es := by
  unfold WellCalled AllWellCalled
  rw [callsAll, List.forall_mem_append]

theorem WellCalled.unary {f : Function} (hf : f.arity.accepts 1 = true) {e : Expr}
    (h : e.WellCalled) : (call f [e]).WellCalled :=
  wellCalled_call.2 ⟨hf, allWellCalled_cons.2 ⟨h, allWellCalled_nil⟩⟩

end Expr

/-- What a phrase stands for is well called; links keep a tree so, and further arguments complete
their call. -/
def Phrase.WellCalled : {r : Rank} → Phrase r → Prop
  | .member _, p => p.tree.WellCalled
  | .chain _, p => p.tree.WellCalled
  | .links _, p => ∀ left : Expr, left.WellCalled → (p.tree left).WellCalled
  | .further f given, p =>
    f.arity.accepts (given + p.tree.length) = true ∧ Expr.AllWellCalled p.tree

theorem Phrase.wellCalled {r : Rank} (p : Phrase r) : p.WellCalled := by
  induction p with
  | number x => exact Expr.wellCalled_literal (.scalar x)
  | group inner ih => exact ih
  | signed negative operand ih =>
    have hoperand : operand.tree.WellCalled := ih
    cases negative with
    | false => exact hoperand
    | true => exact hoperand.unary rfl
  | emptyCall f hf => exact Expr.wellCalled_call.2 ⟨hf, Expr.allWellCalled_nil⟩
  | call f first more ihfirst ihmore =>
    obtain ⟨hcount, hmore⟩ := ihmore
    refine Expr.wellCalled_call.2 ⟨?_, Expr.allWellCalled_cons.2 ⟨ihfirst, hmore⟩⟩
    rwa [List.length_cons, Nat.add_comm]
  | power p ih => exact ih
  | product p ih => exact ih
  | chain level first links ihfirst ihlinks => exact ihlinks first.tree ihfirst
  | done level => exact fun left hleft => hleft
  | link level op hop right more ihright ihmore =>
    intro left hleft
    apply ihmore
    exact Expr.wellCalled_binary.2 ⟨hleft, ihright⟩
  | bang more ih =>
    intro left hleft
    apply ih
    exact hleft.unary rfl
  | noMore f given hf => exact ⟨hf, Expr.allWellCalled_nil⟩
  | next f given argument more ihargument ihmore =>
    obtain ⟨hcount, hmore⟩ := ihmore
    refine ⟨?_, Expr.allWellCalled_cons.2 ⟨ihargument, hmore⟩⟩
    rwa [tree, List.length_cons, Nat.add_comm more.tree.length 1, ← Nat.add_assoc]

theorem wellCalled_of_parse {known : Text → Bool} {t : Text} {tree : Expr}
    (h : Expr.parse known t = .ok tree) : tree.WellCalled := by
  obtain ⟨p, -, -, rfl⟩ := (parse_eq_ok_iff_spelled known t tree).1 h
  exact p.wellCalled

section Evaluation

variable {σ : Type} [RandomSource σ]

theorem Function.call_of_accepts {f : Function} {args : List Value}
    (h : f.arity.accepts args.length = true) : (f.call args : Calc σ Value) = f.run args := by
  rw [Function.call_eq, if_pos h]

theorem Expr.WellCalled.eval_blameless {e : Expr} (h : e.WellCalled) (s : σ) :
    Blameless (fun _ => True) (e.eval s).1 := by
  apply e.eval_ensures
  · intro op v w _ _
    exact (op.values_regular v w).mono (fun _ _ => trivial) fun _ he => he
  · exact fun _ _ => trivial
  · intro c hc args hlength _ s
    have haccepts : c.1.arity.accepts args.length = true := by
      rw [hlength]
      exact h c hc
    rw [Function.call_of_accepts haccepts]
    exact (c.1.run_regular haccepts s).mono (fun _ _ => trivial) fun _ he => he

/-- The parser and the functions agree on the numbers of arguments: every call in a parsed tree is
accepted, every function has a row in the table, an accepted call gets to the function, which
complains exactly of the calls that are not accepted, and so no line of any session fails for an
unknown function or for the number of arguments of a call. -/
theorem calls_agree :
    (∀ (known : Text → Bool) (t : Text) (tree : Expr), Expr.parse known t = .ok tree →
      ∀ c ∈ tree.calls, c.1.arity.accepts c.2 = true) ∧
    (∀ f : Function, ∃ i : Implementation σ, f.implementation? = some i ∧ i.function = f ∧
      ∀ args, f.run args = i.compute args) ∧
    (∀ (f : Function) (args : List Value), f.arity.accepts args.length = true →
      (f.call args : Calc σ Value) = f.run args) ∧
    (∀ (f : Function) (args : List Value) (s : σ),
      (∃ e, (f.run args s).1 = .error e ∧ e.isOfCall = true) ↔
        f.arity.accepts args.length = false) ∧
    ∀ (s : Session σ) (line : Text) e,
      (s.evaluate line).1 = .error (.calculation e) → e.isOfCall = false := by
  refine ⟨?_, ?_, ?_, ?_, ?_⟩
  · intro known t tree h
    exact wellCalled_of_parse h
  · intro f
    obtain ⟨i, hi⟩ := f.exists_implementation (σ := σ)
    exact ⟨i, hi, Function.function_of_implementation? hi, Function.run_of_implementation? hi⟩
  · intro f args h
    exact Function.call_of_accepts h
  · intro f args s
    exact f.run_isOfCall_iff args s
  · intro s line e he
    have hs := s.evaluate_spec line
    generalize s.evaluate line = result at hs he
    cases hs <;> cases he
    next t tree source hr hp heval =>
    have htree := (wellCalled_of_parse hp).eval_blameless s.source
    exact htree.of_error (congrArg Prod.fst heval)

end Evaluation

/-- An expression of one operand. -/
def Phrase.sole (operand : Phrase (.member .power)) : Phrase (.chain .sum) :=
  .chain .sum (.product (.chain .product (.power (.chain .power operand (.done .power)))
    (.done .product))) (.done .sum)

theorem parse_rand_of_identity (known : Text → Bool) :
    Expr.parse known "rand(mat2())".toList = .ok (.call .rand [.call (.mat .two) []]) := by
  rw [parse_eq_ok_iff_spelled]
  refine ⟨.sole (.call .rand (.sole (.emptyCall (.mat .two) rfl)) (.noMore .rand 1 rfl)), ?_, ?_,
    rfl⟩
  · exact ⟨rfl, by simp, rfl, by simp, rfl, by simp, rfl, by simp, rfl, by simp, rfl, by simp, rfl⟩
  · decide

/-- A random number below a matrix is refused for the matrix, and not for the number of
arguments. -/
theorem calls_agree_of_rand :
    let s := Session.start (Seeded.ofSeed 0)
    let error := CalcError.wrongKind "argument 1 of rand" .scalar (.mat .two)
    let args := [Value.matrix (.identity .two)]
    ((Expr.parse s.vars.contains "rand(mat2())".toList =
        .ok (.call .rand [.call (.mat .two) []]) ∧
      ∀ c ∈ Expr.calls (.call .rand [.call (.mat .two) []]), c.1.arity.accepts c.2 = true) ∧
      (∃ i : Implementation Seeded, Function.rand.implementation? = some i ∧ i.function = .rand) ∧
      (Function.rand.arity.accepts args.length = true ∧
        (Function.rand.call args : Calc Seeded Value) = Function.rand.run args)) ∧
      (s.evaluate "rand(mat2())".toList).1 = .error (.calculation error) ∧
        error.isOfCall = false := by
  intro s error args
  have hparse := parse_rand_of_identity s.vars.contains
  have hline : s.vars.resolve "rand(mat2())".toList =
      .ok (.expression "rand(mat2())".toList) :=
    Variables.resolve_of_run ((Pass.loop _).run_of_turns (n := 7) rfl)
  have herror : (s.evaluate "rand(mat2())".toList).1 = .error (.calculation error) := by
    rw [Session.evaluate, hline]
    dsimp only
    rw [Session.evaluateExpression, hparse]
    rfl
  have hone : Function.rand.arity.accepts args.length = true := rfl
  obtain ⟨hcalls, htable, hreach, -, hsession⟩ := calls_agree (σ := Seeded)
  obtain ⟨i, hfound, hrow, -⟩ := htable .rand
  exact ⟨⟨⟨hparse, hcalls _ _ _ hparse⟩, ⟨i, hfound, hrow⟩, hone, hreach _ _ hone⟩, herror,
    hsession s _ _ herror⟩

end MatrixCalc
