import MatrixCalc.Eval.Tree

/-!
# Order of evaluation

Evaluation visits the nodes of a tree in postorder: every node comes behind its operands, which
are taken from left to right. Said as a machine, each node takes the values of its operands from
the top of a stack and puts its own value there (`Node.step`), and the evaluation of a tree is the
run over its postorder (`run_postorder`).
-/
namespace MatrixCalc

/-- A node of a tree without its operands. -/
inductive Node where
  | literal (v : Value)
  | binary (op : Operator)
  | call (f : Function) (count : Nat)

namespace Expr

mutual

/-- All nodes of a tree, every node behind its operands. -/
def postorder : Expr → List Node
  | literal v => [.literal v]
  | binary op l r => l.postorder ++ r.postorder ++ [.binary op]
  | call f args => postorderAll args ++ [.call f args.length]

def postorderAll : List Expr → List Node
  | [] => []
  | e :: es => e.postorder ++ postorderAll es

end

end Expr

variable {σ : Type} [RandomSource σ]

namespace Node

/-- The last operand is on top. In the postorder of a tree no operand is missing. -/
def step (stack : List Value) : Node → Calc σ (List Value)
  | literal v => return v :: stack
  | binary op =>
    match stack with
    | right :: left :: rest => do
      let v ← .ofExcept (op.values left right)
      return v :: rest
    | _ => return stack
  | call f count => do
    let v ← f.call (stack.take count).reverse
    return v :: stack.drop count

def run (nodes : List Node) (stack : List Value) : Calc σ (List Value) := nodes.foldlM step stack

theorem run_cons (node : Node) (nodes : List Node) (stack : List Value) :
    (run (node :: nodes) stack : Calc σ _) = node.step stack >>= run nodes :=
  List.foldlM_cons ..

theorem run_append (nodes nodes' : List Node) (stack : List Value) :
    (run (nodes ++ nodes') stack : Calc σ _) = run nodes stack >>= run nodes' :=
  List.foldlM_append ..

theorem run_singleton (node : Node) (stack : List Value) :
    (run [node] stack : Calc σ _) = node.step stack := by
  rw [run_cons]
  exact bind_pure _

end Node

namespace Expr

/-- There are as many values as arguments. -/
theorem evalAll_bind_congr {α : Type} (es : List Expr) {f g : List Value → Calc σ α}
    (h : ∀ vs, vs.length = es.length → f vs = g vs) : evalAll es >>= f = evalAll es >>= g := by
  induction es generalizing f g with
  | nil =>
    rw [evalAll, pure_bind, pure_bind]
    exact h [] rfl
  | cons e es ih =>
    rw [evalAll]
    simp only [bind_assoc, pure_bind]
    congr 1
    funext v
    exact ih fun vs hvs => h (v :: vs) (congrArg (· + 1) hvs)

mutual

theorem run_postorder : (e : Expr) → (stack : List Value) →
    (Node.run e.postorder stack : Calc σ _) = do return (← e.eval) :: stack
  | literal v, stack => by
    rw [postorder, Node.run_singleton, eval, pure_bind]
    rfl
  | binary op l r, stack => by
    rw [postorder, Node.run_append, Node.run_append, run_postorder l stack, eval]
    simp only [bind_assoc, pure_bind, run_postorder r, Node.run_singleton]
    rfl
  | call f args, stack => by
    rw [postorder, Node.run_append, run_postorderAll args stack, eval]
    simp only [bind_assoc, pure_bind, Node.run_singleton]
    refine evalAll_bind_congr args fun vs hvs => ?_
    have hlength : vs.reverse.length = args.length := by rw [List.length_reverse, hvs]
    rw [Node.step, List.take_left' hlength, List.drop_left' hlength, List.reverse_reverse]

theorem run_postorderAll : (es : List Expr) → (stack : List Value) →
    (Node.run (postorderAll es) stack : Calc σ _) = do return (← evalAll es).reverse ++ stack
  | [], stack => by
    rw [postorderAll, evalAll, pure_bind]
    rfl
  | e :: es, stack => by
    rw [postorderAll, Node.run_append, run_postorder e stack, evalAll]
    simp only [bind_assoc, pure_bind, run_postorderAll es, List.reverse_cons, List.append_assoc,
      List.singleton_append]

end

end Expr
end MatrixCalc
