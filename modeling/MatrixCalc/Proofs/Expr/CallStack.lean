import MatrixCalc.Proofs.Expr.Descent

/-!
# The call stack of the descent

Each activation waits for the routine above it (`Linked`), and stands for levels of its own: one for
a parenthesis, a sign and a call, and as many as a chain has operators. A routine for operands is
entered again only through one of these levels, so there is at most one more of its activations than
levels are open (`operands_le`). The parser keeps the same open constructs on its stack, without the
activations that hold nothing (`frames`).
-/
namespace MatrixCalc.Descent

namespace Activation

def levels : Activation → Nat
  | link _ links _ _ => links
  | group | sign _ | call _ => 1
  | first _ | callee _ | argument _ _ => 0

/-- The routine that the activation belongs to. -/
def routine : Activation → Routine
  | first level | link level _ _ _ => .chain level
  | group | sign _ | callee _ => .operand
  | call f => .call f
  | argument f _ => .arguments f

/-- The routine that it has called. -/
def awaits : Activation → Routine
  | first level | link level _ _ _ => .member level
  | group | argument _ _ => .chain .sum
  | sign _ => .operand
  | callee f => .call f
  | call f => .arguments f

def frame? : Activation → Option Frame
  | link level links left op => some (.chain level links left op)
  | group => some .group
  | sign negative => some (.sign negative)
  | argument f args => some (.call f args)
  | first _ | callee _ | call _ => none

end Activation

namespace Control

/-- The routine that runs. -/
def routine : Control → Routine
  | enter r | back r _ => r
  | chain level _ _ => .chain level
  | arguments f _ | listed f _ => .arguments f

/-- The levels that the routine itself has opened and not closed yet. -/
def levels : Control → Nat
  | chain _ links _ => links
  | _ => 0

/-- The routine that is about to return. -/
def returns : Control → Option Routine
  | back r _ => some r
  | listed f _ => some (.arguments f)
  | _ => none

theorem levels_of_returns {control : Control} {r : Routine} (h : control.returns = some r) :
    control.levels = 0 := by
  cases control with
  | back | listed => rfl
  | enter | chain | arguments => cases h

end Control

/-- The levels that a stack of activations holds open. -/
def heldLevels : List Activation → Nat
  | [] => 0
  | activation :: calls => activation.levels + heldLevels calls

/-- How many of these activations belong to a routine. -/
def activations (r : Routine) (calls : List Activation) : Nat :=
  calls.countP fun activation => activation.routine = r

/-- The levels that are open: the enclosing parentheses, signs and calls, and the operators of the
unfinished chains. -/
def State.openLevels (s : State) : Nat := heldLevels s.calls + s.control.levels

/-- The activations of a routine on the whole call stack, the running one included. -/
def State.activations (r : Routine) (s : State) : Nat :=
  Descent.activations r s.calls + if s.control.routine = r then 1 else 0

/-- Every activation waits for the one above it, the innermost for `r`. -/
def Linked : Routine → List Activation → Prop
  | r, [] => r = .chain .sum
  | r, activation :: calls => activation.awaits = r ∧ Linked activation.routine calls

/-- The open constructs. -/
def frames (calls : List Activation) : List Frame := calls.filterMap Activation.frame?

@[simp] theorem heldLevels_cons (activation : Activation) (calls : List Activation) :
    heldLevels (activation :: calls) = activation.levels + heldLevels calls := rfl

theorem activations_cons (r : Routine) (activation : Activation) (calls : List Activation) :
    activations r (activation :: calls) =
      activations r calls + if activation.routine = r then 1 else 0 := by
  simp [activations, List.countP_cons]

/-- A call is entered before its level is open. -/
def Routine.unopened : Routine → Nat
  | .call _ => 1
  | _ => 0

/-- Between two activations of the routine for operands a level is open. -/
theorem operands_le {r : Routine} {calls : List Activation} (h : Linked r calls) :
    activations .operand calls ≤ heldLevels calls + r.unopened := by
  induction calls generalizing r with
  | nil => exact Nat.zero_le _
  | cons activation calls ih =>
    obtain ⟨rfl, hbelow⟩ := h
    have hcount := ih hbelow
    -- An operand that is a call holds no level before the name is read; `unopened` is that level.
    rw [activations_cons, heldLevels_cons]
    cases activation <;>
      simp only [Activation.levels, Activation.routine, Activation.awaits, Routine.unopened,
        reduceCtorEq, if_true, if_false] at hcount ⊢ <;>
      omega

theorem State.operands_le {s : State} (h : Linked s.control.routine s.calls) :
    s.activations .operand ≤ s.openLevels + 1 := by
  have hcount := Descent.operands_le h
  have hown : s.control.routine.unopened + (if s.control.routine = .operand then 1 else 0) ≤ 1 := by
    cases s.control.routine <;> simp [Routine.unopened]
  rw [State.activations, State.openLevels]
  omega

theorem looseness_lt_of_member {tight loose : Level} (h : Routine.member loose = .chain tight) :
    tight.looseness < loose.looseness := by
  cases loose <;> cases h <;> decide

/-- Where a chain begins, nothing is open that binds as tight. -/
theorem fresh_of_linked {level : Level} {calls : List Activation}
    (h : Linked (.chain level) calls) : Fresh level (frames calls) := by
  induction calls generalizing level with
  | nil => exact fresh_nil level
  | cons activation calls ih =>
    obtain ⟨hawaits, hbelow⟩ := h
    cases activation with
    | first loose => exact (ih hbelow).waits.fresh (looseness_lt_of_member hawaits)
    | link loose links left op =>
      exact (waits_chain loose links left op _).fresh (looseness_lt_of_member hawaits)
    | group => exact fresh_group level _
    | argument f args => exact fresh_call level f args _
    | sign | callee | call => cases hawaits

end MatrixCalc.Descent
