import MatrixCalc.Expr.Parser
import MatrixCalc.Proofs.Except

/-!
# The depth of the parser

The parser counts its open levels up and down, one for each parenthesis, sign and call and one for
each operator of an unfinished chain. The count is never off: it is what the stack holds, together
with the chain behind the last operand.
-/
namespace MatrixCalc

/-- The levels that an open construct stands for. -/
def Frame.levels : Frame → Nat
  | .chain _ links _ _ => links
  | _ => 1

def openLevels : List Frame → Nat
  | [] => 0
  | frame :: stack => frame.levels + openLevels stack

@[simp] theorem openLevels_cons (frame : Frame) (stack : List Frame) :
    openLevels (frame :: stack) = frame.levels + openLevels stack := rfl

def Phase.levels : Phase → Nat
  | .chain links _ => links
  | _ => 0

namespace Parser

def Balanced (s : Parser) : Prop := s.depth = openLevels s.stack + s.phase.levels

theorem balanced_start : start.Balanced := rfl

def Settled.Balanced : Settled → Prop
  | .linked s => s.Balanced
  | .closed depth stack _ => depth = openLevels stack

theorem openLevels_join (level : Level) (stack : List Frame) (tree : Expr) :
    openLevels stack = openLevels (join level stack tree).1 + (join level stack tree).2.1 := by
  unfold join
  split
  · split
    · exact Nat.add_comm _ _
    · rfl
  · rfl

theorem balanced_complete {depth : Nat} {stack : List Frame} (h : depth = openLevels stack)
    (tree : Expr) : (complete depth stack tree).Balanced := by
  fun_induction complete depth stack tree with
  | case1 depth tree negative below ih =>
    apply ih
    rw [h, openLevels_cons]
    exact Nat.add_sub_cancel_left _ _
  | case2 stack depth tree => exact h.trans (openLevels_join .power stack tree)

theorem enter_ensures (p : Placed) (depth : Nat) :
    Ensures (· = depth + 1) (fun _ => True) (enter p depth) := by
  unfold enter
  split
  · rfl
  · trivial

theorem operand_balanced {s : Parser} (h : s.Balanced) (hphase : s.phase = .operand) (p : Placed) :
    Ensures Balanced (fun _ => True) (s.operand p) := by
  have hdepth : s.depth = openLevels s.stack := by
    rw [h, hphase]
    rfl
  have hopen : ∀ frame : Frame, frame.levels = 1 → ∀ phase : Phase, phase.levels = 0 →
      Ensures Balanced (fun _ => True)
        (do return Parser.mk (← enter p s.depth) (frame :: s.stack) phase) := by
    intro frame hframe phase hlevels
    refine (enter_ensures p s.depth).bind ?_
    rintro _ rfl
    change s.depth + 1 = openLevels (frame :: s.stack) + phase.levels
    rw [hdepth, openLevels_cons, hframe, hlevels]
    omega
  unfold operand
  split
  · exact balanced_complete hdepth _
  · exact hopen _ rfl _ rfl
  · exact hopen _ rfl _ rfl
  · exact hopen _ rfl _ rfl
  · exact hopen _ rfl _ rfl
  · split
    · next f below hstack =>
      split
      · refine balanced_complete ?_ _
        rw [hdepth, hstack, openLevels_cons]
        exact Nat.add_sub_cancel_left _ _
      · trivial
    · trivial
  · trivial

theorem link_balanced (p : Placed) {depth links : Nat} {stack : List Frame} (level : Level)
    (tree : Expr) (op : Operator) (h : depth = openLevels stack + links) :
    Ensures Settled.Balanced (fun _ => True) (do
      return .linked ⟨← enter p depth, .chain level (links + 1) tree op :: stack, .operand⟩) := by
  refine (enter_ensures p depth).bind ?_
  rintro _ rfl
  change depth + 1 = links + 1 + openLevels stack + 0
  omega

theorem settle_balanced (p : Placed) {depth links : Nat} {stack : List Frame} (level : Level)
    (tree : Expr) (looser : List Level) (h : depth = openLevels stack + links) :
    Ensures Settled.Balanced (fun _ => True)
      (settle p depth stack level links tree looser) := by
  induction looser generalizing depth stack level links tree with
  | nil =>
    unfold settle
    cases level.link? p.token with
    | some op => exact link_balanced p level tree op h
    | none =>
      change depth - links = openLevels stack
      omega
  | cons next looser ih =>
    have hlevels := openLevels_join next stack tree
    unfold settle
    cases level.link? p.token with
    | some op => exact link_balanced p level tree op h
    | none =>
      rcases hjoin : join next stack tree with ⟨below, links', tree'⟩
      rw [hjoin] at hlevels
      dsimp only at hlevels
      have hbelow : depth - links = openLevels below + links' := by omega
      dsimp only
      rw [hjoin]
      exact ih next tree' hbelow

theorem close_balanced (p : Placed) {depth : Nat} {stack : List Frame} (tree : Expr)
    (h : depth = openLevels stack) :
    Ensures Balanced (fun _ => True) (close p depth stack tree) := by
  have hbelow : ∀ {frame : Frame} {below : List Frame}, frame.levels = 1 →
      depth = openLevels (frame :: below) → depth - 1 = openLevels below := by
    intro frame below hframe hdepth
    rw [hdepth, openLevels_cons, hframe]
    exact Nat.add_sub_cancel_left _ _
  unfold close
  split
  · trivial
  · split
    · exact balanced_complete (hbelow rfl h) _
    · trivial
  · dsimp only
    split
    · exact h
    · split
      · exact balanced_complete (hbelow rfl h) _
      · trivial
  · trivial

/-- Every token leaves the depth at the number of open levels. -/
theorem feed_balanced {s : Parser} (h : s.Balanced) (p : Placed) :
    Ensures Balanced (fun _ => True) (s.feed p) := by
  unfold feed
  split
  · next hphase => exact operand_balanced h hphase p
  · next hphase =>
    split
    · rw [Balanced, hphase] at h
      exact h
    · trivial
  · next links tree hphase =>
    have hdepth : s.depth = openLevels s.stack + links := by
      rw [h, hphase]
      rfl
    split
    · refine (enter_ensures p s.depth).bind ?_
      rintro _ rfl
      change s.depth + 1 = openLevels s.stack + (links + 1)
      omega
    · refine (settle_balanced p .power tree _ hdepth).bind ?_
      intro settled hsettled
      cases settled with
      | linked s => exact hsettled
      | closed depth stack tree => exact close_balanced p tree hsettled

end Parser
end MatrixCalc
