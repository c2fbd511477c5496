import MatrixCalc.Proofs.Expr.DescentTurns

/-!
# Every descent ends

The states that a descent passes through are sound, so the counter of open levels is never off, a
routine returns with the counter that it was entered with, and the routine for operands is active
at most once more than levels may be open. The descent comes to the tree or the error of the parser.
-/
namespace MatrixCalc

namespace Descent

open Checked (Attempt resume)

variable {known : Text → Bool} {t : Text} {s s' : State}

/-- One turn leads from a state to another. -/
def Moves (known : Text → Bool) (s s' : State) : Prop := turn known s = .of (.ok (.next s'))

def Reaches (known : Text → Bool) : State → State → Prop := Relation.ReflTransGen (Moves known)

/-- The state behind that many turns, as long as the descent goes on. -/
def turns (known : Text → Bool) : Nat → State → Option State
  | 0, s => some s
  | n + 1, s =>
    match turn known s with
    | some (.ok (.next s')) => turns known n s'
    | _ => none

/-- A state that the descent of a text passes through. -/
def Moment (known : Text → Bool) (t : Text) (s : State) : Prop :=
  ∃ s₀, start known t = .ok s₀ ∧ Reaches known s₀ s

theorem reaches_of_turns {n : Nat} (h : turns known n s = some s') : Reaches known s s' := by
  induction n generalizing s with
  | zero =>
    cases h
    exact .refl
  | succ n ih =>
    rw [turns] at h
    split at h
    · next hturn => exact .head hturn (ih h)
    · cases h

theorem sound_of_moves (hs : s.Sound) (h : Moves known s s') : s'.Sound := by
  obtain ⟨result, hturn, hresult⟩ := turn_yields known hs
  rw [h] at hturn
  cases hturn
  exact hresult.sound

theorem sound_of_reaches (hs : s.Sound) (h : Reaches known s s') : s'.Sound := by
  induction h with
  | refl => exact hs
  | tail _ hlast ih => exact sound_of_moves ih hlast

/-- Before the first token nothing is open, and the parser has yet to begin. -/
theorem start_sound (known : Text → Bool) (t : Text) :
    Ensures (fun s => s.Sound ∧ s.outcome known = Expr.parse known t)
      (fun e => Expr.parse known t = .error e) (start known t) := by
  let before : Cursor := ⟨.startingAt t 0, ⟨.stop, 0, []⟩, 0⟩
  have hrest : before.rest known = Stream.ofText known t := by
    simp only [Cursor.rest, before, Scanner.startingAt, Text.dropBytes]
    rfl
  refine ((Cursor.advance_passed (c := before) rfl).mono (fun _ => id) ?_).bind ?_
  · intro e he
    rw [Expr.parse, ← hrest, he]
    rfl
  · intro c hc
    have hdepth : c.depth = 0 := hc.depth
    refine ⟨⟨rfl, hdepth, hdepth ▸ Nat.zero_le _, hc.reading, fun _ _ _ h => by cases h⟩, ?_⟩
    change resume ⟨c.depth, [], .operand⟩ (c.stream known) = _
    rw [hdepth, hc.stream, hrest]
    rfl

theorem Moment.sound (h : Moment known t s) : s.Sound := by
  obtain ⟨s₀, hstart, hreach⟩ := h
  exact sound_of_reaches ((start_sound known t).of_ok hstart).1 hreach

theorem run_turn {s : State} (hs : s.Sound) :
    Checked.run (parseTurn known) s = .some (s.outcome known) := by
  obtain ⟨result, hturn, hresult⟩ := turn_yields known hs
  have hanswer : parseTurn known s = .some (answer result) := by
    rw [parseTurn, hturn, Attempt.run_of, Checked.liftM_some, Checked.some_bind]
    rfl
  -- The recursion is on what is left to do, and only a turn that goes on recurs.
  cases result with
  | error e => exact (Checked.run_of_halt hanswer).trans (congrArg Part.some hresult.symm)
  | ok result =>
    cases result with
    | halt tree => exact (Checked.run_of_halt hanswer).trans (congrArg Part.some hresult.symm)
    | next s' =>
      have hless := hresult.left
      rw [Checked.run_of_next hanswer, run_turn hresult.sound, hresult.outcome]
termination_by s.left

theorem parse_eq (known : Text → Bool) (t : Text) :
    parse known t = .some (Expr.parse known t) := by
  have hstart := start_sound known t
  rw [parse]
  cases h : start known t with
  | ok s =>
    rw [h] at hstart
    exact (run_turn hstart.1).trans (congrArg Part.some hstart.2)
  | error e =>
    rw [h] at hstart
    exact congrArg Part.some (Eq.symm hstart)

end Descent

/-- At every moment of a descent the counter is the number of open levels, no level is closed that
is not open, and the routine for operands is active at most once more than levels may be open. A
routine that returns leaves the counter as it was on entry, and the descent ends as the parser
does, whose own counter is as exact behind every token. -/
theorem descents_balanced (known : Text → Bool) (t : Text) :
    Descent.parse known t = .some (Expr.parse known t) ∧
    (∀ s, Descent.Moment known t s →
      (∃ result, Descent.turn known s = .of result) ∧
      s.cursor.depth = s.openLevels ∧ s.cursor.depth ≤ maxDepth ∧
      s.activations .operand ≤ maxDepth + 1) ∧
    (∀ s s' r, Descent.Moment known t s → Descent.Reaches known s s' →
      s.control = .enter r → s'.control.returns = some r → s'.calls = s.calls →
      s'.cursor.depth = s.cursor.depth) ∧
    ∀ (tokens : List Placed) (s : Parser), tokens.foldlM Parser.feed .start = .ok s →
      s.depth = openLevels s.stack + s.phase.levels := by
  refine ⟨Descent.parse_eq known t, fun s hs => ?_,
    fun s s' r hs hreach henter hreturn hcalls => ?_, fun tokens s hfed => ?_⟩
  · have hsound := hs.sound
    obtain ⟨result, hturn, -⟩ := Descent.turn_yields known hsound
    have hcount := Descent.State.operands_le hsound.linked
    have hlevels := hsound.balanced
    have hbound := hsound.bounded
    exact ⟨⟨result, hturn⟩, hlevels, hbound, by omega⟩
  · have hentry := hs.sound.balanced
    have hexit := (Descent.sound_of_reaches hs.sound hreach).balanced
    rw [hexit, hentry, Descent.State.openLevels, Descent.State.openLevels, hcalls, henter,
      Descent.Control.levels_of_returns hreturn]
    rfl
  · exact (Ensures.foldlM (E := fun _ => True) Parser.balanced_start
      (fun s p hs => Parser.feed_balanced hs p) tokens).of_ok hfed

def Descent.groupedCall : Text := ['(', 'm', 'a', 't', '2', '(', ')', ')']

/-- The first three of its tokens. -/
def Descent.groupedTokens : List Placed :=
  [⟨.leftParen, 0, ['(']⟩, ⟨.function (.mat .two), 1, ['m', 'a', 't', '2']⟩,
    ⟨.leftParen, 5, ['(']⟩]

/-- The chain of the whole text is entered with no open level. Inside the call two levels are open,
and where the chain returns none is. -/
theorem descents_balanced_of_groupedCall : ∃ entered inside left,
    Descent.start (fun _ => false) Descent.groupedCall = .ok entered ∧
    Descent.Reaches (fun _ => false) entered inside ∧
    Descent.Reaches (fun _ => false) inside left ∧
    entered.control = .enter (.chain .sum) ∧
    left.control = .back (.chain .sum) (.call (.mat .two) []) ∧ left.calls = entered.calls ∧
    entered.cursor.depth = 0 ∧ inside.cursor.depth = 2 ∧ inside.openLevels = 2 ∧
    inside.activations .operand = 2 ∧ left.cursor.depth = 0 ∧
    ∃ s, Descent.groupedTokens.foldlM Parser.feed .start = .ok s ∧ s.depth = 2 ∧
      openLevels s.stack + s.phase.levels = 2 := by
  have hrun : ∃ entered inside left,
      Descent.start (fun _ => false) Descent.groupedCall = .ok entered ∧
      Descent.turns (fun _ => false) 9 entered = some inside ∧
      Descent.turns (fun _ => false) 17 inside = some left ∧
      entered.control = .enter (.chain .sum) ∧
      left.control = .back (.chain .sum) (.call (.mat .two) []) ∧ left.calls = entered.calls ∧
      entered.cursor.depth = 0 ∧ inside.cursor.depth = 2 ∧ inside.activations .operand = 2 :=
    ⟨_, _, _, rfl, rfl, rfl, rfl, rfl, rfl, rfl, rfl, rfl⟩
  obtain ⟨entered, inside, left, hstart, hopening, hclosing, henter, hreturn, hcalls, hnone, htwo,
    hoperands⟩ := hrun
  have hinside := Descent.reaches_of_turns hopening
  have hleft := Descent.reaches_of_turns hclosing
  have hfed : ∃ s, Descent.groupedTokens.foldlM Parser.feed .start = .ok s ∧ s.depth = 2 :=
    ⟨_, rfl, rfl⟩
  obtain ⟨s, hs, hdepth⟩ := hfed
  obtain ⟨-, hmoments, hreturns, hparser⟩ := descents_balanced (fun _ => false) Descent.groupedCall
  obtain ⟨-, hcount, -, -⟩ := hmoments inside ⟨entered, hstart, hinside⟩
  have hsame := hreturns entered left _ ⟨entered, hstart, .refl⟩ (hinside.trans hleft) henter
    (congrArg Descent.Control.returns hreturn) hcalls
  exact ⟨entered, inside, left, hstart, hinside, hleft, henter, hreturn, hcalls, hnone, htwo,
    hcount.symm.trans htwo, hoperands, hsame.trans hnone, s, hs, hdepth,
    (hparser _ s hs).symm.trans hdepth⟩

end MatrixCalc
