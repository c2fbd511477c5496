import MatrixCalc.Variables.Resolution

/-!
# Both passes end

The turns of a loop are counted. The pass through a line, whose text may grow with every splice,
takes at most as many turns as its potential says, for any table and from any state; the pass
through an assigned text takes at most one turn for each character and one more.
-/
namespace MatrixCalc

/-- What a loop has come to after `n` turns. -/
def turns {σ ρ : Type} (turn : σ → Turn σ ρ) : Nat → σ → Turn σ ρ
  | 0, s => .next s
  | n + 1, s =>
    match turn s with
    | .halt result => .halt result
    | .next s' => turns turn n s'

theorem turns_succ_of_halt {σ ρ : Type} {turn : σ → Turn σ ρ} {s : σ} {result : ρ}
    (h : turn s = .halt result) (n : Nat) : turns turn (n + 1) s = .halt result := by
  rw [turns, h]

theorem turns_succ_of_next {σ ρ : Type} {turn : σ → Turn σ ρ} {s s' : σ}
    (h : turn s = .next s') (n : Nat) : turns turn (n + 1) s = turns turn n s' := by
  rw [turns, h]

theorem Loop.exists_turns {σ ρ : Type} (l : Loop σ ρ) (s : σ) :
    ∃ n ≤ l.left s + 1, turns l.turn n s = .halt (l.run s) := by
  cases h : l.turn s with
  | halt result =>
    refine ⟨1, Nat.succ_le_succ (Nat.zero_le _), ?_⟩
    rw [turns_succ_of_halt h, l.run_of_halt h]
  | next s' =>
    have hlt := l.left_lt h
    obtain ⟨n, hn, ht⟩ := exists_turns l s'
    refine ⟨n + 1, by omega, ?_⟩
    rw [turns_succ_of_next h, ht, l.run_of_next h]
termination_by l.left s

theorem Loop.run_of_turns {σ ρ : Type} (l : Loop σ ρ) {n : Nat} {s : σ} {result : ρ}
    (h : turns l.turn n s = .halt result) : l.run s = result := by
  induction n generalizing s with
  | zero => cases h
  | succ n ih =>
    cases ht : l.turn s with
    | halt r =>
      rw [turns_succ_of_halt ht] at h
      cases h
      exact l.run_of_halt ht
    | next s' =>
      rw [turns_succ_of_next ht] at h
      rw [l.run_of_next ht]
      exact ih h

theorem Variables.free_nil (vars : Variables) : vars.free [] = vars.entries.length := by
  unfold Variables.free
  rw [List.countP_eq_length]
  intro entry _
  rfl

theorem Pass.potential_start (vars : Variables) (line : Text) :
    (Pass.start line).potential vars =
      line.length * Nat.pow vars.base vars.entries.length := by
  change line.length * Nat.pow vars.base (vars.free []) = _
  rw [vars.free_nil]

/-- Neither pass runs forever, whatever the table holds. -/
theorem passes_end (vars : Variables) :
    (∀ line : Text, ∃ n ≤ line.length * Nat.pow vars.base vars.entries.length + 1,
      turns (Pass.step vars) n (.start line) = .halt ((Pass.start line).run vars)) ∧
    (∀ p : Pass, ∃ n ≤ p.potential vars + 1,
      turns (Pass.step vars) n p = .halt (p.run vars)) ∧
    (∀ (name : Text) (p : SelfPass), ∃ n ≤ p.rest.length + 1,
      turns (SelfPass.step vars name) n p = .halt ((SelfPass.loop vars name).run p)) := by
  refine ⟨?_, ?_, ?_⟩
  · intro line
    rw [← Pass.potential_start]
    exact (Pass.loop vars).exists_turns (.start line)
  · intro p
    exact (Pass.loop vars).exists_turns p
  · intro name p
    exact (SelfPass.loop vars name).exists_turns p

end MatrixCalc
