/-!
# Loops that end

A loop takes turns on a state until a turn halts with a result. Every turn that does not halt
leaves less to do, so the loop is run without a bound on the number of its turns.
-/
namespace MatrixCalc

inductive Turn (σ ρ : Type) where
  | next (s : σ)
  | halt (result : ρ)

structure Loop (σ ρ : Type) where
  turn : σ → Turn σ ρ
  /-- A bound on what is left to do. -/
  left : σ → Nat
  left_lt {s s' : σ} : turn s = .next s' → left s' < left s

namespace Loop

variable {σ ρ : Type} (l : Loop σ ρ)

def run (s : σ) : ρ :=
  match _h : l.turn s with
  | .halt result => result
  | .next s' => run s'
termination_by l.left s
decreasing_by exact l.left_lt _h

theorem run_of_halt {s : σ} {result : ρ} (h : l.turn s = .halt result) : l.run s = result := by
  rw [run]
  split
  · next h' =>
    rw [h] at h'
    cases h'
    rfl
  · next h' =>
    rw [h] at h'
    cases h'

theorem run_of_next {s s' : σ} (h : l.turn s = .next s') : l.run s = l.run s' := by
  rw [run]
  split
  · next h' =>
    rw [h] at h'
    cases h'
  · next h' =>
    rw [h] at h'
    cases h'
    rfl

/-- What holds of the result of the last turn, and goes over from each turn to the turn before
it, holds of the result of the loop. -/
theorem run_induct {motive : σ → ρ → Prop}
    (halt : ∀ s result, l.turn s = .halt result → motive s result)
    (next : ∀ s s' result, l.turn s = .next s' → motive s' result → motive s result) (s : σ) :
    motive s (l.run s) := by
  cases h : l.turn s with
  | halt result =>
    rw [l.run_of_halt h]
    exact halt s result h
  | next s' =>
    have hlt := l.left_lt h
    rw [l.run_of_next h]
    exact next s s' _ h (run_induct halt next s')
termination_by l.left s

end Loop
end MatrixCalc
