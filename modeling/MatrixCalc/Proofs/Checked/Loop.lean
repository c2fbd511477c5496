import Mathlib.Data.PFun
import MatrixCalc.Loop

/-!
# Loops whose turns may be refused

A loop over another representation of the states, whose turns may be refused and which need not
end. Where each of its turns does what a turn of a loop that ends does, its run has the same
result.
-/
namespace MatrixCalc

variable {σ τ ρ υ : Type}

namespace Turn

def map (f : σ → τ) (g : ρ → υ) : Turn σ ρ → Turn τ υ
  | next s => next (f s)
  | halt result => halt (g result)

def toSum : Turn σ ρ → ρ ⊕ σ
  | next s => .inr s
  | halt result => .inl result

end Turn

namespace Checked

/-- A refused access leaves what depends on it undefined. -/
instance optionToPart : MonadLift Option Part := ⟨Part.ofOption⟩

@[simp] theorem liftM_some {α : Type} (a : α) : (liftM (some a) : Part α) = .some a := rfl

@[simp] theorem some_bind {α β : Type} (a : α) (f : α → Part β) : Part.some a >>= f = f a :=
  Part.bind_some a f

/-- Takes turns until one of them halts; undefined where a turn is refused or none halts. -/
def run (turn : τ → Part (Turn τ υ)) (s : τ) : Part υ :=
  PFun.fix (fun s => (turn s).map Turn.toSum) s

variable {turn : τ → Part (Turn τ υ)}

theorem run_of_halt {s : τ} {result : υ} (h : turn s = .some (.halt result)) :
    run turn s = .some result := by
  refine Part.eq_some_iff.2 (PFun.fix_stop ?_)
  rw [h, Part.map_some]
  exact Part.mem_some _

theorem run_of_next {s s' : τ} (h : turn s = .some (.next s')) : run turn s = run turn s' := by
  refine PFun.fix_fwd_eq ?_
  rw [h, Part.map_some]
  exact Part.mem_some _

/-- The run of a loop in another representation of its states, turn by turn. -/
theorem run_eq {l : Loop σ ρ} {f : σ → τ} {g : ρ → υ} {Inv : σ → Prop}
    (hturn : ∀ s, Inv s → turn (f s) = .some ((l.turn s).map f g))
    (hnext : ∀ s s', Inv s → l.turn s = .next s' → Inv s') {s : σ} (hs : Inv s) :
    run turn (f s) = .some (g (l.run s)) := by
  revert hs
  refine l.run_induct (motive := fun s result => Inv s → run turn (f s) = .some (g result)) ?_ ?_ s
  · intro s result h hs
    apply run_of_halt
    rw [hturn s hs, h]
    rfl
  · intro s s' result h ih hs
    have hstep : turn (f s) = .some (.next (f s')) := by
      rw [hturn s hs, h]
      rfl
    rw [run_of_next hstep]
    exact ih (hnext s s' hs h)

end Checked
end MatrixCalc
