import MatrixCalc.Binary64.Integral
import MatrixCalc.Eval.Arguments

/-!
# Random numbers

Evaluation draws from a source of random numbers and leaves it in a new state, also where it
ends in an error. Any source will do whose draw below a bound stays below it. `Seeded` is one
that repeats itself for the same seed.
-/
namespace MatrixCalc

/-- A state from which whole numbers below a bound can be drawn. -/
class RandomSource (σ : Type) where
  draw : (bound : Nat) → 0 < bound → σ → Fin bound × σ

/-- A calculation that may draw random numbers and may fail. -/
abbrev Calc (σ : Type) := ExceptT CalcError (StateM σ)

namespace Calc

variable {σ : Type}

def ofExcept {α : Type} (result : Except CalcError α) : Calc σ α := fun s => (result, s)

def draw [RandomSource σ] (bound : Nat) (h : 0 < bound) : Calc σ (Fin bound) :=
  fun s => let (k, s) := RandomSource.draw bound h s; (.ok k, s)

end Calc

namespace Builtin

/-- The bound that a number stands for, when it is whole and in range. -/
def randomBound? (x : Float) : Option Nat :=
  match Binary64.natural32? x with
  | some n => if 0 < n ∧ n ≤ maxRandomBound then some n else none
  | none => none

theorem randomBound?_pos {x : Float} {n : Nat} (h : randomBound? x = some n) : 0 < n := by
  unfold randomBound? at h
  split at h
  · split at h
    · next hn => cases h; exact hn.1
    · cases h
  · cases h

def rand {σ : Type} [RandomSource σ] : List Value → Calc σ Value
  | [arg] => do
    let x ← Calc.ofExcept (Function.rand.scalarArg 1 arg)
    match h : randomBound? x with
    | some n =>
      let k ← Calc.draw n (randomBound?_pos h)
      return .scalar (Float.ofNat k)
    | none => throw (.randomBound x)
  | args => throw (.argumentCount 1 args.length)

end Builtin

/-- A source of random numbers that is determined by its seed: a counter whose values are mixed
into 64 random bits. -/
structure Seeded where
  counter : UInt64

namespace Seeded

def ofSeed (seed : Nat) : Seeded := ⟨UInt64.ofNat seed⟩

/-- Spreads every bit of a word over all others. -/
def scramble (x : UInt64) : UInt64 :=
  let x := (x ^^^ (x >>> 30)) * 0xbf58476d1ce4e5b9
  let x := (x ^^^ (x >>> 27)) * 0x94d049bb133111eb
  x ^^^ (x >>> 31)

instance : RandomSource Seeded where
  draw bound h s :=
    let counter := s.counter + 0x9e3779b97f4a7c15
    (⟨(scramble counter).toNat % bound, Nat.mod_lt _ h⟩, ⟨counter⟩)

end Seeded
end MatrixCalc
