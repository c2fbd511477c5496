/-!
# Four places

`Quad α` stores four values. It is the storage behind vectors and the rows of matrices; a
value is read by its index and a `Quad` is determined by what is read from it.
-/
namespace MatrixCalc

/-- There is a first place, so numerals name places. -/
instance fourNeZero : @NeZero Nat Zero.ofOfNat0 4 := ⟨Nat.succ_ne_zero 3⟩

structure Quad (α : Type) where
  x : α
  y : α
  z : α
  w : α
  deriving DecidableEq, BEq

namespace Quad

variable {α β : Type}

def get (q : Quad α) : Fin 4 → α
  | 0 => q.x
  | 1 => q.y
  | 2 => q.z
  | 3 => q.w

def ofFn (f : Fin 4 → α) : Quad α := ⟨f 0, f 1, f 2, f 3⟩

def toList (q : Quad α) : List α := [q.x, q.y, q.z, q.w]

@[simp] theorem get_ofFn (f : Fin 4 → α) (i : Fin 4) : (ofFn f).get i = f i := by
  match i with
  | 0 => rfl
  | 1 => rfl
  | 2 => rfl
  | 3 => rfl

theorem ext_get {p q : Quad α} (h : ∀ i, p.get i = q.get i) : p = q := by
  have h0 : p.x = q.x := h 0
  have h1 : p.y = q.y := h 1
  have h2 : p.z = q.z := h 2
  have h3 : p.w = q.w := h 3
  cases p; cases q; simp_all

theorem ofFn_congr {f g : Fin 4 → α} (h : ∀ i, f i = g i) : ofFn f = ofFn g :=
  congrArg ofFn (funext h)

end Quad
end MatrixCalc
