import MatrixCalc.Quad

/-!
# Sizes

Vectors and square matrices come in the sizes two, three and four. Storage always has four
places; a place is active when its index is below the size.
-/
namespace MatrixCalc

inductive Dim where
  | two | three | four
  deriving DecidableEq

namespace Dim

def toNat : Dim → Nat
  | two => 2
  | three => 3
  | four => 4

def ofNat? : Nat → Option Dim
  | 2 => some two
  | 3 => some three
  | 4 => some four
  | _ => none

/-- A place that a vector or matrix of this size uses. -/
def Active (d : Dim) (i : Fin 4) : Prop := i.val < d.toNat

instance (d : Dim) (i : Fin 4) : Decidable (d.Active i) :=
  inferInstanceAs (Decidable (i.val < d.toNat))

def indices : Dim → List (Fin 4)
  | two => [0, 1]
  | three => [0, 1, 2]
  | four => [0, 1, 2, 3]

/-- The sum over the active places, from left to right and without a starting value. -/
def sum {α : Type} [Add α] (d : Dim) (f : Fin 4 → α) : α :=
  match d with
  | two => f 0 + f 1
  | three => f 0 + f 1 + f 2
  | four => f 0 + f 1 + f 2 + f 3

theorem two_le_toNat (d : Dim) : 2 ≤ d.toNat := by cases d <;> decide

theorem toNat_le_four (d : Dim) : d.toNat ≤ 4 := by cases d <;> decide

theorem toNat_injective {d e : Dim} (h : d.toNat = e.toNat) : d = e := by
  cases d <;> cases e <;> simp_all [toNat]

theorem mem_indices (d : Dim) (i : Fin 4) : i ∈ d.indices ↔ d.Active i := by
  revert i; cases d <;> decide

end Dim
end MatrixCalc
