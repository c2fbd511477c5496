import MatrixCalc.Proofs.Expr.Spelling

/-!
# The height of parsed trees

The levels that are open together do not bound the height of the tree: the operators of a chain
are closed when the chain ends, and the tree of the chain lies below all operators of the chain
around it. At each level of parentheses the chains of all three kinds can be as long as the
levels that are left allow, which gives the bound here.
-/
namespace MatrixCalc

/-- The greatest height of an operand with at most so many levels. -/
def operandHeight : Nat → Nat
  | 0 => 0
  | d + 1 => operandHeight d + 3 * d + 1

theorem operandHeight_le {d d' : Nat} (h : d ≤ d') : operandHeight d ≤ operandHeight d' := by
  induction h with
  | refl => exact Nat.le_refl _
  | step _ ih => exact Nat.le_trans ih (by simp only [operandHeight]; omega)

/-- The greatest height of a member of a chain. -/
def Level.memberHeight (level : Level) (d : Nat) : Nat :=
  operandHeight d + (level.looseness - 1) * d

/-- The greatest height of a chain. -/
def Level.chainHeight (level : Level) (d : Nat) : Nat := operandHeight d + level.looseness * d

theorem Level.chainHeight_eq (level : Level) (d : Nat) :
    level.chainHeight d = level.memberHeight d + d := by
  cases level <;> simp only [chainHeight, memberHeight, looseness] <;> omega

theorem Level.memberHeight_le (level : Level) {d d' : Nat} (h : d ≤ d') :
    level.memberHeight d ≤ level.memberHeight d' :=
  Nat.add_le_add (operandHeight_le h) (Nat.mul_le_mul_left _ h)

/-- An operand that opens a level is at most one higher than the sum in it. -/
theorem Level.memberHeight_power_succ (d : Nat) :
    Level.power.memberHeight (d + 1) = Level.sum.chainHeight d + 1 := by
  simp only [memberHeight, chainHeight, looseness, operandHeight]
  omega

/-- The height that a phrase gives to trees, when at most `d` levels are open in it. -/
def Phrase.Low (d : Nat) : {r : Rank} → Phrase r → Prop
  | .member level, p => p.tree.height ≤ level.memberHeight d
  | .chain level, p => p.tree.height ≤ level.chainHeight d
  | .links level, p =>
    ∀ left : Expr, (p.tree left).height ≤ max left.height (level.memberHeight d) + d
  | .further _ _, p => Expr.heightAll p.tree ≤ Level.sum.chainHeight d

namespace Phrase

theorem low {r : Rank} (p : Phrase r) {d : Nat} (hd : p.levels ≤ d) : p.Low d := by
  induction p generalizing d with
  | number x => exact Nat.zero_le _
  | group inner ih =>
    simp only [levels] at hd
    obtain ⟨d, rfl⟩ : ∃ k, d = k + 1 := ⟨d - 1, by omega⟩
    have h : inner.tree.height ≤ Level.sum.chainHeight d := ih (by omega)
    rw [Low, Level.memberHeight_power_succ]
    exact Nat.le_succ_of_le h
  | signed negative operand ih =>
    simp only [levels] at hd
    obtain ⟨d, rfl⟩ : ∃ k, d = k + 1 := ⟨d - 1, by omega⟩
    have h : operand.tree.height ≤ Level.power.memberHeight d := ih (by omega)
    have hsum : Level.power.memberHeight d ≤ Level.sum.chainHeight d := by
      simp only [Level.memberHeight, Level.chainHeight, Level.looseness]
      omega
    rw [Low, Level.memberHeight_power_succ]
    cases negative with
    | false => exact Nat.le_succ_of_le (Nat.le_trans h hsum)
    | true =>
      simp only [tree, if_true, Expr.negate, Expr.height, Expr.heightAll]
      omega
  | emptyCall f hf =>
    simp only [levels] at hd
    obtain ⟨d, rfl⟩ : ∃ k, d = k + 1 := ⟨d - 1, by omega⟩
    rw [Low, Level.memberHeight_power_succ]
    exact Nat.succ_le_succ (Nat.zero_le _)
  | call f first more ihfirst ihmore =>
    simp only [levels] at hd
    obtain ⟨d, rfl⟩ : ∃ k, d = k + 1 := ⟨d - 1, by omega⟩
    have hfirst : first.tree.height ≤ Level.sum.chainHeight d := ihfirst (by omega)
    have hmore : Expr.heightAll more.tree ≤ Level.sum.chainHeight d := ihmore (by omega)
    rw [Low, Level.memberHeight_power_succ]
    exact Nat.succ_le_succ (Nat.max_le.2 ⟨hfirst, hmore⟩)
  | power p ih => exact ih hd
  | product p ih => exact ih hd
  | chain level first links ihfirst ihlinks =>
    simp only [levels] at hd
    have hfirst : first.tree.height ≤ level.memberHeight d := ihfirst (by omega)
    have hlinks : (links.tree first.tree).height ≤ _ := ihlinks (d := d) (by omega) first.tree
    rw [Low, Level.chainHeight_eq]
    rw [Nat.max_eq_right hfirst] at hlinks
    exact hlinks
  | done level =>
    intro left
    exact Nat.le_trans (Nat.le_max_left _ _) (Nat.le_add_right _ _)
  | link level op hop right more ihright ihmore =>
    intro left
    simp only [levels] at hd
    obtain ⟨d, rfl⟩ : ∃ k, d = k + 1 := ⟨d - 1, by omega⟩
    have hright : right.tree.height ≤ level.memberHeight d := ihright (by omega)
    have hmore : (more.tree (.binary op left right.tree)).height ≤ _ :=
      ihmore (d := d) (by omega) _
    have hmono := level.memberHeight_le (Nat.le_add_right d 1)
    simp only [Expr.height] at hmore
    simp only [tree]
    omega
  | bang more ih =>
    intro left
    simp only [levels] at hd
    obtain ⟨d, rfl⟩ : ∃ k, d = k + 1 := ⟨d - 1, by omega⟩
    have hmore : (more.tree left.factorial).height ≤ _ := ih (d := d) (by omega) _
    have hmono := Level.power.memberHeight_le (Nat.le_add_right d 1)
    simp only [Expr.factorial, Expr.height, Expr.heightAll] at hmore
    simp only [tree, Expr.factorial]
    omega
  | noMore f given hf => exact Nat.zero_le _
  | next f given argument more ihargument ihmore =>
    simp only [levels] at hd
    have hargument : argument.tree.height ≤ Level.sum.chainHeight d := ihargument (by omega)
    have hmore : Expr.heightAll more.tree ≤ Level.sum.chainHeight d := ihmore (by omega)
    exact Nat.max_le.2 ⟨hargument, hmore⟩

end Phrase
end MatrixCalc
