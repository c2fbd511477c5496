import MatrixCalc.Proofs.Eval.Recursion
import MatrixCalc.Proofs.Expr.Height
import MatrixCalc.Proofs.Expr.Spaced
import MatrixCalc.Variables.Basic

/-!
# The tallest parsed tree

Of the phrases that fit into the levels, one has the greatest height that the levels allow, and
spaced out its tokens are a text that is parsed.
-/
namespace MatrixCalc

namespace Phrase

def bangs : Nat → Phrase (.links .power)
  | 0 => done .power
  | n + 1 => bang (bangs n)

/-- The same operator and the same member, again and again. -/
def repeated {level : Level} (op : Operator) (h : op.level = level)
    (right : Phrase (.member level)) : Nat → Phrase (.links level)
  | 0 => done level
  | n + 1 => link level op h right (repeated op h right n)

theorem mul_level : Operator.mul.level = .product := rfl

theorem add_level : Operator.add.level = .sum := rfl

def oneFactor : Phrase (.member .product) := power (chain .power (number 1) (done .power))

def oneTerm : Phrase (.member .sum) := product (chain .product oneFactor (done .product))

/-- A sum whose first operand stands below `n` operators of each level. -/
def crown (operand : Phrase (.member .power)) (n : Nat) : Phrase (.chain .sum) :=
  chain .sum
    (product (chain .product (power (chain .power operand (bangs n)))
      (repeated .mul mul_level oneFactor n)))
    (repeated .add add_level oneTerm n)

/-- The highest operand with so many levels. -/
def tallest : Nat → Phrase (.member .power)
  | 0 => number 1
  | d + 1 => call (.pointwise .abs) (crown (tallest d) d) (noMore _ 1 rfl)

theorem levels_bangs (n : Nat) : (bangs n).levels = n := by
  induction n with
  | zero => rfl
  | succ n ih => rw [bangs, levels, ih]

theorem levels_repeated {level : Level} {op : Operator} (hop : op.level = level)
    {right : Phrase (.member level)} (h : right.levels = 0) (n : Nat) :
    (repeated op hop right n).levels = n := by
  induction n with
  | zero => rfl
  | succ n ih => rw [repeated, levels, h, ih, Nat.zero_max]

theorem levels_crown (operand : Phrase (.member .power)) (n : Nat) :
    (crown operand n).levels = max operand.levels n := by
  simp only [crown, levels, levels_bangs]
  rw [levels_repeated mul_level rfl, levels_repeated add_level rfl]
  omega

theorem levels_tallest (d : Nat) : (tallest d).levels = d := by
  induction d with
  | zero => rfl
  | succ d ih =>
    simp only [tallest, levels, levels_crown, ih]
    omega

theorem height_bangs (n : Nat) (left : Expr) :
    ((bangs n).tree left).height = left.height + n := by
  induction n generalizing left with
  | zero => rfl
  | succ n ih =>
    simp only [bangs, tree, ih, Expr.factorial, Expr.height, Expr.heightAll]
    omega

theorem height_repeated {level : Level} {op : Operator} (hop : op.level = level)
    {right : Phrase (.member level)} (h : right.tree.height = 0) (n : Nat) (left : Expr) :
    ((repeated op hop right n).tree left).height = left.height + n := by
  induction n generalizing left with
  | zero => rfl
  | succ n ih =>
    simp only [repeated, tree, ih, Expr.height, h]
    omega

theorem height_crown (operand : Phrase (.member .power)) (n : Nat) :
    (crown operand n).tree.height = operand.tree.height + 3 * n := by
  simp only [crown, tree]
  rw [height_repeated add_level rfl, height_repeated mul_level rfl, height_bangs]
  omega

theorem height_tallest (d : Nat) : (tallest d).tree.height = operandHeight d := by
  induction d with
  | zero => rfl
  | succ d ih =>
    simp only [tallest, tree, Expr.height, Expr.heightAll, height_crown, ih, operandHeight]
    omega

theorem tokens_bangs (n : Nat) : (bangs n).tokens = List.replicate n .bang := by
  induction n with
  | zero => rfl
  | succ n ih => rw [bangs, tokens_bang, ih, List.replicate_succ]

theorem writable_repeated {level : Level} {op : Operator} (hop : op.level = level)
    {right : Phrase (.member level)} (h : ∀ token ∈ right.tokens, Writable token) (n : Nat) :
    ∀ token ∈ (repeated op hop right n).tokens, Writable token := by
  induction n with
  | zero => nofun
  | succ n ih =>
    rw [repeated, tokens_link, List.forall_mem_cons, List.forall_mem_append]
    exact ⟨(Word.operator op).writable, h, ih⟩

theorem writable_oneTerm : ∀ token ∈ oneTerm.tokens, Writable token := by
  intro token htoken
  obtain rfl := List.mem_singleton.1 htoken
  exact word_one.writable

theorem writable_crown {operand : Phrase (.member .power)}
    (h : ∀ token ∈ operand.tokens, Writable token) (n : Nat) :
    ∀ token ∈ (crown operand n).tokens, Writable token := by
  have hbangs : ∀ token ∈ (bangs n).tokens, Writable token := by
    rw [tokens_bangs]
    intro token htoken
    obtain rfl := List.eq_of_mem_replicate htoken
    exact Word.bang.writable
  simp only [crown, tokens_chain, tokens_product, tokens_power, List.forall_mem_append]
  exact ⟨⟨⟨h, hbangs⟩, writable_repeated mul_level writable_oneTerm n⟩,
    writable_repeated add_level writable_oneTerm n⟩

theorem writable_tallest (d : Nat) : ∀ token ∈ (tallest d).tokens, Writable token := by
  induction d with
  | zero => exact writable_oneTerm
  | succ d ih =>
    rw [tallest, tokens_call]
    simp only [List.forall_mem_cons, List.forall_mem_append]
    have habs : Word _ (.function (.pointwise .abs)) := .keyword (by decide)
    exact ⟨habs.writable, Word.leftParen.writable, writable_crown ih d, nofun,
      Word.rightParen.writable, nofun⟩

end Phrase

/-- The bound on the height of sums with at most `d` levels is reached. -/
theorem exists_tallest (known : Text → Bool) {d : Nat} (hd : d ≤ maxDepth) :
    ∃ t tree, Expr.parse known t = .ok tree ∧ tree.height = Level.sum.chainHeight d := by
  have hwritable := Phrase.writable_crown (Phrase.writable_tallest d) d
  obtain ⟨t, ht⟩ := exists_spaced hwritable
  have hlevels : (Phrase.crown (.tallest d) d).levels ≤ maxDepth := by
    rw [Phrase.levels_crown, Phrase.levels_tallest, Nat.max_self]
    exact hd
  refine ⟨t, _, parse_of_spaced ht hlevels known, ?_⟩
  rw [Phrase.height_crown, Phrase.height_tallest]
  rfl

theorem chainHeight_maxDepth : Level.sum.chainHeight maxDepth = 98944 := by
  decide +kernel

/-- One with `n` factorial signs, plus one. -/
def overtallText (n : Nat) : Text :=
  " 1".toList ++ ((List.replicate n " !".toList).flatten ++ " + 1".toList)

namespace Phrase

def overtall (n : Nat) : Phrase (.chain .sum) :=
  chain .sum (product (chain .product (power (chain .power (number 1) (bangs n))) (done .product)))
    (repeated .add add_level oneTerm 1)

theorem tokens_overtall (n : Nat) :
    (overtall n).tokens =
      [.number 1] ++ (List.replicate n .bang ++ [.operator .add, .number 1]) := by
  simp only [overtall, tokens_chain, tokens_product, tokens_power, tokens_number, tokens_bangs,
    tokens_done, List.append_nil, List.append_assoc]
  rfl

theorem spaced_overtall (n : Nat) : Spaced (overtall n).tokens (overtallText n) := by
  have hone : Spaced [.number 1] " 1".toList := word_one.spaced .nil
  have hplus : Spaced [.operator .add, .number 1] " + 1".toList := (Word.operator .add).spaced hone
  have hbangs := Spaced.replicate Word.bang.writes Word.bang.ne_stop n
  rw [tokens_overtall]
  exact hone.append (hbangs.append hplus)

theorem levels_overtall {n : Nat} (hn : 0 < n) : (overtall n).levels = n := by
  simp only [overtall, levels, levels_bangs]
  rw [levels_repeated add_level rfl]
  omega

theorem height_overtall (n : Nat) : (overtall n).tree.height = n + 1 := by
  simp only [overtall, tree]
  rw [height_repeated add_level rfl, id, height_bangs, Expr.number, Expr.height, Nat.zero_add]

end Phrase

theorem parse_overtallText (known : Text → Bool) :
    Expr.parse known (overtallText maxDepth) = .ok (Phrase.overtall maxDepth).tree := by
  have hlevels : (Phrase.overtall maxDepth).levels = maxDepth := Phrase.levels_overtall (by decide)
  exact parse_of_spaced (Phrase.spaced_overtall _) (Nat.le_of_eq hlevels) known

/-- The levels bound the height of a parsed tree and the recursion of its evaluation, though not
by their own number. The bound is reached. -/
theorem parsed_height_bounded (known : Text → Bool) (t : Text) (tree : Expr)
    (h : Expr.parse known t = .ok tree) (σ : Type) [RandomSource σ] :
    tree.height ≤ 98944 ∧ tree.evalWithin 98945 = (tree.eval : Calc σ Value).whole ∧
      ∃ t' tree', Expr.parse known t' = .ok tree' ∧ tree'.height = 98944 := by
  have hheight : tree.height ≤ 98944 := by
    obtain ⟨p, -, hp, rfl⟩ := (parse_eq_ok_iff_spelled known t tree).1 h
    have hlow : p.tree.height ≤ Level.sum.chainHeight maxDepth := p.low hp
    rwa [chainHeight_maxDepth] at hlow
  refine ⟨hheight, Expr.evalWithin_of_height_lt tree (Nat.lt_succ_of_le hheight), ?_⟩
  rw [← chainHeight_maxDepth]
  exact exists_tallest known (Nat.le_refl maxDepth)

theorem parsed_height_bounded_of_overtall :
    (Phrase.overtall 256).tree.height ≤ 98944 ∧
      (Phrase.overtall 256).tree.evalWithin 98945 =
        ((Phrase.overtall 256).tree.eval : Calc Seeded Value).whole ∧
      ∃ t tree, Expr.parse Variables.initial.contains t = .ok tree ∧ tree.height = 98944 :=
  parsed_height_bounded Variables.initial.contains (overtallText 256) _ (parse_overtallText _)
    Seeded

/-- The factorials are closed when the sum goes on, so one more operator stands above them. -/
theorem parsed_height_exceeds_levels :
    Expr.parse Variables.initial.contains (overtallText 256) = .ok (Phrase.overtall 256).tree ∧
      (Phrase.overtall 256).tree.height = 257 :=
  ⟨parse_overtallText _, Phrase.height_overtall 256⟩

end MatrixCalc
