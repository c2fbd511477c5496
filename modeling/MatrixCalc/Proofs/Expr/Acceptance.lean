import MatrixCalc.Proofs.Expr.Steps

/-!
# The parser takes phrases

A phrase that fits into the levels that are left is taken by the parser wherever a phrase of its
kind may begin, and leaves its tree.
-/
namespace MatrixCalc

/-- The parser takes the phrase and leaves its tree, whatever is open around it. -/
def Phrase.Taken : {r : Rank} → Phrase r → Prop
  | .member .power, p => ∀ d stack, d + p.levels ≤ maxDepth →
      Parser.run? ⟨d, stack, .operand⟩ p.tokens = some (Parser.complete d stack p.tree)
  | .member level, p => ∀ d stack, Waits level stack → d + p.levels ≤ maxDepth →
      ∃ x : Pending, Parser.run? ⟨d, stack, .operand⟩ p.tokens = some x.parser ∧
        x.climb level = .joined level d stack p.tree
  | .chain level, p => ∀ d stack, Fresh level stack → d + p.levels ≤ maxDepth →
      ∃ x : Pending, Parser.run? ⟨d, stack, .operand⟩ p.tokens = some x.parser ∧
        ∃ n, x.climb level = ⟨d + n, stack, n, p.tree⟩
  | .links level, p => ∀ (x : Pending) d stack n tree, x.climb level = ⟨d + n, stack, n, tree⟩ →
      Fresh level stack → d + n + p.levels ≤ maxDepth →
      ∃ y : Pending, x.parser.run? p.tokens = some y.parser ∧
        ∃ n', y.climb level = ⟨d + n', stack, n', p.tree tree⟩
  | .further f given, p => ∀ (x : Pending) d args below n tree,
      x.climb .sum = ⟨d + n, .call f args :: below, n, tree⟩ → args.length + 1 = given →
      d + p.levels ≤ maxDepth →
      x.parser.run? (p.tokens ++ [.rightParen]) =
        some (Parser.complete (d - 1) below (.call f (args ++ tree :: p.tree)))

namespace Phrase

theorem Taken.member {level : Level} {p : Phrase (.member level)} (h : p.Taken) {d : Nat}
    {stack : List Frame} (hw : Waits level stack) (hd : d + p.levels ≤ maxDepth) :
    ∃ x : Pending, Parser.run? ⟨d, stack, .operand⟩ p.tokens = some x.parser ∧
      x.climb level = .joined level d stack p.tree := by
  cases level with
  | power =>
    have hcomplete := Parser.complete_of_waits hw d p.tree
    exact ⟨_, (h d stack hd).trans (congrArg some hcomplete), rfl⟩
  | product | sum => exact h d stack hw hd

theorem given_le_most {f : Function} {given : Nat} (more : Phrase (.further f given)) :
    given ≤ f.arity.most := by
  cases more with
  | noMore _ _ h =>
    simp only [Arity.accepts, Bool.and_eq_true, decide_eq_true_eq] at h
    exact h.2
  | next _ _ argument more => exact Nat.le_of_succ_le more.given_le_most

theorem taken {r : Rank} (p : Phrase r) : p.Taken := by
  induction p with
  | number x =>
    intro d stack hd
    rfl
  | group inner ih =>
    intro d stack hd
    simp only [levels] at hd
    obtain ⟨x, hrun, n, hx⟩ := ih (d + 1) (.group :: stack) (fresh_group _ _) (by omega)
    have hclose : x.parser.step? .rightParen = some (Parser.complete d stack inner.tree) := by
      rw [Parser.step?_closing x rfl, hx]
      simp [Parser.toOption_close_group]
    rw [tokens_group, Parser.run?_cons, Parser.step?_leftParen, if_pos (by omega),
      Option.bind_some, Parser.run?_append, hrun, Option.bind_some, Parser.run?_cons, hclose]
    rfl
  | signed negative operand ih =>
    intro d stack hd
    simp only [levels] at hd
    have hrun := ih (d + 1) (.sign negative :: stack) (by omega)
    rw [tokens_signed, Parser.run?_cons, Parser.step?_sign, if_pos (by omega), Option.bind_some,
      hrun, Parser.complete_sign]
    rfl
  | emptyCall f hf =>
    intro d stack hd
    simp only [levels] at hd
    rw [tokens_emptyCall, Parser.run?_cons, Parser.step?_function, if_pos (by omega),
      Option.bind_some, Parser.run?_cons, Parser.step?_parenthesis, if_pos rfl, Option.bind_some,
      Parser.run?_cons, Parser.step?_emptyCall, if_pos hf]
    rfl
  | call f first more ihfirst ihmore =>
    intro d stack hd
    simp only [levels] at hd
    obtain ⟨x, hrun, n, hx⟩ :=
      ihfirst (d + 1) (.call f [] :: stack) (fresh_call _ _ _ _) (by omega)
    have hmore := ihmore x (d + 1) [] stack n first.tree hx rfl (by omega)
    rw [tokens_call, Parser.run?_cons, Parser.step?_function, if_pos (by omega),
      Option.bind_some, Parser.run?_cons, Parser.step?_parenthesis, if_pos rfl, Option.bind_some,
      Parser.run?_append, hrun, Option.bind_some, hmore]
    rfl
  | power p ih =>
    intro d stack hw hd
    obtain ⟨x, hrun, n, hx⟩ := ih d stack (hw.fresh (by decide)) hd
    have hx : x = ⟨d + n, stack, n, p.tree⟩ := hx
    refine ⟨x, hrun, ?_⟩
    simp [Pending.climb, Pending.up, hx, tree]
  | product p ih =>
    intro d stack hw hd
    obtain ⟨x, hrun, n, hx⟩ := ih d stack (hw.fresh (by decide)) hd
    refine ⟨x, hrun, ?_⟩
    have hx : x.up .product = ⟨d + n, stack, n, p.tree⟩ := hx
    rw [Pending.climb, hx]
    simp [Pending.up, tree]
  | chain level first links ihfirst ihlinks =>
    intro d stack hf hd
    simp only [levels] at hd
    obtain ⟨x, hrun, hx⟩ := Taken.member ihfirst hf.waits (d := d) (by omega)
    rw [Pending.joined_of_fresh hf] at hx
    obtain ⟨y, hlinks, hy⟩ := ihlinks x d stack 0 first.tree hx hf (by omega)
    refine ⟨y, ?_, hy⟩
    rw [tokens_chain, Parser.run?_append, hrun, Option.bind_some, hlinks]
  | done level =>
    intro x d stack n tree hx hf hd
    exact ⟨x, rfl, n, hx⟩
  | link level op hop right more ihright ihmore =>
    intro x d stack n tree hx hf hd
    simp only [levels] at hd
    subst hop
    obtain ⟨y, hright, hy⟩ := Taken.member ihright (waits_chain _ (n + 1) tree op stack)
      (d := d + n + 1) (by omega)
    rw [Pending.joined_chain] at hy
    obtain ⟨z, hmore, hz⟩ := ihmore y d stack (n + 1) _ hy hf (by omega)
    refine ⟨z, ?_, hz⟩
    rw [tokens_link, Parser.run?_cons, Parser.step?_operator, hx, if_pos (by simp; omega),
      Option.bind_some, Parser.run?_append, hright, Option.bind_some, hmore]
  | bang more ih =>
    intro x d stack n tree hx hf hd
    simp only [levels] at hd
    have hx : x = ⟨d + n, stack, n, tree⟩ := hx
    subst hx
    obtain ⟨y, hmore, hy⟩ := ih ⟨d + n + 1, stack, n + 1, tree.factorial⟩ d stack (n + 1)
      tree.factorial rfl hf (by omega)
    refine ⟨y, ?_, hy⟩
    rw [tokens_bang, Parser.run?_cons, Parser.step?_bang, if_pos (by simp; omega),
      Option.bind_some, hmore]
  | noMore f given hf =>
    intro x d args below n tree hx hgiven hd
    rw [tokens_noMore, List.nil_append, Parser.run?_cons, Parser.step?_closing x rfl, hx]
    simp [Parser.toOption_close_call, hgiven, hf, Phrase.tree]
  | next f given argument more ihargument ihmore =>
    intro x d args below n tree hx hgiven hd
    simp only [levels] at hd
    have hmost := more.given_le_most
    obtain ⟨y, hargument, m, hy⟩ :=
      ihargument d (.call f (args ++ [tree]) :: below) (fresh_call _ _ _ _) (by omega)
    have hmore := ihmore y d (args ++ [tree]) below m argument.tree hy (by simp [hgiven]) (by omega)
    rw [tokens_next, List.cons_append, Parser.run?_cons, Parser.step?_closing x rfl, hx,
      Parser.toOption_close_call, if_pos ⟨rfl, by omega⟩]
    simp only [Nat.add_sub_cancel]
    rw [Option.bind_some, List.append_assoc, Parser.run?_append, hargument, Option.bind_some,
      hmore]
    simp [Phrase.tree]

end Phrase
end MatrixCalc
