import MatrixCalc.Proofs.Expr.Acceptance

/-!
# What the parser takes are phrases

From where a phrase of some kind may begin, tokens with which the parser finishes begin with a
phrase of this kind that fits into the levels that are left, and do not go on with it. What the
parser has made of the phrase is known from `Phrase.taken`, so each case only looks at the tokens
between phrases.
-/
namespace MatrixCalc

namespace Parser

/-- The parser takes the tokens and ends with a tree. -/
def Finishes (s : Parser) (ts : List Token) : Prop :=
  ∃ s' tree, s.run? ts = some s' ∧ s'.finish? = some tree

theorem Finishes.cons {s : Parser} {t : Token} {ts : List Token} (h : s.Finishes (t :: ts)) :
    ∃ s', s.step? t = some s' ∧ s'.Finishes ts := by
  obtain ⟨last, tree, hrun, hfinish⟩ := h
  rw [run?_cons, Option.bind_eq_some_iff] at hrun
  obtain ⟨s', hstep, hrest⟩ := hrun
  exact ⟨s', hstep, last, tree, hrest, hfinish⟩

theorem Finishes.append {s s' : Parser} {ts us : List Token} (h : s.Finishes (ts ++ us))
    (hrun : s.run? ts = some s') : s'.Finishes us := by
  obtain ⟨last, tree, hall, hfinish⟩ := h
  rw [run?_append, hrun] at hall
  exact ⟨last, tree, hall, hfinish⟩

/-- Where an operand is expected, the next token begins one, or ends a call without arguments. -/
inductive Begins (d : Nat) (stack : List Frame) : Token → Parser → Prop where
  | number (x : Float) : Begins d stack (.number x) (complete d stack (.number x))
  | leftParen : d < maxDepth → Begins d stack .leftParen ⟨d + 1, .group :: stack, .operand⟩
  | sign (negative : Bool) : d < maxDepth →
      Begins d stack (.operator (if negative then .sub else .add))
        ⟨d + 1, .sign negative :: stack, .operand⟩
  | function (f : Function) : d < maxDepth →
      Begins d stack (.function f) ⟨d + 1, .call f [] :: stack, .parenthesis⟩
  | rightParen (f : Function) (below : List Frame) : stack = .call f [] :: below →
      f.arity.accepts 0 = true →
      Begins d stack .rightParen (complete (d - 1) below (.call f []))

theorem begins_of_step? {d : Nat} {stack : List Frame} {t : Token} {s : Parser}
    (h : step? ⟨d, stack, .operand⟩ t = some s) : Begins d stack t s := by
  cases t with
  | number x =>
    cases h
    exact .number x
  | leftParen =>
    rw [step?_leftParen, Option.ite_none_right_eq_some] at h
    cases h.2
    exact .leftParen h.1
  | operator op =>
    cases op with
    | add =>
      rw [show Operator.add = if false then .sub else .add from rfl, step?_sign,
        Option.ite_none_right_eq_some] at h
      cases h.2
      exact .sign false h.1
    | sub =>
      rw [show Operator.sub = if true then .sub else .add from rfl, step?_sign,
        Option.ite_none_right_eq_some] at h
      cases h.2
      exact .sign true h.1
    | mul | div | mod | pow => cases h
  | function f =>
    rw [step?_function, Option.ite_none_right_eq_some] at h
    cases h.2
    exact .function f h.1
  | rightParen =>
    simp only [step?, feed, operand] at h
    split at h
    · next f below =>
      have h : step? ⟨d, .call f [] :: below, .operand⟩ .rightParen = some s := h
      rw [step?_emptyCall, Option.ite_none_right_eq_some] at h
      cases h.2
      exact .rightParen f below rfl h.1
    · cases h
  | stop | target | reference | bang | comma => cases h

theorem Finishes.begins {d : Nat} {stack : List Frame} {ts : List Token}
    (h : Finishes ⟨d, stack, .operand⟩ ts) :
    ∃ t us s, ts = t :: us ∧ Begins d stack t s ∧ s.Finishes us := by
  cases ts with
  | nil =>
    obtain ⟨s, tree, hrun, hfinish⟩ := h
    cases hrun
    cases hfinish
  | cons t us =>
    obtain ⟨s, hstep, hs⟩ := h.cons
    exact ⟨t, us, s, rfl, begins_of_step? hstep, hs⟩

/-- Behind the name of a function stands a parenthesis. -/
theorem Finishes.parenthesis {d : Nat} {stack : List Frame} {ts : List Token}
    (h : Finishes ⟨d, stack, .parenthesis⟩ ts) :
    ∃ us, ts = .leftParen :: us ∧ Finishes ⟨d, stack, .operand⟩ us := by
  cases ts with
  | nil =>
    obtain ⟨s, tree, hrun, hfinish⟩ := h
    cases hrun
    cases hfinish
  | cons t us =>
    obtain ⟨s, hstep, hs⟩ := h.cons
    rw [step?_parenthesis, Option.ite_none_right_eq_some] at hstep
    obtain ⟨rfl, hstep⟩ := hstep
    cases hstep
    exact ⟨us, rfl, hs⟩

/-- What closes a group is a parenthesis. -/
theorem Finishes.group {x : Pending} {d n : Nat} {below : List Frame} {tree : Expr}
    {ts : List Token} (hx : x.climb .sum = ⟨d, .group :: below, n, tree⟩)
    (hends : (Rank.chain .sum).Ends ts) (h : x.parser.Finishes ts) :
    ∃ us, ts = .rightParen :: us := by
  cases ts with
  | nil =>
    obtain ⟨s, tree, hrun, hfinish⟩ := h
    cases hrun
    rw [finish?_of_waiting, hx] at hfinish
    cases hfinish
  | cons t us =>
    obtain ⟨s, hstep, hs⟩ := h.cons
    rw [step?_closing x (Rank.ends_cons.1 hends), hx, toOption_close_group,
      Option.ite_none_right_eq_some] at hstep
    exact ⟨us, by rw [hstep.1]⟩

/-- Outside of all constructs nothing follows a complete expression. -/
theorem Finishes.outside {x : Pending} {d n : Nat} {tree : Expr} {ts : List Token}
    (hx : x.climb .sum = ⟨d, [], n, tree⟩) (hends : (Rank.chain .sum).Ends ts)
    (h : x.parser.Finishes ts) : ts = [] := by
  cases ts with
  | nil => rfl
  | cons t us =>
    obtain ⟨s, hstep, -⟩ := h.cons
    rw [step?_closing x (Rank.ends_cons.1 hends), hx, toOption_close_nil] at hstep
    cases hstep

end Parser

/-- A token that goes on with a chain and not with its last member is a link of its own. -/
theorem Level.link_of_continues {level : Level} {t : Token} (hc : level.continues t = true)
    (hm : (Rank.member level).continues t = false) :
    (∃ op, t = .operator op ∧ op.level = level) ∨ t = .bang ∧ level = .power := by
  cases t with
  | operator op =>
    refine .inl ⟨op, rfl, ?_⟩
    cases level <;> cases op <;>
      simp_all [Rank.continues, Level.continues, Level.looseness, Operator.level]
  | bang =>
    refine .inr ⟨rfl, ?_⟩
    cases level with
    | power => rfl
    | product | sum => cases hm
  | _ => cases hc

/-- The tokens begin with a phrase of this kind that fits into the levels above `d`, and do not
go on with it. -/
def Rank.Leads (r : Rank) (d : Nat) (ts : List Token) : Prop :=
  ∃ (p : Phrase r) (rest : List Token),
    ts = p.tokens ++ rest ∧ d + p.levels ≤ maxDepth ∧ r.Ends rest

/-- The parser does not stand between the parentheses of a call without arguments. -/
def NotBetween (stack : List Frame) (ts : List Token) : Prop :=
  ∀ f below, stack = .call f [] :: below → ts.head? ≠ some .rightParen

theorem notBetween_cons (frame : Frame) {below : List Frame} {ts : List Token}
    (h : ∀ f, frame ≠ .call f []) : NotBetween (frame :: below) ts :=
  fun f _ heq => absurd (List.cons.inj heq).1 (h f)

theorem Rank.ends_operand (ts : List Token) : (Rank.member .power).Ends ts := fun _ _ => rfl

open MatrixCalc.Parser

-- The tokens get fewer from call to call, or stay and the kind of phrase goes down from a chain to
-- its first member and from a member to the chain of the tighter level that it is.
mutual

theorem operand_of_finishes {d : Nat} {stack : List Frame} {ts : List Token} (hd : d ≤ maxDepth)
    (hb : NotBetween stack ts) (h : Finishes ⟨d, stack, .operand⟩ ts) :
    (Rank.member .power).Leads d ts := by
  obtain ⟨t, us, s, hts, hbegins, hs⟩ := h.begins
  have hlt : us.length < ts.length := by simp [hts]
  cases hbegins with
  | number x => exact ⟨.number x, us, hts, hd, Rank.ends_operand _⟩
  | leftParen hdepth =>
    obtain ⟨p, rest, hus, hp, hends⟩ :=
      chain_of_finishes .sum hdepth (notBetween_cons .group nofun) (fresh_group _ _) hs
    obtain ⟨x, hrun, n, hx⟩ := p.taken (d + 1) (.group :: stack) (fresh_group _ _) hp
    obtain ⟨rest', hrest⟩ := (Finishes.append (hus ▸ hs) hrun).group hx hends
    refine ⟨.group p, rest', ?_, ?_, Rank.ends_operand _⟩
    · simp [hts, hus, hrest]
    · simp only [Phrase.levels]
      omega
  | sign negative hdepth =>
    obtain ⟨p, rest, hus, hp, hends⟩ :=
      operand_of_finishes hdepth (notBetween_cons (.sign _) nofun) hs
    refine ⟨.signed negative p, rest, ?_, ?_, hends⟩
    · simp [hts, hus]
    · simp only [Phrase.levels]
      omega
  | function f hdepth =>
    obtain ⟨vs, hus, hvs⟩ := hs.parenthesis
    have hlt' : vs.length < ts.length := by
      rw [hus, List.length_cons] at hlt
      omega
    by_cases hempty : vs.head? = some .rightParen
    · obtain ⟨ws, rfl⟩ := List.head?_eq_some_iff.1 hempty
      obtain ⟨s', hstep, -⟩ := hvs.cons
      rw [step?_emptyCall, Option.ite_none_right_eq_some] at hstep
      exact ⟨.emptyCall f hstep.1, ws, by simp [hts, hus], hdepth, Rank.ends_operand _⟩
    · obtain ⟨first, rest, hvs', hfirst, hends⟩ :=
        chain_of_finishes .sum hdepth (fun _ _ _ => hempty) (fresh_call _ _ _ _) hvs
      obtain ⟨x, hrun, n, hx⟩ :=
        first.taken (d + 1) (.call f [] :: stack) (fresh_call _ _ _ _) hfirst
      have hlt'' : rest.length < ts.length := by
        rw [hvs', List.length_append] at hlt'
        omega
      obtain ⟨more, rest', hrest, hmore⟩ :=
        further_of_finishes hx rfl hdepth hends (Finishes.append (hvs' ▸ hvs) hrun)
      refine ⟨.call f first more, rest', ?_, ?_, Rank.ends_operand _⟩
      · simp [hts, hus, hvs', hrest]
      · simp only [Phrase.levels]
        omega
  | rightParen f below hstack hf => exact absurd (by simp [hts]) (hb f below hstack)
termination_by (ts.length, 0)

theorem member_of_finishes (level : Level) {d : Nat} {stack : List Frame} {ts : List Token}
    (hd : d ≤ maxDepth) (hb : NotBetween stack ts) (hw : Waits level stack)
    (h : Finishes ⟨d, stack, .operand⟩ ts) : (Rank.member level).Leads d ts := by
  cases hlevel : level with
  | power => exact operand_of_finishes hd hb h
  | product =>
    obtain ⟨p, rest, hts, hp, hends⟩ :=
      chain_of_finishes .power hd hb (hw.fresh (hlevel ▸ by decide)) h
    exact ⟨.power p, rest, hts, hp, hends⟩
  | sum =>
    obtain ⟨p, rest, hts, hp, hends⟩ :=
      chain_of_finishes .product hd hb (hw.fresh (hlevel ▸ by decide)) h
    exact ⟨.product p, rest, hts, hp, hends⟩
termination_by (ts.length, 2 * level.looseness)
decreasing_by all_goals exact Prod.Lex.right _ (hlevel ▸ by decide)

theorem chain_of_finishes (level : Level) {d : Nat} {stack : List Frame} {ts : List Token}
    (hd : d ≤ maxDepth) (hb : NotBetween stack ts) (hf : Fresh level stack)
    (h : Finishes ⟨d, stack, .operand⟩ ts) : (Rank.chain level).Leads d ts := by
  obtain ⟨first, rest, hts, hfirst, hends⟩ := member_of_finishes level hd hb hf.waits h
  obtain ⟨x, hrun, hx⟩ := first.taken.member hf.waits hfirst
  rw [Pending.joined_of_fresh hf] at hx
  have hlt : rest.length < ts.length := by
    obtain ⟨t, us, hfirst, -⟩ := first.tokens_eq_cons rfl
    rw [hts, hfirst, List.length_append, List.length_cons]
    omega
  obtain ⟨links, rest', hrest, hlinks, hends⟩ :=
    links_of_finishes level (d := d) (n := 0) hx hf hd hends (Finishes.append (hts ▸ h) hrun)
  refine ⟨.chain level first links, rest', ?_, ?_, hends⟩
  · simp [hts, hrest]
  · simp only [Phrase.levels]
    omega
termination_by (ts.length, 2 * level.looseness + 1)

theorem links_of_finishes (level : Level) {x : Pending} {d n : Nat} {stack : List Frame}
    {tree : Expr} {ts : List Token} (hx : x.climb level = ⟨d + n, stack, n, tree⟩)
    (hf : Fresh level stack) (hd : d + n ≤ maxDepth) (hends : (Rank.member level).Ends ts)
    (h : x.parser.Finishes ts) : (Rank.links level).Leads (d + n) ts := by
  cases ts with
  | nil => exact ⟨.done level, [], rfl, hd, Rank.ends_nil _⟩
  | cons t us =>
    cases hc : level.continues t with
    | false => exact ⟨.done level, t :: us, rfl, hd, Rank.ends_cons.2 hc⟩
    | true =>
      obtain ⟨s, hstep, hs⟩ := h.cons
      rcases Level.link_of_continues hc (Rank.ends_cons.1 hends) with ⟨op, rfl, rfl⟩ | ⟨rfl, rfl⟩
      · rw [step?_operator, hx, Option.ite_none_right_eq_some] at hstep
        obtain ⟨hdepth, hstep⟩ := hstep
        have hdepth : d + n < maxDepth := hdepth
        cases hstep
        obtain ⟨right, rest, hus, hright, hends⟩ := member_of_finishes op.level hdepth
          (notBetween_cons (.chain _ _ _ _) nofun) (waits_chain _ _ _ _ _) hs
        obtain ⟨y, hrun, hy⟩ := right.taken.member (waits_chain _ _ _ _ _) hright
        rw [Pending.joined_chain] at hy
        have hlt : rest.length < us.length + 1 := by
          rw [hus, List.length_append]
          omega
        obtain ⟨more, rest', hrest, hmore, hends⟩ :=
          links_of_finishes op.level (d := d) (n := n + 1) hy hf hdepth hends
            (Finishes.append (hus ▸ hs) hrun)
        refine ⟨.link op.level op rfl right more, rest', ?_, ?_, hends⟩
        · simp [hus, hrest]
        · simp only [Phrase.levels]
          omega
      · have hx : x = ⟨d + n, stack, n, tree⟩ := hx
        subst hx
        rw [step?_bang, Option.ite_none_right_eq_some] at hstep
        obtain ⟨hdepth, hstep⟩ := hstep
        have hdepth : d + n < maxDepth := hdepth
        cases hstep
        obtain ⟨more, rest, hus, hmore, hends⟩ :=
          links_of_finishes .power (d := d) (n := n + 1) rfl hf hdepth (Rank.ends_operand _) hs
        refine ⟨.bang more, rest, by simp [hus], ?_, hends⟩
        simp only [Phrase.levels]
        omega
termination_by (ts.length, 0)

theorem further_of_finishes {f : Function} {given : Nat} {x : Pending} {d n : Nat}
    {args : List Expr} {below : List Frame} {tree : Expr} {ts : List Token}
    (hx : x.climb .sum = ⟨d + n, .call f args :: below, n, tree⟩) (hgiven : args.length + 1 = given)
    (hd : d ≤ maxDepth) (hends : (Rank.chain .sum).Ends ts) (h : x.parser.Finishes ts) :
    ∃ (p : Phrase (.further f given)) (rest : List Token),
      ts = p.tokens ++ .rightParen :: rest ∧ d + p.levels ≤ maxDepth := by
  cases ts with
  | nil =>
    obtain ⟨s, tree, hrun, hfinish⟩ := h
    cases hrun
    rw [finish?_of_waiting, hx] at hfinish
    cases hfinish
  | cons t us =>
    obtain ⟨s, hstep, hs⟩ := h.cons
    rw [step?_closing x (Rank.ends_cons.1 hends), hx, toOption_close_call, hgiven] at hstep
    split at hstep
    · next hcomma =>
      cases hstep
      obtain ⟨rfl, -⟩ := hcomma
      rw [Nat.add_sub_cancel] at hs
      obtain ⟨argument, rest, hus, hargument, hends⟩ :=
        chain_of_finishes .sum hd (notBetween_cons (.call _ _) (by simp)) (fresh_call _ _ _ _) hs
      obtain ⟨y, hrun, m, hy⟩ := argument.taken d _ (fresh_call _ _ _ _) hargument
      have hlt : rest.length < us.length + 1 := by
        rw [hus, List.length_append]
        omega
      have hnext : (args ++ [tree]).length + 1 = given + 1 := by simp [hgiven]
      obtain ⟨more, rest', hrest, hmore⟩ :=
        further_of_finishes hy hnext hd hends (Finishes.append (hus ▸ hs) hrun)
      refine ⟨.next f given argument more, rest', ?_, ?_⟩
      · simp [hus, hrest]
      · simp only [Phrase.levels]
        omega
    · rw [Option.ite_none_right_eq_some] at hstep
      obtain ⟨⟨rfl, haccepts⟩, -⟩ := hstep
      exact ⟨.noMore f _ haccepts, us, rfl, hd⟩
termination_by (ts.length, 0)

end
end MatrixCalc
