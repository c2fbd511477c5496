import MatrixCalc.Proofs.Expr.Derivations
import MatrixCalc.Proofs.Token.Lexemes

/-!
# Texts that spell expressions

A text spells tokens when it can be read token by token, a sign in front of a numeral as part of
the numeral where the spelling says that an operand is expected. The parser knows where from the
token in front, and this agrees with the grammar: so the parser of a text accepts exactly what
the grammar derives.
-/
namespace MatrixCalc

/-- Reading the text gives these tokens, and behind them are only blanks. -/
def Spelled (known : Text → Bool) : Text → List (Bool × Token) → Prop
  | t, [] => t.trimStart = []
  | t, (fold, token) :: spelling =>
    (read known fold t).outcome = .ok token ∧ token ≠ .stop ∧
      Spelled known (read known fold t).rest spelling

/-- Tokens, each with whether the token in front of it lets an operand follow. -/
def flagged : Bool → List Token → List (Bool × Token)
  | _, [] => []
  | fold, token :: ts => (fold, token) :: flagged (!token.keepsSign) ts

theorem flagged_cons (fold : Bool) (token : Token) (ts : List Token) :
    flagged fold (token :: ts) = (fold, token) :: flagged (!token.keepsSign) ts := rfl

section Readings

variable {known : Text → Bool} {fold : Bool} {s : Text} {r : Reading}
  (hr : read known fold s = r)

include hr

theorem spelled_cons_iff {token : Token} {ts : List Token} :
    Spelled known s (flagged fold (token :: ts)) ↔
      r.outcome = .ok token ∧ token ≠ .stop ∧
        Spelled known r.rest (flagged (!token.keepsSign) ts) := by
  subst hr
  rfl

theorem not_spelled_nil (hstop : r.outcome ≠ .ok .stop) :
    ¬ Spelled known s (flagged fold []) := by
  intro hs
  rw [← hr] at hstop
  exact hstop ((read_stop_iff known fold).2 hs)

end Readings

theorem not_spelled_cons {known : Text → Bool} {fold : Bool} {s : Text} (h : s.trimStart = [])
    {token : Token} {ts : List Token} : ¬ Spelled known s (flagged fold (token :: ts)) := by
  rintro ⟨ho, hne, -⟩
  rw [(read_stop_iff known fold).2 h] at ho
  exact hne (Except.ok.inj ho).symm

/-- Further blanks do not matter. -/
theorem Spelled.blanks_append {known : Text → Bool} {blanks t : Text}
    (hb : ∀ c ∈ blanks, Text.isBlank c = true) {spelling : List (Bool × Token)}
    (h : Spelled known t spelling) : Spelled known (blanks ++ t) spelling := by
  cases spelling with
  | nil => exact (List.dropWhile_append_of_pos hb).trans h
  | cons s spelling =>
    rw [Spelled, read_blanks_append hb]
    exact h

/-- The grammar expects operands where the token in front says so. -/
theorem Phrase.spelling_append {r : Rank} (p : Phrase r) (ts : List Token) :
    p.spelling ++ flagged false ts = flagged r.opensOperand (p.tokens ++ ts) := by
  induction p generalizing ts with
  | number x => rfl
  | group inner ih =>
    have h := ih (.rightParen :: ts)
    simp_all [spelling, flagged_cons, Token.keepsSign, Rank.opensOperand]
  | signed negative operand ih =>
    have h := ih ts
    simp_all [spelling, flagged_cons, Token.keepsSign, Rank.opensOperand]
  | emptyCall f hf => rfl
  | call f first more ihfirst ihmore =>
    have h := ihfirst (more.tokens ++ .rightParen :: ts)
    have hmore := ihmore (.rightParen :: ts)
    simp_all [spelling, flagged_cons, Token.keepsSign, Rank.opensOperand]
  | power p ih => exact ih ts
  | product p ih => exact ih ts
  | chain level first links ihfirst ihlinks =>
    have h := ihfirst (links.tokens ++ ts)
    have hlinks := ihlinks ts
    simp_all [spelling, Rank.opensOperand]
  | done level => rfl
  | link level op hop right more ihright ihmore =>
    have h := ihright (more.tokens ++ ts)
    have hmore := ihmore ts
    simp_all [spelling, flagged_cons, Token.keepsSign, Rank.opensOperand]
  | bang more ih =>
    have h := ih ts
    simp_all [spelling, flagged_cons, Token.keepsSign, Rank.opensOperand]
  | noMore f given hf => rfl
  | next f given argument more ihargument ihmore =>
    have h := ihargument (more.tokens ++ ts)
    have hmore := ihmore ts
    simp_all [spelling, flagged_cons, Token.keepsSign, Rank.opensOperand]

theorem Phrase.spelling_eq {r : Rank} (p : Phrase r) :
    p.spelling = flagged r.opensOperand p.tokens := by
  simpa [flagged] using p.spelling_append []

section Streams

variable {known : Text → Bool} {offset : Nat} {fold : Bool} {t : Text}

theorem ofTextFrom_of_fault {fault : Fault} (h : (read known fold t).outcome = .error fault) :
    Stream.ofTextFrom known offset fold t =
      ⟨[], .error ⟨(read known fold t).start offset, fault⟩⟩ := by
  rw [Stream.ofTextFrom]
  split
  · next h' =>
    cases h.symm.trans h'
    rfl
  · next h' => cases h.symm.trans h'

theorem ofTextFrom_of_stop (h : (read known fold t).outcome = .ok .stop) :
    Stream.ofTextFrom known offset fold t =
      ⟨[], .ok ⟨.stop, (read known fold t).start offset, []⟩⟩ := by
  rw [Stream.ofTextFrom]
  split
  · next h' => cases h.symm.trans h'
  · next h' =>
    cases h.symm.trans h'
    rfl

theorem ofTextFrom_of_token {token : Token} (h : (read known fold t).outcome = .ok token)
    (hstop : token ≠ .stop) :
    Stream.ofTextFrom known offset fold t =
      .cons ⟨token, (read known fold t).start offset, t.trimStart⟩
        (Stream.ofTextFrom known ((read known fold t).next offset) (!token.keepsSign)
          (read known fold t).rest) := by
  rw [Stream.ofTextFrom]
  split
  · next h' => cases h.symm.trans h'
  · next h' =>
    cases h.symm.trans h'
    rw [dif_neg hstop]

end Streams

/-- The stream of a text holds the tokens that the text spells. -/
theorem spelled_flagged_iff (known : Text → Bool) (offset : Nat) (fold : Bool) (t : Text)
    (ts : List Token) :
    Spelled known t (flagged fold ts) ↔
      (Stream.ofTextFrom known offset fold t).tokens.map Placed.token = ts ∧
        ∃ p, (Stream.ofTextFrom known offset fold t).ending = .ok p := by
  induction offset, fold, t using Stream.ofTextFrom.induct known generalizing ts with
  | case1 offset fold t r fault hread =>
    have hread : (read known fold t).outcome = .error fault := hread
    rw [ofTextFrom_of_fault hread]
    cases ts with
    | nil => simp [flagged, Spelled, ← read_stop_iff known fold, hread]
    | cons token ts => simp [flagged, Spelled, hread]
  | case2 offset fold t r hread =>
    have hread : (read known fold t).outcome = .ok .stop := hread
    rw [ofTextFrom_of_stop hread]
    cases ts with
    | nil => simp [flagged, Spelled, (read_stop_iff known fold).1 hread]
    | cons token ts =>
      simp only [flagged, Spelled, hread, List.map_nil, reduceCtorEq, false_and, iff_false]
      rintro ⟨h, hstop, -⟩
      exact hstop (Except.ok.inj h).symm
  | case3 offset fold t r token hread hmore ih =>
    have hread : (read known fold t).outcome = .ok token := hread
    rw [ofTextFrom_of_token hread hmore]
    cases ts with
    | nil =>
      have hne : t.trimStart ≠ [] := by
        intro h
        rw [← read_stop_iff known fold, hread] at h
        exact hmore (Except.ok.inj h)
      simp [flagged, Spelled, Stream.cons, hne]
    | cons token' ts =>
      have h := ih ts
      simp only [flagged, Spelled, hread, Stream.cons, List.map_cons, List.cons.injEq,
        Except.ok.injEq]
      constructor
      · rintro ⟨rfl, -, hspelled⟩
        exact ⟨⟨rfl, (h.1 hspelled).1⟩, (h.1 hspelled).2⟩
      · rintro ⟨⟨rfl, hts⟩, hending⟩
        exact ⟨rfl, hmore, h.2 ⟨hts, hending⟩⟩

/-- The parser finishes exactly on the tokens of derivations that fit into the levels. -/
theorem run?_start_iff (ts : List Token) (tree : Expr) :
    (Parser.start.run? ts).bind Parser.finish? = some tree ↔
      ∃ p : Phrase (.chain .sum), p.tokens = ts ∧ p.levels ≤ maxDepth ∧ p.tree = tree := by
  have hfinish : ∀ p : Phrase (.chain .sum), p.levels ≤ maxDepth →
      (Parser.start.run? p.tokens).bind Parser.finish? = some p.tree := by
    intro p hp
    obtain ⟨x, hrun, n, hx⟩ := p.taken 0 [] (fresh_nil _) (by omega)
    rw [Parser.start, hrun, Option.bind_some, Parser.finish?_of_waiting, hx]
    rfl
  constructor
  · intro h
    obtain ⟨s, hrun, htree⟩ := Option.bind_eq_some_iff.1 h
    have hs : Parser.start.Finishes ts := ⟨s, tree, hrun, htree⟩
    obtain ⟨p, rest, rfl, hp, hends⟩ :=
      chain_of_finishes .sum (Nat.zero_le _) (fun _ _ h => absurd h (by simp)) (fresh_nil _) hs
    obtain ⟨x, hx, n, hclimb⟩ := p.taken 0 [] (fresh_nil _) hp
    have hrest := (Parser.Finishes.append hs hx).outside hclimb hends
    subst hrest
    rw [List.append_nil, hfinish p (by omega)] at h
    exact ⟨p, by simp, by omega, Option.some.inj h⟩
  · rintro ⟨p, rfl, hp, rfl⟩
    exact hfinish p hp

/-- A text is parsed when it can be read to its end and the parser finishes on its tokens. -/
theorem parse_eq_ok_iff_run (known : Text → Bool) (t : Text) (tree : Expr) :
    Expr.parse known t = .ok tree ↔
      (∃ e, (Stream.ofText known t).ending = .ok e) ∧
        (Parser.start.run? ((Stream.ofText known t).tokens.map Placed.token)).bind
          Parser.finish? = some tree := by
  rw [← toOption_eq_some, Expr.parse, Stream.parse, toOption_bind, Parser.toOption_foldlM_feed]
  simp only [toOption_bind, Parser.toOption_finish]
  cases (Stream.ofText known t).ending with
  | ok e => simp [Except.toOption]
  | error e => simp [Except.toOption]

theorem parse_of_spelled {known : Text → Bool} {t : Text} {tree : Expr} (ts : List Token)
    (h : Spelled known t (flagged true ts))
    (hrun : (Parser.start.run? ts).bind Parser.finish? = some tree) :
    Expr.parse known t = .ok tree := by
  obtain ⟨htokens, hending⟩ := (spelled_flagged_iff known 0 true t ts).1 h
  refine (parse_eq_ok_iff_run known t tree).2 ⟨hending, ?_⟩
  rwa [Stream.ofText, htokens]

theorem Phrase.spelled_iff (known : Text → Bool) (t : Text) (p : Phrase (.chain .sum)) :
    Spelled known t p.spelling ↔
      (Stream.ofText known t).tokens.map Placed.token = p.tokens ∧
        ∃ e, (Stream.ofText known t).ending = .ok e := by
  rw [p.spelling_eq]
  exact spelled_flagged_iff known 0 true t p.tokens

/-- A text is parsed when it spells a phrase that fits into the levels. -/
theorem parse_eq_ok_iff_spelled (known : Text → Bool) (t : Text) (tree : Expr) :
    Expr.parse known t = .ok tree ↔
      ∃ p : Phrase (.chain .sum),
        Spelled known t p.spelling ∧ p.levels ≤ maxDepth ∧ p.tree = tree := by
  rw [parse_eq_ok_iff_run, run?_start_iff]
  constructor
  · rintro ⟨hending, p, htokens, hp⟩
    exact ⟨p, (p.spelled_iff known t).2 ⟨htokens.symm, hending⟩, hp⟩
  · rintro ⟨p, hp, hrest⟩
    obtain ⟨htokens, hending⟩ := (p.spelled_iff known t).1 hp
    exact ⟨hending, p, htokens.symm, hrest⟩

end MatrixCalc
