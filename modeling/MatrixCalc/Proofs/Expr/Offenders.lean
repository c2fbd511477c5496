import MatrixCalc.Proofs.Expr.Completion
import MatrixCalc.Proofs.Expr.Faults
import MatrixCalc.Proofs.Token.Keywords

/-!
# Where an expression goes wrong

An error of the grammar is reported at the first token that no expression goes on with: what stands
in front of it is the beginning of an expression. The parser could go on from the state in front of
the token, and what it would go on with reads behind the text in front of the token as it does by
itself (`Meets.exists_before`).
-/
namespace MatrixCalc

open Text

/-- The token stands behind the given ones, where the end counts as a token. -/
def Stream.Splits (s : Stream) (pre : List Placed) (q : Placed) : Prop :=
  (∃ post, s.tokens = pre ++ q :: post) ∨ s.tokens = pre ∧ s.ending = .ok q

/-- Reading the text, one meets the tokens and then this one, which may be the end. The text begins
at `offset`, and `fold` holds for its first token. -/
inductive Meets (known : Text → Bool) : Nat → Bool → Text → List Token → Placed → Prop
  | first {offset : Nat} {fold : Bool} {t : Text} {token : Token}
      (h : (read known fold t).outcome = .ok token) :
      Meets known offset fold t [] ⟨token, (read known fold t).start offset, t.trimStart⟩
  | later {offset : Nat} {fold : Bool} {t : Text} {token : Token} {ts : List Token} {q : Placed}
      (h : (read known fold t).outcome = .ok token) (hne : token ≠ .stop)
      (hlater : Meets known ((read known fold t).next offset) (!token.keepsSign)
        (read known fold t).rest ts q) : Meets known offset fold t (token :: ts) q

theorem meets_of_splits (known : Text → Bool) (offset : Nat) (fold : Bool) (t : Text)
    (pre : List Placed) (q : Placed) :
    (Stream.ofTextFrom known offset fold t).Splits pre q →
      Meets known offset fold t (pre.map Placed.token) q := by
  induction offset, fold, t using Stream.ofTextFrom.induct known generalizing pre with
  | case1 offset fold t r fault hread =>
    have hread : (read known fold t).outcome = .error fault := hread
    rw [ofTextFrom_of_fault hread]
    rintro (⟨post, h⟩ | ⟨-, h⟩)
    · exact absurd h.symm (by simp)
    · cases h
  | case2 offset fold t r hread =>
    have hread : (read known fold t).outcome = .ok .stop := hread
    rw [ofTextFrom_of_stop hread]
    rintro (⟨post, h⟩ | ⟨hpre, h⟩)
    · exact absurd h.symm (by simp)
    · cases hpre
      cases h
      have hfirst : Meets known offset fold t [] _ := .first hread
      rwa [(read_stop_iff known fold).1 hread] at hfirst
  | case3 offset fold t r token hread hmore ih =>
    have hread : (read known fold t).outcome = .ok token := hread
    rw [ofTextFrom_of_token hread hmore]
    cases pre with
    | nil =>
      rintro (⟨post, h⟩ | ⟨h, -⟩)
      · cases h
        exact .first hread
      · cases h
    | cons p pre =>
      intro h
      have hcons : p = ⟨token, (read known fold t).start offset, t.trimStart⟩ ∧
          (Stream.ofTextFrom known ((read known fold t).next offset) (!token.keepsSign)
            (read known fold t).rest).Splits pre q := by
        rcases h with ⟨post, h⟩ | ⟨h, hending⟩
        · obtain ⟨hp, hrest⟩ := List.cons.inj h
          exact ⟨hp.symm, .inl ⟨post, hrest⟩⟩
        · obtain ⟨hp, hrest⟩ := List.cons.inj h
          exact ⟨hp.symm, .inr ⟨hrest, hending⟩⟩
      rw [hcons.1]
      exact .later hread hmore (ih _ hcons.2)

theorem readNumeral_not_ofGrammar {blanks lexeme rest : Text} {f : Fault}
    (h : (readNumeral blanks lexeme rest).outcome = .error f) : ¬ f.OfGrammar := by
  unfold readNumeral at h
  split at h
  · cases h
  · cases h
    nofun

theorem readName_not_ofGrammar {known : Text → Bool} {blanks name rest : Text} {f : Fault}
    (h : (readName known blanks name rest).outcome = .error f) : ¬ f.OfGrammar := by
  unfold readName at h
  split at h
  · cases h
  · split at h
    · cases h
    · dsimp only [Reading.plain] at h
      split at h
      · cases h
      · cases h
        nofun

theorem readSymbol_not_ofGrammar {blanks rest : Text} {c : Char} {f : Fault}
    (h : (readSymbol blanks c rest).outcome = .error f) : ¬ f.OfGrammar := by
  unfold readSymbol at h
  split at h
  · cases h
  · cases h
    nofun

/-- What cannot be read is no fault of the grammar. -/
theorem read_not_ofGrammar {known : Text → Bool} {fold : Bool} {t : Text} {f : Fault}
    (h : (read known fold t).outcome = .error f) : ¬ f.OfGrammar := by
  unfold read at h
  split at h
  · cases h
  · split at h
    · exact readNumeral_not_ofGrammar h
    · split at h
      · exact readName_not_ofGrammar h
      · split at h
        · exact readNumeral_not_ofGrammar h
        · exact readSymbol_not_ofGrammar h

theorem ending_not_ofGrammar (known : Text → Bool) (offset : Nat) (fold : Bool) (t : Text)
    (e : ParseError) :
    (Stream.ofTextFrom known offset fold t).ending = .error e → ¬ e.fault.OfGrammar := by
  induction offset, fold, t using Stream.ofTextFrom.induct known with
  | case1 offset fold t r fault hread =>
    have hread : (read known fold t).outcome = .error fault := hread
    rw [ofTextFrom_of_fault hread]
    intro h
    cases h
    exact read_not_ofGrammar hread
  | case2 offset fold t r hread =>
    have hread : (read known fold t).outcome = .ok .stop := hread
    rw [ofTextFrom_of_stop hread]
    intro h
    cases h
  | case3 offset fold t r token hread hmore ih =>
    have hread : (read known fold t).outcome = .ok token := hread
    rw [ofTextFrom_of_token hread hmore]
    exact ih

/-- An error of the grammar is that of the parser about a token, in front of which the parser has
taken all tokens. -/
theorem exists_refused {known : Text → Bool} {t : Text} {e : ParseError}
    (h : Expr.parse known t = .error e) (hg : e.fault.OfGrammar) :
    ∃ pre q s, (Stream.ofText known t).Splits pre q ∧
      Parser.start.run? (pre.map Placed.token) = some s ∧ q.RefusedBy e := by
  rw [Expr.parse, Stream.parse] at h
  cases hfold : (Stream.ofText known t).tokens.foldlM Parser.feed .start with
  | error e' =>
    rw [hfold] at h
    cases h
    obtain ⟨pre, q, post, s, htokens, hpre, hq⟩ := exists_of_foldlM_eq_error hfold
    refine ⟨pre, q, s, .inl ⟨post, htokens⟩, ?_, (s.feed_refusing q).of_error hq⟩
    rw [← Parser.toOption_foldlM_feed, hpre]
    rfl
  | ok s =>
    rw [hfold] at h
    cases hending : (Stream.ofText known t).ending with
    | error e' =>
      rw [hending] at h
      cases h
      exact absurd hg (ending_not_ofGrammar known 0 true t _ hending)
    | ok q =>
      rw [hending] at h
      refine ⟨_, q, s, .inr ⟨rfl, hending⟩, ?_, (s.finish_refusing q).of_error h⟩
      rw [← Parser.toOption_foldlM_feed, hfold]
      rfl

theorem Interrupted.breaks {u : Text} (hu : Interrupted u) (s v : Text) :
    Breaks (s ++ v) (s ++ u) := by
  cases s with
  | nil => exact ⟨fun _ => hu.startsNumeral, fun _ => hu.continuesName⟩
  | cons c s => exact ⟨id, id⟩

/-- The token is what is read in a text, with no blanks in front of it. -/
def Placed.Stands (known : Text → Bool) (q : Placed) : Prop :=
  ∃ fold, (read known fold q.text).blanks = [] ∧ (read known fold q.text).outcome = .ok q.token

/-- The end stands where nothing is left. -/
theorem Placed.Stands.text_eq_nil {known : Text → Bool} {q : Placed} (h : q.Stands known)
    (hstop : q.token = .stop) : q.text = [] := by
  obtain ⟨fold, hblanks, hread⟩ := h
  rw [hstop, read_stop_iff known fold] at hread
  rw [read_blanks] at hblanks
  rw [← q.text.blanks_append_trimStart, hblanks, hread, List.append_nil]

theorem stands_trimStart {known : Text → Bool} {fold : Bool} {t : Text} {token : Token}
    (h : (read known fold t).outcome = .ok token) (offset : Nat) :
    Placed.Stands known ⟨token, offset, t.trimStart⟩ := by
  refine ⟨fold, ?_, ?_⟩
  · rw [read_trimStart]
  · rw [read_trimStart]
    exact h

/-- The token that is met stands behind a text that goes on with spaced tokens as it goes on with
the token. -/
theorem Meets.exists_before {known : Text → Bool} {offset : Nat} {fold : Bool} {t : Text}
    {ts : List Token} {q : Placed} (h : Meets known offset fold t ts q) (hk : t.OnlyKeywords) :
    ∃ before, t = before ++ q.text ∧ q.offset = offset + before.size ∧ q.Stands known ∧
      ∀ us u, Spaced us u → Spelled known (before ++ u) (flagged fold (ts ++ us)) := by
  induction h with
  | @first offset fold t token h =>
    refine ⟨t.blanks, t.blanks_append_trimStart.symm, ?_, stands_trimStart h _, ?_⟩
    · rw [Reading.start, read_blanks]
    · intro us u hu
      exact (hu.spelled known fold).blanks_append (isBlank_blanks t)
  | @later offset fold t token ts q h hne hlater ih =>
    obtain ⟨lexeme, rest, ht, hk', hreads⟩ := read_lexeme hk h hne
    have hread := hreads rest ⟨id, id⟩
    rw [← ht] at hread
    rw [hread] at ih
    obtain ⟨before, hrest, hoffset, hstands, hspelled⟩ := ih hk'
    have hrest : rest = before ++ q.text := hrest
    refine ⟨t.blanks ++ (lexeme ++ before), ?_, ?_, hstands, ?_⟩
    · rw [List.append_assoc, List.append_assoc, ← hrest, ← ht]
    · rw [hoffset]
      simp only [Reading.plain, Reading.next, Reading.stop, Reading.start, size_append, size_nil]
      omega
    · intro us u hu
      have hbreaks : Breaks rest (before ++ u) := hrest ▸ hu.interrupted.breaks before q.text
      rw [List.append_assoc, List.append_assoc]
      exact (spelled_cons_iff (hreads _ hbreaks)).2 ⟨rfl, hne, hspelled us u hu⟩

/-- An error of the grammar is reported where a token of the text stands, or at the end of the text
when that is the token. What stands in front of the token is the beginning of an expression. -/
theorem error_at_first_offender (known : Text → Bool) {t : Text} {e : ParseError}
    (hk : t.OnlyKeywords) (h : Expr.parse known t = .error e) (hg : e.fault.OfGrammar) :
    ∃ pre q before, (Stream.ofText known t).Splits pre q ∧ q.RefusedBy e ∧ q.Stands known ∧
      t = before ++ q.text ∧ e.offset = before.size ∧ (q.token = .stop → before = t) ∧
      ∃ u tree, Expr.parse known (before ++ u) = .ok tree := by
  obtain ⟨pre, q, s, hsplits, hrun, hrefused⟩ := exists_refused h hg
  obtain ⟨before, ht, hoffset, hstands, hspelled⟩ :=
    (meets_of_splits known 0 true t pre q hsplits).exists_before hk
  obtain ⟨ts, hwritable, s', tree, hrun', hfinish⟩ := (Parser.viable_start.run hrun).completable
  obtain ⟨u, hu⟩ := exists_spaced hwritable
  refine ⟨pre, q, before, hsplits, hrefused, hstands, ht, ?_, ?_, u, tree, ?_⟩
  · rw [hrefused.offset_eq, hoffset, Nat.zero_add]
  · intro hstop
    rw [ht, hstands.text_eq_nil hstop, List.append_nil]
  · refine parse_of_spelled _ (hspelled ts u hu) ?_
    rw [Parser.run?_append, hrun, Option.bind_some, hrun', Option.bind_some, hfinish]

/-- The end is an offender behind an open parenthesis, which some text closes. -/
theorem error_at_first_offender_of_open_parenthesis :
    Expr.parse (fun _ => false) ['('] = .error ⟨1, .unexpected .stop⟩ ∧
      ∃ u tree, Expr.parse (fun _ => false) ('(' :: u) = .ok tree := by
  have hend : Stream.ofTextFrom (fun _ => false) 1 true [] = ⟨[], .ok ⟨.stop, 1, []⟩⟩ :=
    ofTextFrom_of_stop rfl
  have hstream : Stream.ofText (fun _ => false) ['('] =
      ⟨[⟨.leftParen, 0, ['(']⟩], .ok ⟨.stop, 1, []⟩⟩ := by
    have hread : (read (fun _ => false) true ['(']).outcome = .ok .leftParen := rfl
    exact (ofTextFrom_of_token hread nofun).trans (congrArg (Stream.cons _) hend)
  have hparse : Expr.parse (fun _ => false) ['('] = .error ⟨1, .unexpected .stop⟩ := by
    rw [Expr.parse, hstream]
    rfl
  have hk : Text.OnlyKeywords ['('] := Text.onlyKeywords_of_any rfl
  obtain ⟨-, ⟨token, offset, text⟩, before, -, hrefused, -, -, -, hstop, hu⟩ :=
    error_at_first_offender (fun _ => false) hk hparse (.unexpected _)
  cases hrefused
  rw [hstop rfl] at hu
  exact ⟨hparse, hu⟩

end MatrixCalc
