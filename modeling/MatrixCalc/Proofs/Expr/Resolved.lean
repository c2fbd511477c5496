import MatrixCalc.Proofs.Expr.Faults
import MatrixCalc.Proofs.Expr.Spelling
import MatrixCalc.Proofs.Token.Ground
import MatrixCalc.Proofs.Variables.Expansion
import MatrixCalc.Proofs.Variables.Fusion

/-!
# Parsing a resolved line

The pass leaves only tokens in place that are no references, so the resolved text is ground. The
tokens of a ground text, and with them its tree or its error, are the same for every table.
-/
namespace MatrixCalc

open Text

namespace Pass

theorem ground_of_mem_kept {vars : Variables} {p : Pass} {l : Lexeme} (hl : l ∈ p.kept vars) :
    l.Ground := by
  obtain ⟨token, ho, htarget, href⟩ := outcome_of_mem_kept hl
  exact .inr ⟨token, ho, Token.isGround_iff.2 ⟨htarget, href⟩⟩

theorem ground_of_run {vars : Variables} {line t : Text}
    (h : (start line).run vars = .ok (.expression t)) : t.Ground := by
  have hlexemes : ∀ l ∈ lexemes vars.contains 0 t, l.Ground := by
    rw [lexemes_of_run h]
    exact ground_fuse fun l hl => ground_of_mem_kept hl
  exact ground_of_lexemes hlexemes

end Pass

theorem Variables.ground_of_resolve {vars : Variables} {line t : Text}
    (h : vars.resolve line = .ok (.expression t)) : t.Ground := by
  have hs := vars.resolve_spec line
  rw [h] at hs
  cases hs with
  | expression hr => exact Pass.ground_of_run hr

namespace Text.Ground

variable {t : Text}

theorem stream_eq (h : t.Ground) (known known' : Text → Bool) (offset : Nat) (fold : Bool) :
    Stream.ofTextFrom known' offset fold t = Stream.ofTextFrom known offset fold t := by
  induction offset, fold, t using Stream.ofTextFrom.induct known with
  | case1 offset fold t r fault hread =>
    obtain ⟨hsame, -, -⟩ := h.read_spec fold known
    have hread : (read known fold t).outcome = .error fault := hread
    rw [ofTextFrom_of_fault hread, ofTextFrom_of_fault (hsame known' ▸ hread), hsame known']
  | case2 offset fold t r hread =>
    obtain ⟨hsame, -, -⟩ := h.read_spec fold known
    have hread : (read known fold t).outcome = .ok .stop := hread
    rw [ofTextFrom_of_stop hread, ofTextFrom_of_stop (hsame known' ▸ hread), hsame known']
  | case3 offset fold t r token hread hmore ih =>
    obtain ⟨hsame, -, hrest⟩ := h.read_spec fold known
    have hread : (read known fold t).outcome = .ok token := hread
    rw [ofTextFrom_of_token hread hmore, ofTextFrom_of_token (hsame known' ▸ hread) hmore,
      hsame known', ih hrest]

theorem parse_eq (h : t.Ground) (known known' : Text → Bool) :
    Expr.parse known' t = Expr.parse known t := by
  rw [Expr.parse, Expr.parse, Stream.ofText, Stream.ofText, h.stream_eq known known']

/-- The stream holds no references and no targets, and only a malformed numeral cuts it off. -/
theorem stream_ground (h : t.Ground) (known : Text → Bool) (offset : Nat) (fold : Bool) :
    (∀ p ∈ (Stream.ofTextFrom known offset fold t).tokens, p.token.isGround = true) ∧
      ∀ e, (Stream.ofTextFrom known offset fold t).ending = .error e →
        ∃ literal, e.fault = .badNumeral literal := by
  induction offset, fold, t using Stream.ofTextFrom.induct known with
  | case1 offset fold t r fault hread =>
    obtain ⟨-, hfound, -⟩ := h.read_spec fold known
    have hread : (read known fold t).outcome = .error fault := hread
    rw [hread] at hfound
    rw [ofTextFrom_of_fault hread]
    refine ⟨List.forall_mem_nil _, ?_⟩
    intro e he
    cases he
    cases hfound with
    | badNumeral literal => exact ⟨literal, rfl⟩
  | case2 offset fold t r hread =>
    rw [ofTextFrom_of_stop hread]
    refine ⟨List.forall_mem_nil _, ?_⟩
    intro e he
    cases he
  | case3 offset fold t r token hread hmore ih =>
    obtain ⟨-, hfound, hrest⟩ := h.read_spec fold known
    have hread : (read known fold t).outcome = .ok token := hread
    obtain ⟨htokens, hending⟩ := ih hrest
    rw [hread] at hfound
    rw [ofTextFrom_of_token hread hmore]
    refine ⟨List.forall_mem_cons.2 ⟨?_, htokens⟩, hending⟩
    cases hfound with
    | token htoken => exact htoken

end Text.Ground

/-- The faults that can be left in a resolved line. -/
inductive Fault.OfResolved : Fault → Prop
  | badNumeral (literal : Text) : OfResolved (.badNumeral literal)
  | grammar {f : Fault} (h : f.OfGrammar) : OfResolved f

/-- Once a line is resolved, the variables do not matter: for every table the parser finds the
same tree or error, meets no variable and no assignment, and an error is a malformed numeral or a
fault of the grammar. -/
theorem resolved_line_ground {vars : Variables} {line t : Text}
    (h : vars.resolve line = .ok (.expression t)) (other : Variables) :
    (∀ p ∈ (Stream.ofText other.contains t).tokens,
      (∀ n, p.token ≠ .target n) ∧ ∀ n, p.token ≠ .reference n) ∧
    Expr.parse other.contains t = Expr.parse vars.contains t ∧
    ∀ e, Expr.parse other.contains t = .error e → e.fault.OfResolved := by
  have hground := Variables.ground_of_resolve h
  obtain ⟨htokens, hending⟩ := hground.stream_ground other.contains 0 true
  refine ⟨?_, hground.parse_eq _ _, ?_⟩
  · intro p hp
    exact Token.isGround_iff.1 (htokens p hp)
  · intro e he
    have hensures := (Stream.ofText other.contains t).parse_ensures
    rw [Expr.parse] at he
    rw [he] at hensures
    rcases hensures with hcut | hgrammar
    · obtain ⟨literal, hliteral⟩ := hending e hcut
      rw [hliteral]
      exact .badNumeral literal
    · exact .grammar hgrammar

/-- The names that the line reads are gone from the resolved line, which reads the same with no
variable defined. -/
theorem resolved_line_ground_of_relayed :
    Variables.relayed.resolve "x + x) 2y".toList = .ok (.expression "1 + 1) 21".toList) ∧
      Expr.parse (Variables.mk []).contains "1 + 1) 21".toList =
        Expr.parse Variables.relayed.contains "1 + 1) 21".toList := by
  have hr : Variables.relayed.resolve "x + x) 2y".toList =
      .ok (.expression "1 + 1) 21".toList) :=
    Variables.resolve_of_run ((Pass.loop Variables.relayed).run_of_turns (n := 12) rfl)
  obtain ⟨-, hparse, -⟩ := resolved_line_ground hr ⟨[]⟩
  exact ⟨hr, hparse⟩

end MatrixCalc
