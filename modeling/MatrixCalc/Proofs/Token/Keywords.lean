import Mathlib.Data.List.TakeWhile
import MatrixCalc.Proofs.Token.Signs

/-!
# Texts without variables

A text whose names are all keywords holds no references and no assignments, so what a lexeme reads
as is settled by the lexeme alone. It reads so behind any blanks and in front of any text that does
not go on with it (`IsLexeme.reads`).
-/
namespace MatrixCalc

open Text

/-- No name in the text is that of a variable. -/
def Text.OnlyKeywords (t : Text) : Prop := ∀ n ∈ t.names, Function.isKeyword n = true

/-- What stands between blanks, with signs apart: a numeral or a name that does not go on into the
rest, or another character. -/
inductive IsLexeme : Text → Text → Prop
  | numeral {run rest : Text} (hne : run ≠ []) (hrun : ∀ c ∈ run, Decimal.isNumeralChar c = true)
      (hr : startsNumeral rest = false) : IsLexeme run rest
  | name {n rest : Text} (hn : IsName n) (hr : continuesName rest = false) : IsLexeme n rest
  | char {c : Char} {rest : Text} (hblank : isBlank c = false)
      (hnumeral : Decimal.isNumeralChar c = false) (hname : isNameStart c = false) :
      IsLexeme [c] rest

/-- A lexeme that ends in front of the first text ends in front of the second. -/
structure Breaks (rest rest' : Text) : Prop where
  numeral : startsNumeral rest = false → startsNumeral rest' = false
  name : continuesName rest = false → continuesName rest' = false

namespace Text

variable {s t n : Text}

theorem names_chars_append (hs : ∀ c ∈ s, isNameStart c = false) (t : Text) :
    (s ++ t).names = t.names := by
  have hnone : (s.map Piece.char).filterMap Piece.name? = [] := by
    rw [List.filterMap_eq_nil_iff, List.forall_mem_map]
    exact fun _ _ => rfl
  rw [names, pieces_chars_append hs, List.filterMap_append, hnone, List.nil_append, names]

theorem names_name_append (hn : IsName n) (ht : continuesName t = false) :
    (n ++ t).names = n :: t.names := by
  rw [names, pieces_name hn ht]
  rfl

theorem onlyKeywords_of_any (hs : s.any isNameStart = false) : s.OnlyKeywords := by
  have hchars : ∀ c ∈ s, isNameStart c = false := fun c hc =>
    Bool.eq_false_iff.2 (List.any_eq_false.1 hs c hc)
  have hnames := names_chars_append hchars []
  rw [List.append_nil, names, names, pieces_nil] at hnames
  rw [OnlyKeywords, names, hnames]
  exact List.forall_mem_nil _

theorem OnlyKeywords.of_blanks (hs : ∀ c ∈ s, isBlank c = true) (h : (s ++ t).OnlyKeywords) :
    t.OnlyKeywords := by
  have hnames := names_chars_append (fun c hc => isNameStart_of_isBlank (hs c hc)) t
  rwa [OnlyKeywords, hnames] at h

end Text

theorem isNumeralChar_not_blank {c : Char} (h : Decimal.isNumeralChar c = true) :
    isBlank c = false := by
  refine Bool.eq_false_iff.2 fun hblank => ?_
  rw [isNumeralChar_of_isBlank hblank] at h
  cases h

theorem isNameChar_not_blank {c : Char} (h : isNameChar c = true) : isBlank c = false := by
  refine Bool.eq_false_iff.2 fun hblank => ?_
  rw [isNameChar_of_isBlank hblank] at h
  cases h

theorem startsNumeral_eq_any (t : Text) :
    startsNumeral t = t.head?.any Decimal.isNumeralChar := by
  cases t <;> rfl

theorem continuesName_eq_any (t : Text) : continuesName t = t.head?.any isNameChar := by
  cases t <;> rfl

/-- A text is blanks, or its first lexeme stands behind its blanks. -/
theorem exists_isLexeme (t : Text) :
    (∀ c ∈ t, isBlank c = true) ∨
      ∃ lexeme rest, t = t.blanks ++ (lexeme ++ rest) ∧ IsLexeme lexeme rest := by
  have hb := t.blanks_append_trimStart
  cases h : t.trimStart with
  | nil =>
    rw [h, List.append_nil] at hb
    exact .inl (hb ▸ isBlank_blanks t)
  | cons c tail =>
    rw [h] at hb
    refine .inr ?_
    cases hnumeral : Decimal.isNumeralChar c with
    | true =>
      have hstarts : startsNumeral (c :: tail) = true := hnumeral
      obtain ⟨run, rest, hrest, hne, hrun, hr⟩ := exists_numeral hstarts
      exact ⟨run, rest, by rw [← hrest, hb], .numeral hne hrun hr⟩
    | false =>
      cases hname : isNameStart c with
      | true =>
        refine ⟨_, _, ?_, .name (isName_takeWhile hname tail) (continuesName_dropWhile tail)⟩
        rw [List.cons_append, List.takeWhile_append_dropWhile, hb]
      | false =>
        exact ⟨[c], tail, hb.symm, .char (isBlank_of_trimStart_eq_cons h) hnumeral hname⟩

namespace IsLexeme

variable {lexeme rest : Text} (h : IsLexeme lexeme rest)

include h

theorem exists_cons : ∃ c tail, lexeme = c :: tail ∧ isBlank c = false := by
  cases h with
  | numeral hne hrun =>
    obtain ⟨c, tail, rfl⟩ := List.exists_cons_of_ne_nil hne
    exact ⟨c, tail, rfl, isNumeralChar_not_blank (hrun c (List.mem_cons_self ..))⟩
  | name hn =>
    obtain ⟨c, tail, rfl⟩ := List.exists_cons_of_ne_nil hn.ne_nil
    exact ⟨c, tail, rfl, isNameChar_not_blank (isNameChar_of_isNameStart hn.1)⟩
  | char hblank => exact ⟨_, [], rfl, hblank⟩

theorem ne_nil : lexeme ≠ [] := by
  obtain ⟨c, tail, rfl, -⟩ := h.exists_cons
  exact List.cons_ne_nil _ _

theorem onlyKeywords (hk : (lexeme ++ rest).OnlyKeywords) : rest.OnlyKeywords := by
  cases h with
  | numeral _ hrun =>
    rwa [OnlyKeywords, names_chars_append fun c hc => isNameStart_of_isNumeralChar (hrun c hc)]
      at hk
  | name hn hr =>
    rw [OnlyKeywords, names_name_append hn hr] at hk
    exact (List.forall_mem_cons.1 hk).2
  | char _ _ hname =>
    rwa [OnlyKeywords, names_chars_append (List.forall_mem_singleton.2 hname)] at hk

end IsLexeme

theorem read_char {known : Text → Bool} {fold : Bool} {blanks rest : Text} {c : Char}
    (hb : ∀ c ∈ blanks, isBlank c = true) (hblank : isBlank c = false)
    (hnumeral : Decimal.isNumeralChar c = false) (hname : isNameStart c = false)
    (hfold : (fold && isSign c && startsNumeral rest) = false) :
    read known fold (blanks ++ c :: rest) = readSymbol blanks c rest := by
  unfold read
  rw [trimStart_append hb hblank, blanks_append hb hblank]
  simp only [hnumeral, hname, hfold, Bool.false_eq_true, if_false]

/-- A lexeme reads the same behind any blanks and in front of any text that does not go on with it,
unless it is a sign that is folded. -/
theorem IsLexeme.reads {lexeme rest : Text} (h : IsLexeme lexeme rest)
    (hk : (lexeme ++ rest).OnlyKeywords) (known : Text → Bool) (fold : Bool) :
    (∃ outcome, outcome ≠ .ok .stop ∧ ∀ blanks rest', (∀ c ∈ blanks, isBlank c = true) →
      Breaks rest rest' →
        read known fold (blanks ++ (lexeme ++ rest')) = .plain blanks lexeme rest' outcome) ∨
    fold = true ∧ startsNumeral rest = true ∧
      ∃ negative, lexeme = [(signOperator negative).symbol] := by
  cases h with
  | numeral hne hrun hr =>
    refine .inl ⟨_, readNumeral_ne_stop [] lexeme [], fun blanks rest' hb hbreaks => ?_⟩
    exact read_numeral hb hne hrun (hbreaks.numeral hr)
  | name hn hr =>
    rw [OnlyKeywords, names_name_append hn hr] at hk
    obtain ⟨f, hf⟩ := Option.isSome_iff_exists.1 (hk lexeme (List.mem_cons_self ..))
    refine .inl ⟨.ok (.function f), nofun, fun blanks rest' hb hbreaks => ?_⟩
    rw [read_name hb hn (hbreaks.name hr), readName, hf]
  | @char c _ hblank hnumeral hname =>
    cases hsign : fold && isSign c && startsNumeral rest with
    | true =>
      obtain ⟨⟨hflag, hc⟩, hstarts⟩ := by simpa only [Bool.and_eq_true] using hsign
      obtain ⟨negative, rfl⟩ := exists_sign hc
      exact .inr ⟨hflag, hstarts, negative, rfl⟩
    | false =>
      refine .inl ⟨_, readSymbol_ne_stop [] c [], fun blanks rest' hb hbreaks => ?_⟩
      refine read_char hb hblank hnumeral hname ?_
      rw [Bool.and_eq_false_iff] at hsign ⊢
      exact hsign.imp_right hbreaks.numeral

/-- A token of a text without variables is read off a lexeme that reads the same in front of any
text that does not go on with it. -/
theorem read_lexeme {t : Text} (hk : t.OnlyKeywords) {known : Text → Bool} {fold : Bool}
    {token : Token} (h : (read known fold t).outcome = .ok token) (hstop : token ≠ .stop) :
    ∃ lexeme rest, t = t.blanks ++ (lexeme ++ rest) ∧ rest.OnlyKeywords ∧
      ∀ rest', Breaks rest rest' →
        read known fold (t.blanks ++ (lexeme ++ rest')) =
          .plain t.blanks lexeme rest' (.ok token) := by
  have hb := isBlank_blanks t
  rcases exists_isLexeme t with hall | ⟨lexeme, rest, ht, hl⟩
  · rw [(read_stop_iff known fold).2 (List.dropWhile_eq_nil_iff.2 hall)] at h
    exact absurd (Except.ok.inj h).symm hstop
  · have hk' : (lexeme ++ rest).OnlyKeywords := by
      rw [ht] at hk
      exact hk.of_blanks hb
    rcases hl.reads hk' known fold with ⟨outcome, -, hreads⟩ | ⟨rfl, hstarts, negative, rfl⟩
    · have hread := hreads t.blanks rest hb ⟨id, id⟩
      rw [← ht] at hread
      rw [hread] at h
      have h : outcome = .ok token := h
      subst h
      exact ⟨lexeme, rest, ht, hl.onlyKeywords hk', fun rest' hbreaks => hreads _ _ hb hbreaks⟩
    · obtain ⟨run, rest, rfl, hne, hrun, hr⟩ := exists_numeral hstarts
      have ht : t = t.blanks ++ (signOperator negative).symbol :: (run ++ rest) := ht
      have hread := read_sign_numeral known negative hb hne hrun hr
      rw [← ht] at hread
      rw [hread] at h
      refine ⟨_ :: run, rest, ht, (IsLexeme.numeral hne hrun hr).onlyKeywords (hl.onlyKeywords hk'),
        fun rest' hbreaks => ?_⟩
      rw [← h]
      exact read_sign_numeral known negative hb hne hrun (hbreaks.numeral hr)

end MatrixCalc
