import MatrixCalc.Proofs.Token.Lexemes
import Mathlib.Data.List.TakeWhile

/-!
# Texts without variables

A ground text holds only blanks, digits and points, symbols and keywords. A token of it is read in
the same way for every table of variables, with signs apart or not, and what is left is ground
again (`Text.Ground.read_spec`). That a text is ground shows in its lexemes with signs apart
(`ground_of_lexemes`).
-/
namespace MatrixCalc

open Text

/-- Whether the piece means the same for every table of variables. -/
def Piece.isGround : Piece → Bool
  | char c => isBlank c || Decimal.isNumeralChar c || (symbol? c).isSome
  | name n => Function.isKeyword n

def Text.Ground (t : Text) : Prop := ∀ q ∈ t.pieces, q.isGround = true

/-- Whether the token neither reads nor assigns a variable. -/
def Token.isGround : Token → Bool
  | .target _ | .reference _ => false
  | _ => true

theorem Token.isGround_iff {token : Token} :
    token.isGround = true ↔ (∀ n, token ≠ .target n) ∧ ∀ n, token ≠ .reference n := by
  cases token <;> simp [isGround]

theorem isGround_of_symbol? {c : Char} {token : Token} (h : symbol? c = some token) :
    token.isGround = true := by
  obtain ⟨-, -, hkept⟩ := symbol?_ne h
  exact Token.isGround_iff.2 hkept

theorem ground_nil : Ground [] := by
  intro q hq
  rw [pieces_nil] at hq
  cases hq

theorem ground_chars_append {s : Text} (hs : ∀ c ∈ s, isNameStart c = false) (t : Text) :
    Ground (s ++ t) ↔ (∀ c ∈ s, (Piece.char c).isGround = true) ∧ t.Ground := by
  unfold Ground
  rw [pieces_chars_append hs, List.forall_mem_append, List.forall_mem_map]

theorem ground_cons {c : Char} (hc : isNameStart c = false) (t : Text) :
    Ground (c :: t) ↔ (Piece.char c).isGround = true ∧ t.Ground := by
  have h := ground_chars_append (s := [c]) (List.forall_mem_singleton.2 hc) t
  rwa [List.forall_mem_singleton] at h

theorem ground_name_append {n t : Text} (hn : IsName n) (ht : continuesName t = false) :
    Ground (n ++ t) ↔ Function.isKeyword n = true ∧ t.Ground := by
  unfold Ground
  rw [pieces_name hn ht, List.forall_mem_cons]
  exact Iff.rfl

theorem ground_blanks_append {blanks : Text} (hb : ∀ c ∈ blanks, isBlank c = true) (t : Text) :
    Ground (blanks ++ t) ↔ t.Ground := by
  rw [ground_chars_append fun c hc => isNameStart_of_isBlank (hb c hc)]
  refine and_iff_right ?_
  intro c hc
  rw [Piece.isGround, hb c hc]
  rfl

theorem ground_numeral_append {run : Text} (hrun : ∀ c ∈ run, Decimal.isNumeralChar c = true)
    (t : Text) : Ground (run ++ t) ↔ t.Ground := by
  rw [ground_chars_append fun c hc => isNameStart_of_isNumeralChar (hrun c hc)]
  refine and_iff_right ?_
  intro c hc
  rw [Piece.isGround, hrun c hc, Bool.or_true]
  rfl

theorem ground_dropWhile_numeral {tail : Text} (h : tail.Ground) :
    Ground (tail.dropWhile Decimal.isNumeralChar) := by
  have hrun : ∀ c ∈ tail.takeWhile Decimal.isNumeralChar, Decimal.isNumeralChar c = true :=
    List.all_eq_true.1 List.all_takeWhile
  rw [← List.takeWhile_append_dropWhile (p := Decimal.isNumeralChar) (l := tail)] at h
  exact (ground_numeral_append hrun _).1 h

section Lexemes

/-- Whether the lexeme means the same for every table of variables. -/
def Lexeme.Ground (l : Lexeme) : Prop :=
  l.isNumeral = true ∨ ∃ token, l.outcome = .ok token ∧ token.isGround = true

theorem Lexeme.Ground.attach {l : Lexeme} {ls : List Lexeme} (hl : l.Ground)
    (hls : ∀ m ∈ ls, m.Ground) : ∀ m ∈ l.attach ls, m.Ground := by
  cases ls with
  | nil => exact List.forall_mem_singleton.2 hl
  | cons m ls =>
    obtain ⟨-, hls'⟩ := List.forall_mem_cons.1 hls
    rw [Lexeme.attach]
    split
    · next hmeets =>
      simp only [Lexeme.meets, Bool.and_eq_true] at hmeets
      have hjoin : (l.join m).Ground := .inl (startsNumeral_append hmeets.1.1 m.text)
      exact List.forall_mem_cons.2 ⟨hjoin, hls'⟩
    · exact List.forall_mem_cons.2 ⟨hl, hls⟩

theorem ground_fuse {ls : List Lexeme} (h : ∀ l ∈ ls, l.Ground) : ∀ l ∈ fuse ls, l.Ground := by
  induction ls with
  | nil => exact h
  | cons l ls ih =>
    obtain ⟨hl, hls⟩ := List.forall_mem_cons.1 h
    rw [fuse_cons]
    exact hl.attach (ih hls)

theorem Takes.ground_append {known : Text → Bool} {lexeme rest : Text}
    {outcome : Except Fault Token} (h : Takes known lexeme outcome rest) {offset : Nat}
    (hl : Lexeme.Ground ⟨offset, lexeme, outcome⟩) (hr : rest.Ground) :
    Ground (lexeme ++ rest) := by
  cases h with
  | numeral _ hrun => exact (ground_numeral_append hrun rest).2 hr
  | keyword hn hf hrest =>
    refine (ground_name_append hn hrest).2 ⟨?_, hr⟩
    rw [Function.isKeyword, hf]
    rfl
  | reference hn =>
    rcases hl with hnumeral | ⟨token, ho, htoken⟩
    · rw [Lexeme.isNumeral, hn.startsNumeral] at hnumeral
      cases hnumeral
    · cases ho
      cases htoken
  | @symbol c _ _ hs =>
    have hstart : ∀ d ∈ [c], isNameStart d = false :=
      List.forall_mem_singleton.2 (symbol?_plain hs).2.2
    refine (ground_chars_append hstart rest).2 ⟨?_, hr⟩
    rw [List.forall_mem_singleton, Piece.isGround, hs, Option.isSome_some, Bool.or_true]

theorem ground_of_lexemes {known : Text → Bool} {offset : Nat} {t : Text} :
    (∀ l ∈ lexemes known offset t, l.Ground) → t.Ground := by
  induction offset, t using lexemes.induct known with
  | case1 offset t hend =>
    intro _
    have hblank := List.dropWhile_eq_nil_iff.1 hend
    have hground := (ground_blanks_append hblank []).2 ground_nil
    rwa [List.append_nil] at hground
  | case2 offset t r hend ih =>
    intro h
    rw [lexemes_of_ne hend, List.forall_mem_cons] at h
    obtain ⟨hl, hls⟩ := h
    have hrest := ih hls
    have hfinds : Finds known t r := read_finds known t
    change Lexeme.Ground ⟨r.start offset, r.lexeme, r.outcome⟩ at hl
    generalize r = r at hfinds hl hrest
    cases hfinds with
    | stop ht => exact absurd (List.dropWhile_eq_nil_iff.2 ht) hend
    | taken ht htakes =>
      rw [ht, ground_blanks_append (isBlank_blanks t)]
      exact htakes.ground_append hl hrest
    | refused hn ho =>
      -- A fault or a target, and neither is a numeral.
      rcases hl with hnumeral | ⟨token, houtcome, htoken⟩
      · rw [Lexeme.isNumeral, hn] at hnumeral
        cases hnumeral
      · obtain ⟨n, rfl⟩ := ho token houtcome
        cases htoken

end Lexemes

/-- What can be found in a ground text. -/
inductive FoundGround : Except Fault Token → Prop
  | token {token : Token} (h : token.isGround = true) : FoundGround (.ok token)
  | badNumeral (literal : Text) : FoundGround (.error (.badNumeral literal))

theorem foundGround_readNumeral (blanks lexeme rest : Text) :
    FoundGround (readNumeral blanks lexeme rest).outcome := by
  unfold readNumeral
  split
  · exact .token rfl
  · exact .badNumeral lexeme

theorem Text.Ground.read_spec {t : Text} (h : t.Ground) (fold : Bool) (known : Text → Bool) :
    (∀ known', read known' fold t = read known fold t) ∧
      FoundGround (read known fold t).outcome ∧ (read known fold t).rest.Ground := by
  have ht := t.blanks_append_trimStart
  unfold read
  cases htrim : t.trimStart with
  | nil => exact ⟨fun _ => rfl, .token rfl, ground_nil⟩
  | cons c tail =>
    rw [htrim] at ht
    rw [← ht, ground_blanks_append (isBlank_blanks t)] at h
    dsimp only
    -- A name is a keyword here, and the table is not asked for those; nothing else asks it.
    cases hname : isNameStart c with
    | true =>
      have hnumeral : Decimal.isNumeralChar c = false := (isName_takeWhile hname tail).startsNumeral
      rw [← List.takeWhile_append_dropWhile (p := isNameChar) (l := tail), ← List.cons_append,
        ground_name_append (isName_takeWhile hname tail) (continuesName_dropWhile tail)] at h
      obtain ⟨hkeyword, hrest⟩ := h
      obtain ⟨f, hf⟩ := Option.isSome_iff_exists.1 hkeyword
      simp only [hnumeral, Bool.false_eq_true, if_false, if_true, readName, hf, Reading.plain]
      exact ⟨fun _ => trivial, .token rfl, hrest⟩
    | false =>
      obtain ⟨hc, htail⟩ := (ground_cons hname tail).1 h
      have hrest := ground_dropWhile_numeral htail
      simp only [Bool.false_eq_true, if_false]
      refine ⟨fun _ => trivial, ?_⟩
      split
      · exact ⟨foundGround_readNumeral _ _ _, hrest⟩
      · next hnumeral =>
        split
        · exact ⟨foundGround_readNumeral _ _ _, hrest⟩
        · have hblank : isBlank c = false := isBlank_of_trimStart_eq_cons htrim
          rw [Piece.isGround, hblank, Bool.eq_false_iff.2 hnumeral] at hc
          obtain ⟨token, htoken⟩ := Option.isSome_iff_exists.1 hc
          rw [readSymbol, htoken]
          exact ⟨.token (isGround_of_symbol? htoken), htail⟩

end MatrixCalc
