import MatrixCalc.Proofs.Expr.Offenders

/-!
# What the errors of a text name

Some errors name a piece of the text: a numeral, a character, a name, or all that is left. Such an
error stands where the piece begins. What cannot be read is named from the first character behind
the blanks on (`read_names`), and the tokens of a text stand where they say (`Stream.Over`).
-/
namespace MatrixCalc

open Text

/-- The fault names what the text begins with: a numeral as far as it goes, a character, a name as
far as it goes, or the whole text. -/
inductive Fault.Names : Fault → Text → Prop
  | badNumeral {literal rest : Text} (h : startsNumeral rest = false) :
      Names (.badNumeral literal) (literal ++ rest)
  | strayCharacter {c : Char} {rest : Text} : Names (.strayCharacter c) (c :: rest)
  | unknownName {n rest : Text} (hn : IsName n) (h : continuesName rest = false) :
      Names (.unknownName n) (n ++ rest)
  | cyclic {n rest : Text} (hn : IsName n) (h : continuesName rest = false) :
      Names (.cyclic n) (n ++ rest)
  | trailing {t : Text} : Names (.trailing t) t

def Fault.isNaming : Fault → Bool
  | .badNumeral _ | .strayCharacter _ | .unknownName _ | .cyclic _ | .trailing _ => true
  | _ => false

/-- The text goes on so at the offset, which lies between two of its characters or at an end. -/
def Text.GoesOn (t : Text) (offset : Nat) (behind : Text) : Prop :=
  ∃ before, t = before ++ behind ∧ offset = before.size

/-- The error names what the text goes on with at the place of the error. -/
def ParseError.PointsInto (e : ParseError) (t : Text) : Prop :=
  ∃ behind, t.GoesOn e.offset behind ∧ e.fault.Names behind

/-- All that a reading takes off its text. -/
def Reading.taken (r : Reading) : Text := r.blanks ++ (r.lexeme ++ r.behind)

theorem Reading.next_eq (r : Reading) (offset : Nat) : r.next offset = offset + r.taken.size := by
  simp only [next, stop, start, taken, size_append, Nat.add_assoc]

section Places

variable (known : Text → Bool) (fold : Bool) (front t : Text)

theorem taken_append_rest : (read known fold t).taken ++ (read known fold t).rest = t := by
  have htext := read_text known fold t
  simpa only [Reading.text, Reading.taken, List.append_assoc] using htext

/-- Behind the blanks the text goes on where the token begins, whatever stands in front. -/
theorem goesOn_start :
    (front ++ t).GoesOn ((read known fold t).start front.size) t.trimStart := by
  refine ⟨front ++ t.blanks, ?_, ?_⟩
  · rw [List.append_assoc, blanks_append_trimStart]
  · rw [size_append, Reading.start, read_blanks]

theorem goesOn_next :
    (front ++ t).GoesOn ((read known fold t).next front.size) (read known fold t).rest := by
  refine ⟨front ++ (read known fold t).taken, ?_, ?_⟩
  · rw [List.append_assoc, taken_append_rest]
  · rw [size_append, Reading.next_eq]

variable {known t}

/-- The equals sign of a target stands directly in front of what is read next. -/
theorem goesOn_equals {n : Text} (h : (read known fold t).outcome = .ok (.target n)) :
    (front ++ t).GoesOn ((read known fold t).next front.size - 1)
      ('=' :: (read known fold t).rest) := by
  have hbehind := @read_takenBehind known fold t
  have ht := taken_append_rest known fold t
  generalize read known fold t = r at h hbehind ht ⊢
  rw [h] at hbehind
  obtain ⟨blanks, hbehind, -⟩ := hbehind
  have htaken : r.taken = r.blanks ++ (r.lexeme ++ blanks) ++ ['='] := by
    rw [Reading.taken, hbehind]
    simp only [List.append_assoc]
  refine ⟨front ++ (r.blanks ++ (r.lexeme ++ blanks)), ?_, ?_⟩
  · rw [← ht, htaken]
    simp only [List.append_assoc, List.singleton_append]
  · have hone : Text.size ['='] = 1 := rfl
    rw [Reading.next_eq, htaken, size_append _ ['='], size_append front, hone, ← Nat.add_assoc,
      Nat.add_sub_cancel]

end Places

section Readings

variable {known : Text → Bool} {fold : Bool} {t blanks rest : Text} {f : Fault}

theorem read_behind_eq_nil {token : Token} (h : (read known fold t).outcome = .ok token)
    (htarget : ∀ n, token ≠ .target n) : (read known fold t).behind = [] := by
  have hbehind := @read_takenBehind known fold t
  rw [h] at hbehind
  unfold TakenBehind at hbehind
  split at hbehind
  · next n heq => exact absurd (Except.ok.inj heq) (htarget n)
  · exact hbehind

theorem readNumeral_names {lexeme : Text} (hr : startsNumeral rest = false)
    (h : (readNumeral blanks lexeme rest).outcome = .error f) : f.Names (lexeme ++ rest) := by
  unfold readNumeral at h
  split at h
  · cases h
  · cases h
    exact .badNumeral hr

theorem readName_names {n : Text} (hn : IsName n) (hr : continuesName rest = false)
    (h : (readName known blanks n rest).outcome = .error f) : f.Names (n ++ rest) := by
  unfold readName at h
  split at h
  · cases h
  · split at h
    · cases h
    · dsimp only [Reading.plain] at h
      split at h
      · cases h
      · cases h
        exact .unknownName hn hr

theorem readSymbol_names {c : Char} (h : (readSymbol blanks c rest).outcome = .error f) :
    f.Names (c :: rest) := by
  unfold readSymbol at h
  split at h
  · cases h
  · cases h
    exact .strayCharacter

/-- What cannot be read is named, from the first character behind the blanks on. -/
theorem read_names (h : (read known fold t).outcome = .error f) :
    f.Names t.trimStart := by
  unfold read at h
  split at h
  · cases h
  · next c tail htrim =>
    have hnumeral := startsNumeral_dropWhile tail
    rw [htrim]
    split at h
    · have hnames := readNumeral_names hnumeral h
      rwa [List.cons_append, List.takeWhile_append_dropWhile] at hnames
    · split at h
      · next hc =>
        have hnames := readName_names (isName_takeWhile hc tail) (continuesName_dropWhile tail) h
        rwa [List.cons_append, List.takeWhile_append_dropWhile] at hnames
      · split at h
        · have hnames := readNumeral_names hnumeral h
          rwa [List.cons_append, List.takeWhile_append_dropWhile] at hnames
        · exact readSymbol_names h

/-- A reference that leads back to itself is named like a name that is unknown. -/
theorem read_reference_names {n : Text}
    (h : (read known false t).outcome = .ok (.reference n)) :
    (Fault.cyclic n).Names t.trimStart := by
  have hblanks : (read known false t).blanks = t.blanks := read_blanks ..
  have htrim := t.blanks_append_trimStart
  have hr := read_spec known t
  generalize read known false t = r at h hblanks hr
  cases hr with
  | reference ht hv =>
    cases h
    rw [← hblanks] at htrim
    rw [List.append_cancel_left (htrim.trans ht.eq_append)]
    exact .cyclic ht.isName ht.ended
  | stop ht => cases h
  | target ht he => cases h
  | fault ho hf => cases ho.symm.trans h
  | kept ht hstop htarget href =>
    cases h
    exact absurd rfl (href n)

end Readings

/-- All tokens stand in the text, and the error that cuts them off points into it. -/
structure Stream.Over (s : Stream) (t : Text) : Prop where
  tokens : ∀ p ∈ s.tokens, t.GoesOn p.offset p.text
  ending : Ensures (fun p => t.GoesOn p.offset p.text) (fun e => e.PointsInto t) s.ending

theorem over_ofTextFrom (known : Text → Bool) (offset : Nat) (fold : Bool) (t : Text) :
    ∀ front : Text, front.size = offset →
      (Stream.ofTextFrom known offset fold t).Over (front ++ t) := by
  induction offset, fold, t using Stream.ofTextFrom.induct known with
  | case1 offset fold t r fault hread =>
    have hread : (read known fold t).outcome = .error fault := hread
    rintro front rfl
    rw [ofTextFrom_of_fault hread]
    exact ⟨List.forall_mem_nil _, t.trimStart, goesOn_start known fold front t, read_names hread⟩
  | case2 offset fold t r hread =>
    have hread : (read known fold t).outcome = .ok .stop := hread
    rintro front rfl
    have hgoes := goesOn_start known fold front t
    rw [(read_stop_iff known fold).1 hread] at hgoes
    rw [ofTextFrom_of_stop hread]
    exact ⟨List.forall_mem_nil _, hgoes⟩
  | case3 offset fold t r token hread hmore ih =>
    have hread : (read known fold t).outcome = .ok token := hread
    rintro front rfl
    rw [ofTextFrom_of_token hread hmore]
    -- The rest stands behind what is in front of the text and what the reading took.
    obtain ⟨before, ht, hsize⟩ := goesOn_next known fold front t
    have hover := ih before hsize.symm
    rw [← show front ++ t = _ from ht] at hover
    exact ⟨List.forall_mem_cons.2 ⟨goesOn_start known fold front t, hover.tokens⟩, hover.ending⟩

theorem Stream.Over.of_splits {s : Stream} {t : Text} {pre : List Placed} {q : Placed}
    (h : s.Over t) (hq : s.Splits pre q) : t.GoesOn q.offset q.text := by
  rcases hq with ⟨post, htokens⟩ | ⟨-, hending⟩
  · exact h.tokens q (htokens ▸ List.mem_append_right _ (List.mem_cons_self ..))
  · exact h.ending.of_ok hending

/-- The only refusal of a token that names something names all that stands from the token on. -/
theorem Placed.RefusedBy.names {p : Placed} {e : ParseError} (h : p.RefusedBy e)
    (hn : e.fault.isNaming = true) : e.fault.Names p.text := by
  cases h with
  | trailing => exact .trailing
  | expected wanted => cases hn
  | unexpected => cases hn
  | tooDeep => cases hn

theorem parse_pointsInto {known : Text → Bool} {t : Text} {e : ParseError}
    (h : Expr.parse known t = .error e) (hn : e.fault.isNaming = true) : e.PointsInto t := by
  have hover : (Stream.ofText known t).Over t := over_ofTextFrom known 0 true t [] rfl
  rcases (Stream.ofText known t).parse_ensures.of_error h with hcut | hgrammar
  · exact hover.ending.of_error hcut
  · obtain ⟨pre, q, s, hsplits, -, hrefused⟩ := exists_refused h hgrammar
    refine ⟨q.text, ?_, hrefused.names hn⟩
    rw [hrefused.offset_eq]
    exact hover.of_splits hsplits

end MatrixCalc
