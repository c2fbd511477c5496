import MatrixCalc.Proofs.Token.Reads
import MatrixCalc.Token.Scanner

/-!
# The lexemes of a text

A text falls apart into lexemes, with signs apart from numerals. A lexeme that could be read in
front of one text is read in front of any other text that does not go on with it, and a numeral
that does go on is joined by the numeral behind it (`Takes.lexemes_append`).
-/
namespace MatrixCalc

open Text

theorem takeWhile_numeral_append {n rest : Text} (hn : ∀ c ∈ n, Decimal.isNumeralChar c = true)
    (hr : startsNumeral rest = false) : (n ++ rest).takeWhile Decimal.isNumeralChar = n := by
  rw [List.takeWhile_append_of_pos hn]
  cases rest with
  | nil => simp
  | cons c rest =>
    rw [List.takeWhile_cons_of_neg (by simpa [startsNumeral] using hr), List.append_nil]

theorem dropWhile_numeral_append {n rest : Text} (hn : ∀ c ∈ n, Decimal.isNumeralChar c = true)
    (hr : startsNumeral rest = false) : (n ++ rest).dropWhile Decimal.isNumeralChar = rest := by
  rw [List.dropWhile_append_of_pos hn]
  cases rest with
  | nil => rfl
  | cons c rest => rw [List.dropWhile_cons_of_neg (by simpa [startsNumeral] using hr)]

/-- No name is a numeral. -/
theorem IsName.startsNumeral {n : Text} (h : IsName n) : startsNumeral n = false := by
  cases n with
  | nil => rfl
  | cons c t =>
    refine Bool.eq_false_iff.2 fun hc => ?_
    have hstart := h.1
    rw [isNameStart_of_isNumeralChar hc] at hstart
    cases hstart

theorem IsName.continuesName_append {n : Text} (h : IsName n) (t : Text) :
    continuesName (n ++ t) = true := by
  cases n with
  | nil => exact h.elim
  | cons c n => exact isNameChar_of_isNameStart h.1

theorem continuesName_append_congr {s : Text} (h : s ≠ []) (t u : Text) :
    continuesName (s ++ t) = continuesName (s ++ u) := by
  cases s with
  | nil => exact absurd rfl h
  | cons c s => rfl

section Beginnings

variable {known : Text → Bool} {fold : Bool} {blanks : Text} (hb : ∀ c ∈ blanks, isBlank c = true)

include hb

theorem blanks_append {c : Char} (hc : isBlank c = false) (t : Text) :
    (blanks ++ c :: t).blanks = blanks := by
  rw [Text.blanks, List.takeWhile_append_of_pos hb,
    List.takeWhile_cons_of_neg (by simp [hc]), List.append_nil]

theorem trimStart_append {c : Char} (hc : isBlank c = false) (t : Text) :
    (blanks ++ c :: t).trimStart = c :: t := by
  rw [Text.trimStart, List.dropWhile_append_of_pos hb, List.dropWhile_cons_of_neg (by simp [hc])]

theorem read_numeral {run rest : Text} (hne : run ≠ [])
    (hrun : ∀ c ∈ run, Decimal.isNumeralChar c = true) (hr : startsNumeral rest = false) :
    read known fold (blanks ++ (run ++ rest)) = readNumeral blanks run rest := by
  obtain ⟨c, run, rfl⟩ := List.exists_cons_of_ne_nil hne
  have hc := hrun c (List.mem_cons_self ..)
  have hrun' := fun d hd => hrun d (List.mem_cons_of_mem c hd)
  have hblank : isBlank c = false := by
    refine Bool.eq_false_iff.2 fun hblank => ?_
    rw [isNumeralChar_of_isBlank hblank] at hc
    cases hc
  unfold read
  rw [List.cons_append, trimStart_append hb hblank, blanks_append hb hblank]
  simp only [hc, if_true]
  rw [takeWhile_numeral_append hrun' hr, dropWhile_numeral_append hrun' hr]

theorem read_name {n rest : Text} (hn : IsName n) (hr : continuesName rest = false) :
    read known fold (blanks ++ (n ++ rest)) = readName known blanks n rest := by
  obtain ⟨c, n, rfl⟩ := List.exists_cons_of_ne_nil hn.ne_nil
  have hnumeral : Decimal.isNumeralChar c = false := hn.startsNumeral
  have hblank : isBlank c = false := by
    refine Bool.eq_false_iff.2 fun hc => ?_
    have hstart := hn.1
    rw [isNameStart_of_isBlank hc] at hstart
    cases hstart
  unfold read
  rw [List.cons_append, trimStart_append hb hblank, blanks_append hb hblank]
  simp only [hnumeral, hn.1, if_true, Bool.false_eq_true, if_false]
  rw [takeWhile_name_append hn.2 hr, dropWhile_name_append hn.2 hr]

/-- Further blanks only move what is read. -/
theorem read_blanks_append (t : Text) :
    read known fold (blanks ++ t) =
      { read known fold t with blanks := blanks ++ (read known fold t).blanks } := by
  have htrim : (blanks ++ t).trimStart = t.trimStart := List.dropWhile_append_of_pos hb
  have hblanks : (blanks ++ t).blanks = blanks ++ t.blanks := List.takeWhile_append_of_pos hb
  unfold read
  rw [htrim, hblanks]
  split
  · rfl
  · split
    · rfl
    · split
      · unfold readName
        split
        · rfl
        · split <;> rfl
      · split <;> rfl

end Beginnings

/-- The character of a symbol begins nothing else. -/
theorem symbol?_plain {c : Char} {token : Token} (h : symbol? c = some token) :
    isBlank c = false ∧ Decimal.isNumeralChar c = false ∧ isNameStart c = false := by
  unfold symbol? at h
  split at h
  · next op hop =>
    obtain rfl : op.symbol = c := by simpa using List.find?_some hop
    cases op <;> decide
  · split at h
    · decide
    · decide
    · decide
    · decide
    · cases h

theorem read_symbol {known : Text → Bool} {c : Char} {token : Token} (h : symbol? c = some token)
    (rest : Text) : read known false (c :: rest) = .plain [] [c] rest (.ok token) := by
  obtain ⟨hblank, hnumeral, hname⟩ := symbol?_plain h
  have htrim : Text.trimStart (c :: rest) = c :: rest :=
    List.dropWhile_cons_of_neg (by simp [hblank])
  have hblanks : Text.blanks (c :: rest) = [] := List.takeWhile_cons_of_neg (by simp [hblank])
  unfold read
  rw [htrim, hblanks]
  simp only [hnumeral, hname, Bool.false_and, Bool.false_eq_true, if_false]
  rw [readSymbol, h]

/-- With signs apart, the lexeme in front of the rest reads so, known names being variables. -/
inductive Takes (known : Text → Bool) : Text → Except Fault Token → Text → Prop
  | numeral {run rest : Text} (hne : run ≠ []) (hrun : ∀ c ∈ run, Decimal.isNumeralChar c = true) :
      Takes known run (readNumeral [] run []).outcome rest
  | keyword {n rest : Text} {f : Function} (hn : IsName n) (hf : Function.ofKeyword? n = some f)
      (hr : continuesName rest = false) : Takes known n (.ok (.function f)) rest
  | reference {n rest : Text} (hn : IsName n) (hf : Function.ofKeyword? n = none)
      (hv : known n = true) (hr : continuesName rest = false) :
      Takes known n (.ok (.reference n)) rest
  | symbol {c : Char} {token : Token} {rest : Text} (h : symbol? c = some token) :
      Takes known [c] (.ok token) rest

theorem Takes.reference_inv {known : Text → Bool} {lexeme rest n : Text}
    (h : Takes known lexeme (.ok (.reference n)) rest) :
    lexeme = n ∧ IsName n ∧ Function.ofKeyword? n = none ∧ known n = true ∧
      continuesName rest = false := by
  generalize ho : (Except.ok (Token.reference n) : Except Fault Token) = outcome at h
  cases h with
  | numeral =>
    unfold readNumeral at ho
    split at ho <;> cases ho
  | keyword => cases ho
  | reference hn hf hv hr =>
    cases ho
    exact ⟨rfl, hn, hf, hv, hr⟩
  | symbol hs => exact absurd (Except.ok.inj ho).symm ((symbol?_ne hs).2.2.2 n)

/-- What a reading with signs apart can be. -/
inductive Finds (known : Text → Bool) (t : Text) : Reading → Prop
  | stop (ht : ∀ c ∈ t, isBlank c = true) : Finds known t ⟨t, [], [], [], .ok .stop⟩
  | taken {lexeme rest : Text} {outcome : Except Fault Token}
      (ht : t = t.blanks ++ (lexeme ++ rest)) (h : Takes known lexeme outcome rest) :
      Finds known t (.plain t.blanks lexeme rest outcome)
  | refused {r : Reading} (hn : startsNumeral r.lexeme = false)
      (ho : ∀ token, r.outcome = .ok token → ∃ n, token = .target n) : Finds known t r

theorem readName_finds {known : Text → Bool} {t n rest : Text} (ht : t = t.blanks ++ (n ++ rest))
    (hn : IsName n) (hr : continuesName rest = false) :
    Finds known t (readName known t.blanks n rest) := by
  have hnumeral := hn.startsNumeral
  unfold readName
  split
  · next f hf => exact .taken ht (.keyword hn hf hr)
  · next hf =>
    split
    · exact .refused hnumeral (by simp)
    · cases hv : known n with
      | true => exact .taken ht (.reference hn hf hv hr)
      | false => exact .refused hnumeral (by simp [Reading.plain])

theorem read_finds (known : Text → Bool) (t : Text) : Finds known t (read known false t) := by
  have hb := t.blanks_append_trimStart
  unfold read
  cases h : t.trimStart with
  | nil =>
    rw [h, List.append_nil] at hb
    change Finds known t ⟨t.blanks, [], [], [], .ok .stop⟩
    have ht := isBlank_blanks t
    rw [hb] at ht ⊢
    exact .stop ht
  | cons c tail =>
    rw [h] at hb
    simp only [Bool.false_and, Bool.false_eq_true, if_false]
    split
    · next hc =>
      refine .taken ?_ (.numeral (List.cons_ne_nil _ _) ?_)
      · rw [List.cons_append, List.takeWhile_append_dropWhile, hb]
      · intro d hd
        rcases List.mem_cons.1 hd with rfl | hd
        · exact hc
        · exact List.all_eq_true.1 List.all_takeWhile d hd
    · next hnumeral =>
      split
      · next hc =>
        refine readName_finds ?_ (isName_takeWhile hc tail) (continuesName_dropWhile tail)
        rw [List.cons_append, List.takeWhile_append_dropWhile, hb]
      · unfold readSymbol
        cases hs : symbol? c with
        | some token => exact .taken hb.symm (.symbol hs)
        | none =>
          refine .refused ?_ nofun
          simpa [Reading.plain, startsNumeral] using hnumeral

theorem readNumeral_ne_stop (blanks lexeme rest : Text) :
    (readNumeral blanks lexeme rest).outcome ≠ .ok .stop := by
  unfold readNumeral
  split <;> nofun

theorem readName_ne_stop (known : Text → Bool) (blanks name rest : Text) :
    (readName known blanks name rest).outcome ≠ .ok .stop := by
  unfold readName
  split
  · nofun
  · split
    · nofun
    · split <;> nofun

theorem readSymbol_ne_stop (blanks : Text) (c : Char) (rest : Text) :
    (readSymbol blanks c rest).outcome ≠ .ok .stop := by
  unfold readSymbol
  split
  · next token htoken =>
    intro h
    exact (symbol?_ne htoken).2.1 (Except.ok.inj h)
  · nofun

/-- The end is read where only blanks are left. -/
theorem read_stop_iff {t : Text} (known : Text → Bool) (fold : Bool) :
    (read known fold t).outcome = .ok .stop ↔ t.trimStart = [] := by
  unfold read
  split
  · next h => exact ⟨fun _ => h, fun _ => rfl⟩
  · next c tail h =>
    rw [h]
    refine ⟨fun hstop => ?_, fun hend => (List.cons_ne_nil _ _ hend).elim⟩
    split at hstop
    · exact absurd hstop (readNumeral_ne_stop _ _ _)
    · split at hstop
      · exact absurd hstop (readName_ne_stop _ _ _ _)
      · split at hstop
        · exact absurd hstop (readNumeral_ne_stop _ _ _)
        · exact absurd hstop (readSymbol_ne_stop _ _ _)

/-- A token where it stands, or the fault found there. -/
structure Lexeme where
  start : Nat
  text : Text
  outcome : Except Fault Token

namespace Lexeme

def stop (l : Lexeme) : Nat := l.start + l.text.size

def isNumeral (l : Lexeme) : Bool := startsNumeral l.text

def result (l : Lexeme) : Except ParseError Token := l.outcome.mapError fun f => ⟨l.start, f⟩

/-- Both are numerals, and the second begins where the first ends. -/
def meets (l m : Lexeme) : Bool := l.isNumeral && m.isNumeral && l.stop == m.start

/-- The numeral that the texts of two numerals make. -/
def join (l m : Lexeme) : Lexeme :=
  ⟨l.start, l.text ++ m.text, (readNumeral [] (l.text ++ m.text) []).outcome⟩

/-- A lexeme in front of others, joined by the first of them where they meet. -/
def attach (l : Lexeme) : List Lexeme → List Lexeme
  | [] => [l]
  | m :: rest => if l.meets m then l.join m :: rest else l :: m :: rest

end Lexeme

theorem Lexeme.exists_result_iff (l : Lexeme) :
    (∃ token, l.result = .ok token) ↔ ∃ token, l.outcome = .ok token := by
  rw [result]
  cases l.outcome with
  | ok token => exact ⟨fun _ => ⟨token, rfl⟩, fun _ => ⟨token, rfl⟩⟩
  | error f =>
    refine ⟨?_, ?_⟩
    · rintro ⟨token, h⟩
      cases h
    · rintro ⟨token, h⟩
      cases h

/-- The lexemes with numerals that meet made one. -/
def fuse (ls : List Lexeme) : List Lexeme := ls.foldr Lexeme.attach []

theorem fuse_cons (l : Lexeme) (ls : List Lexeme) : fuse (l :: ls) = l.attach (fuse ls) := rfl

/-- The lexemes of a text that begins at `offset`, with signs apart. -/
def lexemes (known : Text → Bool) (offset : Nat) (t : Text) : List Lexeme :=
  let r := read known false t
  if _end : t.trimStart = [] then []
  else ⟨r.start offset, r.lexeme, r.outcome⟩ :: lexemes known (r.next offset) r.rest
termination_by t.length
decreasing_by exact read_shorter fun h => _end ((read_stop_iff known false).1 h)

section Lexing

variable {known : Text → Bool} {offset : Nat}

theorem lexemes_of_trimStart {t : Text} (h : t.trimStart = []) : lexemes known offset t = [] := by
  rw [lexemes, dif_pos h]

theorem lexemes_of_ne {t : Text} (h : t.trimStart ≠ []) :
    lexemes known offset t =
      ⟨(read known false t).start offset, (read known false t).lexeme,
        (read known false t).outcome⟩ ::
        lexemes known ((read known false t).next offset) (read known false t).rest := by
  rw [lexemes, dif_neg h]

theorem lexemes_blanks_append {blanks : Text} (hb : ∀ c ∈ blanks, isBlank c = true) (t : Text) :
    lexemes known offset (blanks ++ t) = lexemes known (offset + blanks.size) t := by
  have htrim : (blanks ++ t).trimStart = t.trimStart := List.dropWhile_append_of_pos hb
  by_cases h : t.trimStart = []
  · rw [lexemes_of_trimStart h, lexemes_of_trimStart (htrim.trans h)]
  · rw [lexemes_of_ne h, lexemes_of_ne (htrim ▸ h), read_blanks_append hb]
    simp only [Reading.start, Reading.next, Reading.stop, size_append, Nat.add_assoc]

/-- The lexemes of a text that reads plainly at its beginning. -/
theorem lexemes_of_plain {t lexeme rest : Text} {outcome : Except Fault Token}
    (h : read known false t = .plain [] lexeme rest outcome) (hstop : outcome ≠ .ok .stop) :
    lexemes known offset t =
      ⟨offset, lexeme, outcome⟩ :: lexemes known (offset + lexeme.size) rest := by
  rw [lexemes_of_ne, h]
  · simp [Reading.plain, Reading.start, Reading.next, Reading.stop]
  · rw [Ne, ← read_stop_iff known false, h]
    exact hstop

theorem startsNumeral_append {s : Text} (h : startsNumeral s = true) (t : Text) :
    startsNumeral (s ++ t) = true := by
  cases s with
  | nil => cases h
  | cons c s => exact h

theorem attach_of_not_numeral {start : Nat} {text : Text} {outcome : Except Fault Token}
    (h : startsNumeral text = false) (ls : List Lexeme) :
    Lexeme.attach ⟨start, text, outcome⟩ ls = ⟨start, text, outcome⟩ :: ls := by
  cases ls with
  | nil => rfl
  | cons m ls => simp [Lexeme.attach, Lexeme.meets, Lexeme.isNumeral, h]

/-- Only a numeral directly behind a lexeme meets it. -/
theorem attach_lexemes {u : Text} (h : startsNumeral u = false) (l : Lexeme)
    (hl : l.stop = offset) : l.attach (lexemes known offset u) = l :: lexemes known offset u := by
  by_cases hu : u.trimStart = []
  · rw [lexemes_of_trimStart hu]
    rfl
  · rw [lexemes_of_ne hu, Lexeme.attach, if_neg]
    intro hmeets
    have htext := read_text known false u
    generalize read known false u = r at hmeets htext
    simp only [Lexeme.meets, Lexeme.isNumeral, Bool.and_eq_true, beq_iff_eq] at hmeets
    obtain ⟨⟨-, hnumeral⟩, hstart⟩ := hmeets
    have hsize : r.blanks.size = 0 := by
      rw [hl, Reading.start] at hstart
      omega
    have hblanks : r.blanks = [] := by
      have := length_le_size r.blanks
      exact List.length_eq_zero_iff.1 (by omega)
    rw [Reading.text, hblanks, List.nil_append] at htext
    rw [← htext, startsNumeral_append hnumeral] at h
    cases h

theorem startsNumeral_dropWhile (t : Text) :
    startsNumeral (t.dropWhile Decimal.isNumeralChar) = false := by
  induction t with
  | nil => rfl
  | cons c t ih =>
    cases hc : Decimal.isNumeralChar c with
    | true => rwa [List.dropWhile_cons_of_pos hc]
    | false =>
      rw [List.dropWhile_cons_of_neg (by simp [hc])]
      exact hc

theorem exists_numeral {u : Text} (h : startsNumeral u = true) :
    ∃ run rest, u = run ++ rest ∧ run ≠ [] ∧ (∀ c ∈ run, Decimal.isNumeralChar c = true) ∧
      startsNumeral rest = false := by
  refine ⟨u.takeWhile Decimal.isNumeralChar, u.dropWhile Decimal.isNumeralChar,
    List.takeWhile_append_dropWhile.symm, ?_, List.all_eq_true.1 List.all_takeWhile, ?_⟩
  · cases u with
    | nil => cases h
    | cons c u =>
      have hc : Decimal.isNumeralChar c = true := h
      rw [List.takeWhile_cons_of_pos hc]
      exact List.cons_ne_nil _ _
  · exact startsNumeral_dropWhile u

theorem startsNumeral_of_all {run : Text} (hne : run ≠ [])
    (hrun : ∀ c ∈ run, Decimal.isNumeralChar c = true) : startsNumeral run = true := by
  obtain ⟨c, run, rfl⟩ := List.exists_cons_of_ne_nil hne
  exact hrun c (List.mem_cons_self ..)

theorem lexemes_numeral {run rest : Text} (hne : run ≠ [])
    (hrun : ∀ c ∈ run, Decimal.isNumeralChar c = true) (hr : startsNumeral rest = false) :
    lexemes known offset (run ++ rest) =
      ⟨offset, run, (readNumeral [] run []).outcome⟩ ::
        lexemes known (offset + run.size) rest := by
  refine lexemes_of_plain ?_ (readNumeral_ne_stop _ _ _)
  change read known false ([] ++ (run ++ rest)) = readNumeral [] run rest
  exact read_numeral (List.forall_mem_nil _) hne hrun hr

end Lexing

namespace Takes

variable {known : Text → Bool}

theorem ne_stop {lexeme rest : Text} {outcome : Except Fault Token}
    (h : Takes known lexeme outcome rest) : outcome ≠ .ok .stop := by
  cases h with
  | numeral => exact readNumeral_ne_stop _ _ _
  | keyword | reference => nofun
  | symbol h => exact fun he => (symbol?_ne h).2.1 (Except.ok.inj he)

theorem ne_nil {lexeme rest : Text} {outcome : Except Fault Token}
    (h : Takes known lexeme outcome rest) : lexeme ≠ [] := by
  cases h with
  | numeral hne => exact hne
  | keyword hn | reference hn => exact hn.ne_nil
  | symbol => exact List.cons_ne_nil _ _

/-- No lexeme begins with a blank or an equals sign. -/
theorem exists_head {lexeme rest : Text} {outcome : Except Fault Token}
    (h : Takes known lexeme outcome rest) :
    ∃ c tail, lexeme = c :: tail ∧ isBlank c = false ∧ c ≠ '=' := by
  obtain ⟨c, tail, rfl⟩ := List.exists_cons_of_ne_nil h.ne_nil
  refine ⟨c, tail, rfl, Bool.eq_false_iff.2 fun hblank => ?_, ?_⟩
  · cases h with
    | numeral _ hrun =>
      have hc := hrun c (List.mem_cons_self ..)
      rw [isNumeralChar_of_isBlank hblank] at hc
      cases hc
    | keyword hn | reference hn =>
      have hc := hn.1
      rw [isNameStart_of_isBlank hblank] at hc
      cases hc
    | symbol hs =>
      rw [(symbol?_plain hs).1] at hblank
      cases hblank
  · rintro rfl
    cases h with
    | numeral _ hrun => exact absurd (hrun _ (List.mem_cons_self ..)) (by decide)
    | keyword hn | reference hn => exact absurd hn.1 (by decide)
    | symbol hs => exact (symbol?_ne hs).1 rfl

/-- What is taken in front of one text is taken in front of another, joined by the numeral that
stands there. The other text must not go on with a name, nor make a reference an assignment. -/
theorem lexemes_append {lexeme rest u : Text} {outcome : Except Fault Token}
    (h : Takes known lexeme outcome rest)
    (hname : continuesName rest = false → continuesName u = false)
    (heq : ∀ n, outcome = .ok (.reference n) → takeEquals? u = none) (offset : Nat) :
    lexemes known offset (lexeme ++ u) =
      Lexeme.attach ⟨offset, lexeme, outcome⟩ (lexemes known (offset + lexeme.size) u) := by
  have hstop := h.ne_stop
  cases h with
  | numeral hne hrun =>
    cases hu : startsNumeral u with
    | false =>
      exact (lexemes_numeral hne hrun hu).trans (attach_lexemes hu ⟨offset, lexeme, _⟩ rfl).symm
    | true =>
      obtain ⟨run, rest, rfl, hne', hrun', hrest⟩ := exists_numeral hu
      have hall : ∀ c ∈ lexeme ++ run, Decimal.isNumeralChar c = true := by
        intro c hc
        exact (List.mem_append.1 hc).elim (hrun c) (hrun' c)
      rw [← List.append_assoc, lexemes_numeral (List.append_ne_nil_of_left_ne_nil hne _) hall hrest,
        lexemes_numeral hne' hrun' hrest, Lexeme.attach, if_pos]
      · simp only [Lexeme.join, size_append, Nat.add_assoc]
      · simp [Lexeme.meets, Lexeme.isNumeral, Lexeme.stop, startsNumeral_of_all hne hrun,
          startsNumeral_of_all hne' hrun']
  | keyword hn hf hr =>
    rw [attach_of_not_numeral hn.startsNumeral]
    refine lexemes_of_plain ?_ hstop
    have hread : read known false ([] ++ (lexeme ++ u)) = readName known [] lexeme u :=
      read_name (List.forall_mem_nil _) hn (hname hr)
    rw [readName, hf] at hread
    exact hread
  | reference hn hf hv hr =>
    rw [attach_of_not_numeral hn.startsNumeral]
    refine lexemes_of_plain ?_ hstop
    have hread : read known false ([] ++ (lexeme ++ u)) = readName known [] lexeme u :=
      read_name (List.forall_mem_nil _) hn (hname hr)
    rw [readName, hf] at hread
    simp only [heq lexeme rfl, hv, if_true] at hread
    exact hread
  | @symbol c _ _ hs =>
    have hc : startsNumeral [c] = false := (symbol?_plain hs).2.1
    rw [attach_of_not_numeral hc]
    exact lexemes_of_plain (read_symbol hs u) hstop

end Takes

namespace Scanner

theorem rest_next {known : Text → Bool} {fold : Bool} {s s' : Scanner} {token : Token}
    (h : s.next known fold = (.ok token, s')) (hne : token ≠ .stop) :
    s'.rest.length < s.rest.length := by
  unfold next at h
  split at h
  · cases h
  · have hshorter := @read_shorter known fold s.rest
    generalize read known fold s.rest = r at h hshorter
    simp only at h
    split at h
    · cases h
      exact absurd rfl hne
    · next hstop ho =>
      cases h
      exact hshorter fun he => hstop (Except.ok.inj (ho.symm.trans he))
    · cases h

/-- The tokens up to the end of the text, with signs apart, or the first error. -/
def tokens (known : Text → Bool) (s : Scanner) : Except ParseError (List Token) :=
  match _next : s.next known false with
  | (.error e, _) => .error e
  | (.ok token, s') =>
    if _more : token = .stop then .ok [] else (token :: ·) <$> tokens known s'
termination_by s.rest.length
decreasing_by exact rest_next _next _more

theorem tokens_of_error {known : Text → Bool} {s s' : Scanner} {e : ParseError}
    (h : s.next known false = (.error e, s')) : s.tokens known = .error e := by
  rw [tokens]
  split
  · next h' =>
    cases h.symm.trans h'
    rfl
  · next h' => cases h.symm.trans h'

theorem tokens_of_stop {known : Text → Bool} {s s' : Scanner}
    (h : s.next known false = (.ok .stop, s')) : s.tokens known = .ok [] := by
  rw [tokens]
  split
  · next h' => cases h.symm.trans h'
  · next h' =>
    cases h.symm.trans h'
    rfl

theorem tokens_of_token {known : Text → Bool} {s s' : Scanner} {token : Token}
    (h : s.next known false = (.ok token, s')) (hne : token ≠ .stop) :
    s.tokens known = (token :: ·) <$> s'.tokens known := by
  rw [tokens]
  split
  · next h' => cases h.symm.trans h'
  · next h' =>
    cases h.symm.trans h'
    rw [dif_neg hne]

/-- The scanner behind a reading. -/
def past (s : Scanner) (r : Reading) : Scanner :=
  ⟨r.rest, r.next s.position, r.start s.position, r.stop s.position, false⟩

theorem next_of_token {known : Text → Bool} {fold : Bool} {s : Scanner} {token : Token}
    (h : s.finished = false) (ho : (read known fold s.rest).outcome = .ok token)
    (hne : token ≠ .stop) : s.next known fold = (.ok token, s.past (read known fold s.rest)) := by
  cases token with
  | stop => exact absurd rfl hne
  | _ => simp only [next, h, Bool.false_eq_true, if_false, ho, past]

/-- The tokens are what the lexemes of the text are read as. -/
theorem tokens_eq_mapM (known : Text → Bool) (s : Scanner) (h : s.finished = false) :
    s.tokens known = (lexemes known s.position s.rest).mapM Lexeme.result := by
  cases ho : (read known false s.rest).outcome with
  | error f =>
    have hend : s.rest.trimStart ≠ [] := by
      rw [Ne, ← read_stop_iff known false, ho]
      nofun
    have hnext : s.next known false = (.error ⟨(read known false s.rest).start s.position, f⟩,
        s.past (read known false s.rest)) := by
      simp only [next, h, Bool.false_eq_true, if_false, ho, past]
    rw [tokens_of_error hnext, lexemes_of_ne hend, List.mapM_cons, Lexeme.result, ho]
    rfl
  | ok token =>
    by_cases hstop : token = .stop
    · subst hstop
      have hnext : s.next known false =
          (.ok .stop, { s.past (read known false s.rest) with finished := true }) := by
        simp only [next, h, Bool.false_eq_true, if_false, ho, past]
      rw [tokens_of_stop hnext, lexemes_of_trimStart ((read_stop_iff known false).1 ho)]
      rfl
    · have hend : s.rest.trimStart ≠ [] := by
        rw [Ne, ← read_stop_iff known false, ho]
        exact fun he => hstop (Except.ok.inj he)
      have hnext := next_of_token h ho hstop
      have hlt : (s.past (read known false s.rest)).rest.length < s.rest.length :=
        rest_next hnext hstop
      rw [tokens_of_token hnext hstop, tokens_eq_mapM known _ rfl, lexemes_of_ne hend,
        List.mapM_cons, Lexeme.result, ho]
      simp only [past]
      cases List.mapM Lexeme.result (lexemes known _ _) <;> rfl
termination_by s.rest.length

theorem tokens_startingAt (known : Text → Bool) (t : Text) :
    (startingAt t 0).tokens known = (lexemes known 0 t).mapM Lexeme.result := by
  rw [tokens_eq_mapM known _ rfl, startingAt, dropBytes]

end Scanner

end MatrixCalc
