import MatrixCalc.Proofs.Checked.Reading
import MatrixCalc.Proofs.Token.Lexemes
import Mathlib.Data.List.TakeWhile

/-!
# The calls of a scanner tile its text

Every call takes blanks off the text, then a lexeme, and behind the target of an assignment an
equals sign. The offsets of a call are places between characters, and the next call goes on where
it ended, so nothing is skipped, read twice or lost. The end is handed out once.
-/
namespace MatrixCalc

open Text

/-- What is taken behind an answer: blanks and an equals sign behind a target, else nothing. -/
def TakenBehind {ε : Type} : Except ε Token → Text → Prop
  | .ok (.target _), t => ∃ blanks, t = blanks ++ ['='] ∧ ∀ c ∈ blanks, isBlank c = true
  | _, t => t = []

section Behind

variable {ε ε' : Type} {answer : Except ε Token} {t : Text}

theorem takenBehind_nil (h : ∀ n, answer ≠ .ok (.target n)) : TakenBehind answer [] := by
  unfold TakenBehind
  split
  · next n => exact absurd rfl (h n)
  · rfl

theorem TakenBehind.mapError (h : TakenBehind answer t) (f : ε → ε') :
    TakenBehind (answer.mapError f) t := by
  cases answer with
  | ok token => cases token <;> exact h
  | error e => exact h

end Behind

section Readings

variable {known : Text → Bool} {fold : Bool} {t : Text}

/-- Without the blanks in front, the same is read. -/
theorem read_trimStart (known : Text → Bool) (fold : Bool) (t : Text) :
    read known fold t.trimStart = { read known fold t with blanks := [] } := by
  have hmoved : read known fold (t.blanks ++ t.trimStart) = _ :=
    read_blanks_append (isBlank_blanks t) t.trimStart
  rw [t.blanks_append_trimStart] at hmoved
  have hblanks := congrArg Reading.blanks hmoved
  rw [read_blanks] at hblanks
  have hnil : (read known fold t.trimStart).blanks = [] := List.self_eq_append_right.1 hblanks
  rw [hmoved, ← hnil]

theorem readNumeral_takenBehind (blanks lexeme rest : Text) :
    TakenBehind (readNumeral blanks lexeme rest).outcome
      (readNumeral blanks lexeme rest).behind := by
  refine takenBehind_nil fun n => ?_
  unfold readNumeral
  split <;> nofun

theorem readName_takenBehind (blanks name rest : Text) :
    TakenBehind (readName known blanks name rest).outcome
      (readName known blanks name rest).behind := by
  unfold readName
  split
  · exact rfl
  · split
    · next behind rest' h =>
      unfold takeEquals? at h
      split at h
      · cases h
        exact ⟨rest.blanks, rfl, isBlank_blanks rest⟩
      · cases h
    · refine takenBehind_nil fun n => ?_
      unfold Reading.plain
      split <;> nofun

theorem readSymbol_takenBehind (blanks : Text) (c : Char) (rest : Text) :
    TakenBehind (readSymbol blanks c rest).outcome (readSymbol blanks c rest).behind := by
  refine takenBehind_nil fun n => ?_
  unfold readSymbol
  split
  · next token h => exact fun he => (symbol?_ne h).2.2.1 n (Except.ok.inj he)
  · nofun

theorem read_takenBehind : TakenBehind (read known fold t).outcome (read known fold t).behind := by
  unfold read
  split
  · rfl
  · split
    · exact readNumeral_takenBehind ..
    · split
      · exact readName_takenBehind ..
      · split
        · exact readNumeral_takenBehind ..
        · exact readSymbol_takenBehind ..

theorem read_of_stop (h : (read known fold t).outcome = .ok .stop) :
    read known fold t = .plain t [] [] (.ok .stop) := by
  have htrim := (read_stop_iff known fold).1 h
  have hblanks := t.blanks_append_trimStart
  rw [htrim, List.append_nil] at hblanks
  unfold read
  rw [htrim, hblanks]

theorem read_stop_iff_blank :
    (read known fold t).outcome = .ok .stop ↔ ∀ c ∈ t, isBlank c = true := by
  rw [read_stop_iff, trimStart, List.dropWhile_eq_nil_iff]

end Readings

namespace Scanner

/-- The answers to calls with these flags, one after the other, and the scanner behind them. -/
def calls (known : Text → Bool) :
    List Bool → Scanner → List (Except ParseError Token) × Scanner
  | [], s => ([], s)
  | fold :: flags, s =>
    let (answer, s') := s.next known fold
    let (answers, last) := calls known flags s'
    (answer :: answers, last)

/-- The spans of one call, from the cursor of a scanner to that of the scanner behind it. Every
offset lies between two characters of the source or at one of its ends. -/
structure Tile (source : Text) (s : Scanner) (answer : Except ParseError Token)
    (s' : Scanner) : Prop where
  ordered : s.position ≤ s'.start ∧ s'.start ≤ s'.stop ∧ s'.stop ≤ s'.position ∧
    s'.position ≤ source.size
  blanks : ∃ gap, Checked.slice? s.position s'.start source = some gap ∧
    ∀ c ∈ gap, isBlank c = true
  lexeme : ∃ lexeme, Checked.slice? s'.start s'.stop source = some lexeme
  behind : ∃ behind, Checked.slice? s'.stop s'.position source = some behind ∧
    TakenBehind answer behind
  stop_iff : answer = .ok .stop ↔
    ∃ rest, Checked.startingAt? s.position source = some rest ∧ ∀ c ∈ rest, isBlank c = true
  of_stop : answer = .ok .stop →
    s'.start = source.size ∧ s'.stop = source.size ∧ s'.position = source.size
  of_ne_stop : answer ≠ .ok .stop → s'.start < s'.stop

/-- The scanner stands at its position in the source. -/
def On (source : Text) (s : Scanner) : Prop :=
  ∃ before, source = before ++ s.rest ∧ s.position = before.size

variable {known : Text → Bool} {source : Text} {s : Scanner}

theorem next_of_finished (h : s.finished = true) (fold : Bool) :
    s.next known fold = (.error ⟨s.position, .afterEnd⟩, s) := by
  rw [next, if_pos h]

/-- Before the end has been handed out, a call answers with what is read. -/
theorem next_spec (h : s.finished = false) (known : Text → Bool) (fold : Bool) :
    ∃ finished, s.next known fold =
        ((read known fold s.rest).outcome.mapError fun f =>
          ⟨(read known fold s.rest).start s.position, f⟩,
        { s.past (read known fold s.rest) with finished := finished }) ∧
      (finished = true ↔ (read known fold s.rest).outcome = .ok .stop) := by
  cases ho : (read known fold s.rest).outcome with
  | error f =>
    refine ⟨false, ?_, by simp⟩
    simp only [next, h, Bool.false_eq_true, if_false, ho]
    rfl
  | ok token =>
    by_cases hstop : token = .stop
    · subst hstop
      refine ⟨true, ?_, by simp⟩
      simp only [next, h, Bool.false_eq_true, if_false, ho]
      rfl
    · refine ⟨false, ?_, by simp [hstop]⟩
      rw [next_of_token h ho hstop]
      rfl

theorem mapError_eq_ok {ε ε' α : Type} {f : ε → ε'} {x : Except ε α} {a : α} :
    x.mapError f = .ok a ↔ x = .ok a := by
  cases x <;> simp [Except.mapError]

/-- The end is handed out by the call that finishes the scanner. -/
theorem finished_next_iff (h : s.finished = false) (fold : Bool) :
    (s.next known fold).2.finished = true ↔ (s.next known fold).1 = .ok .stop := by
  obtain ⟨finished, hnext, hfinished⟩ := next_spec h known fold
  rw [hnext, mapError_eq_ok]
  exact hfinished

theorem calls_cons (known : Text → Bool) (fold : Bool) (flags : List Bool) (s : Scanner) :
    calls known (fold :: flags) s =
      ((s.next known fold).1 :: (calls known flags (s.next known fold).2).1,
        (calls known flags (s.next known fold).2).2) := rfl

theorem calls_of_finished (h : s.finished = true) (flags : List Bool) :
    (calls known flags s).2 = s := by
  induction flags with
  | nil => rfl
  | cons fold flags ih => rwa [calls_cons, next_of_finished h]

/-- The scanner behind a call stands in the source again. -/
theorem On.after_next (hon : s.On source) (fold : Bool) : (s.next known fold).2.On source := by
  cases hfinished : s.finished with
  | true =>
    rw [next_of_finished hfinished]
    exact hon
  | false =>
    obtain ⟨before, hsource, hposition⟩ := hon
    obtain ⟨finished, hnext, -⟩ := next_spec hfinished known fold
    have htext := read_text known fold s.rest
    rw [hnext]
    generalize read known fold s.rest = r at htext
    refine ⟨before ++ (r.blanks ++ (r.lexeme ++ r.behind)), ?_, ?_⟩
    · rw [hsource, ← htext, Reading.text]
      simp only [past, List.append_assoc]
    · simp only [past, Reading.next, Reading.stop, Reading.start, size_append, hposition,
        Nat.add_assoc]

theorem On.after_calls (hon : s.On source) (known : Text → Bool) (flags : List Bool) :
    (calls known flags s).2.On source := by
  induction flags generalizing s with
  | nil => exact hon
  | cons fold flags ih => exact ih (hon.after_next fold)

/-- The parts of a reading are slices of the source. -/
theorem slices_of_reading (before : Text) (r : Reading) :
    Checked.slice? before.size (r.start before.size) (before ++ r.text) = some r.blanks ∧
      Checked.slice? (r.start before.size) (r.stop before.size) (before ++ r.text) =
        some r.lexeme ∧
      Checked.slice? (r.stop before.size) (r.next before.size) (before ++ r.text) =
        some r.behind := by
  refine ⟨Checked.slice?_append before r.blanks _,
    Checked.slice?_lexeme before r.blanks r.lexeme _, ?_⟩
  have h := Checked.slice?_lexeme before (r.blanks ++ r.lexeme) r.behind r.rest
  rwa [size_append, ← Nat.add_assoc, List.append_assoc] at h

/-- A call before the end takes a tile off the source. -/
theorem On.tile (hon : s.On source) (hfinished : s.finished = false) (fold : Bool) :
    Tile source s (s.next known fold).1 (s.next known fold).2 := by
  obtain ⟨before, hsource, hposition⟩ := hon
  obtain ⟨finished, hnext, -⟩ := next_spec hfinished known fold
  have hstop_iff : (s.next known fold).1 = .ok .stop ↔ ∀ c ∈ s.rest, isBlank c = true := by
    rw [hnext, mapError_eq_ok, read_stop_iff_blank]
  obtain ⟨hblanks, hlexeme, hbehind⟩ := slices_of_reading before (read known fold s.rest)
  rw [read_text, ← hsource, ← hposition] at hblanks hlexeme hbehind
  have hsize : source.size =
      (read known fold s.rest).next s.position + (read known fold s.rest).rest.size := by
    rw [hsource, hposition, size_append, ← congrArg Text.size (read_text known fold s.rest)]
    simp only [Reading.text, Reading.next, Reading.stop, Reading.start, size_append, Nat.add_assoc]
  constructor
  case ordered =>
    rw [hnext]
    simp only [past, Reading.next, Reading.stop, Reading.start] at hsize ⊢
    omega
  case blanks =>
    rw [hnext]
    refine ⟨_, hblanks, ?_⟩
    rw [read_blanks]
    exact isBlank_blanks s.rest
  case lexeme =>
    rw [hnext]
    exact ⟨_, hlexeme⟩
  case behind =>
    rw [hnext]
    exact ⟨_, hbehind, read_takenBehind.mapError _⟩
  case stop_iff =>
    rw [hstop_iff, hsource, hposition, Checked.startingAt?_append]
    simp
  case of_stop =>
    intro h
    rw [hnext, mapError_eq_ok] at h
    rw [hnext]
    rw [read_of_stop h] at hsize ⊢
    exact ⟨hsize.symm, hsize.symm, hsize.symm⟩
  case of_ne_stop =>
    intro h
    rw [hnext, Ne, mapError_eq_ok] at h
    have hne := lexeme_ne_nil h
    have hlength := length_le_size (read known fold s.rest).lexeme
    have hpos := List.length_pos_iff.2 hne
    rw [hnext]
    simp only [past, Reading.stop]
    omega

/-- Calls that do not hand out the end leave less and less of the text. -/
theorem length_rest_calls (hfinished : s.finished = false) {flags : List Bool}
    (h : .ok .stop ∉ (calls known flags s).1) :
    (calls known flags s).2.finished = false ∧
      (calls known flags s).2.rest.length + flags.length ≤ s.rest.length := by
  induction flags generalizing s with
  | nil => exact ⟨hfinished, Nat.le_refl _⟩
  | cons fold flags ih =>
    rw [calls_cons, List.mem_cons, not_or] at h
    have hfirst : (s.next known fold).1 ≠ .ok .stop := fun he => h.1 he.symm
    have hopen : (s.next known fold).2.finished = false :=
      Bool.eq_false_iff.2 fun he => hfirst ((finished_next_iff hfinished fold).1 he)
    obtain ⟨hlast, hlength⟩ := ih hopen h.2
    obtain ⟨finished, hnext, -⟩ := next_spec hfinished known fold
    rw [hnext, Ne, mapError_eq_ok] at hfirst
    have hshorter := read_shorter hfirst
    have hrest : (s.next known fold).2.rest = (read known fold s.rest).rest := by
      rw [hnext]
      rfl
    rw [hrest] at hlength
    refine ⟨hlast, ?_⟩
    change (calls known flags (s.next known fold).2).2.rest.length + (flags.length + 1) ≤ _
    omega

/-- Once the end has been handed out, the scanner stands behind the source. -/
theorem On.finished_of_stop (hon : s.On source) (hfinished : s.finished = false) {flags : List Bool}
    (h : .ok .stop ∈ (calls known flags s).1) :
    (calls known flags s).2.finished = true ∧
      (calls known flags s).2.position = source.size := by
  induction flags generalizing s with
  | nil => cases h
  | cons fold flags ih =>
    rw [calls_cons] at h ⊢
    by_cases hfirst : (s.next known fold).1 = .ok .stop
    · have hclosed := (finished_next_iff hfinished fold).2 hfirst
      rw [calls_of_finished hclosed]
      exact ⟨hclosed, ((hon.tile hfinished fold).of_stop hfirst).2.2⟩
    · have hopen : (s.next known fold).2.finished = false :=
        Bool.eq_false_iff.2 fun he => hfirst ((finished_next_iff hfinished fold).1 he)
      exact ih (hon.after_next fold) hopen ((List.mem_cons.1 h).resolve_left (Ne.symm hfirst))

theorem rest_startingAt (before t : Text) :
    (startingAt (before ++ t) before.size).rest = t := by
  change dropBytes before.size (before ++ t) = t
  induction before with
  | nil => rw [size_nil, List.nil_append, dropBytes]
  | cons c before ih =>
    obtain ⟨n, hn⟩ := Nat.exists_eq_add_one_of_ne_zero (Nat.ne_of_gt c.utf8Size_pos)
    have hsize : Text.size (c :: before) = n + Text.size before + 1 := by
      rw [size_cons, hn, Nat.add_right_comm]
    rw [hsize, List.cons_append, dropBytes, hn]
    have hminus : n + Text.size before + 1 - (n + 1) = Text.size before := by omega
    rw [hminus, ih]

theorem on_startingAt (before t : Text) :
    (startingAt (before ++ t) before.size).On (before ++ t) :=
  ⟨before, by rw [rest_startingAt], rfl⟩

/-- Whatever the flags and the errors on the way: what is left is the source from the cursor on,
every call before the end takes a tile off it, the end is handed out after at most one call for
each byte and one more, and after it nothing changes. -/
theorem calls_tile (known : Text → Bool) (before t : Text) (flags : List Bool) :
    let source := before ++ t
    let (answers, s) := calls known flags (startingAt source before.size)
    Checked.startingAt? s.position source = some s.rest ∧
      (.ok .stop ∉ answers →
        ∀ fold, Tile source s (s.next known fold).1 (s.next known fold).2) ∧
      (source.size < flags.length → .ok .stop ∈ answers) ∧
      (.ok .stop ∈ answers →
        ∀ fold, s.next known fold = (.error ⟨source.size, .afterEnd⟩, s)) := by
  intro source
  have hon := on_startingAt before t
  have hopen : (startingAt source before.size).finished = false := rfl
  refine ⟨?_, ?_, ?_, ?_⟩
  · obtain ⟨taken, hsource, hposition⟩ := hon.after_calls known flags
    rw [hposition]
    exact (congrArg _ hsource).trans (Checked.startingAt?_append taken _)
  · intro h fold
    obtain ⟨hfinished, -⟩ := length_rest_calls hopen h
    exact (hon.after_calls known flags).tile hfinished fold
  · intro hlength
    by_contra h
    obtain ⟨-, hrest⟩ := length_rest_calls hopen h
    have hsize := length_le_size t
    rw [rest_startingAt] at hrest
    rw [size_append] at hlength
    omega
  · intro h fold
    obtain ⟨hfinished, hposition⟩ := hon.finished_of_stop hopen h
    rw [next_of_finished hfinished, hposition]

end Scanner
end MatrixCalc
