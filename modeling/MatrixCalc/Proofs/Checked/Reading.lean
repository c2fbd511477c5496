import MatrixCalc.Proofs.Checked.Text
import MatrixCalc.Proofs.Token.Reads

/-!
# Reading a token at an offset

The token at a byte offset of a text: a lexeme is scanned there, its characters are sliced out of
the text again, and what follows is looked at from the end of the lexeme on. At an offset between
two characters no access is refused, and the token is the one that is taken off the rest of the
text (`read_eq`).
-/
namespace MatrixCalc.Checked

/-- A token or a fault, where it begins and ends, and where reading goes on. -/
structure Located where
  outcome : Except Fault Token
  start : Nat
  stop : Nat
  next : Nat

/-- What was taken off a text that begins at an offset. -/
def Located.ofReading (r : Reading) (offset : Nat) : Located :=
  ⟨r.outcome, r.start offset, r.stop offset, r.next offset⟩

/-- A lexeme, before its characters are looked at. -/
inductive Lexeme where
  | numeral
  | name
  | symbol (c : Char)

/-- The first lexeme of a text that begins at an offset, with its two ends. -/
def firstLexeme (t : Text) (offset : Nat) : Option (Lexeme × Nat × Nat) :=
  let start := offset + t.blanks.size
  match t.trimStart with
  | [] => none
  | c :: tail =>
    if Decimal.isNumeralChar c then
      some (.numeral, start, start + Text.size (c :: tail.takeWhile Decimal.isNumeralChar))
    else if isNameStart c then
      some (.name, start, start + Text.size (c :: tail.takeWhile isNameChar))
    else some (.symbol c, start, start + c.utf8Size)

def scan (source : Text) (offset : Nat) : Option (Option (Lexeme × Nat × Nat)) := do
  return firstLexeme (← startingAt? offset source) offset

def numeral (source : Text) (start stop : Nat) : Option Located := do
  let literal ← slice? start stop source
  return ⟨(readNumeral [] literal []).outcome, start, stop, stop⟩

/-- Where the equals sign ends that follows on a lexeme, if there is one. -/
def equalsSign (source : Text) (stop : Nat) : Option (Option Nat) := do
  let rest ← startingAt? stop source
  if rest.trimStart.head? = some '=' then
    return some (stop + ((← minus? rest.size rest.trimStart.size) + 1))
  else return none

def name (known : Text → Bool) (source : Text) (start stop : Nat) : Option Located := do
  let name ← slice? start stop source
  match Function.ofKeyword? name with
  | some f => return ⟨.ok (.function f), start, stop, stop⟩
  | none =>
    match ← equalsSign source stop with
    | some next => return ⟨.ok (.target name), start, stop, next⟩
    | none =>
      if known name then return ⟨.ok (.reference name), start, stop, stop⟩
      else return ⟨.error (.unknownName name), start, stop, stop⟩

def strayCharacter (source : Text) (start : Nat) : Option Located := do
  let c := (← startingAt? start source).headD '\x00'
  return ⟨.error (.strayCharacter c), start, start + c.utf8Size, start + c.utf8Size⟩

/-- Whether a sign is read together with the numeral behind it. -/
def folds (fold : Bool) (source : Text) (c : Char) (stop : Nat) : Option Bool :=
  if fold && isSign c then (startingAt? stop source).map startsNumeral else some false

/-- A sign and the numeral that is scanned behind it. -/
def signedNumeral (source : Text) (start stop : Nat) : Option Located := do
  match ← scan source stop with
  | some (.numeral, _, stop) => numeral source start stop
  | _ => numeral source start stop

def symbol (source : Text) (c : Char) (start stop : Nat) : Option Located :=
  match symbol? c with
  | some token => some ⟨.ok token, start, stop, stop⟩
  | none => strayCharacter source start

def read (known : Text → Bool) (fold : Bool) (source : Text) (offset : Nat) : Option Located := do
  match ← scan source offset with
  | none => return ⟨.ok .stop, source.size, source.size, source.size⟩
  | some (.numeral, start, stop) => numeral source start stop
  | some (.name, start, stop) => name known source start stop
  | some (.symbol c, start, stop) =>
    if ← folds fold source c stop then signedNumeral source start stop
    else symbol source c start stop

theorem takeEquals?_eq_none {t : Text} (h : t.trimStart.head? ≠ some '=') :
    takeEquals? t = none := by
  unfold takeEquals?
  split
  · next htrim => exact absurd (htrim ▸ rfl) h
  · rfl

theorem equalsSign_eq (before rest : Text) :
    equalsSign (before ++ rest) before.size =
      some ((takeEquals? rest).map fun p => before.size + p.1.size) := by
  rw [equalsSign, startingAt?_append, Option.bind_eq_bind, Option.bind_some, minus?_trimStart]
  by_cases hhead : rest.trimStart.head? = some '='
  · obtain ⟨tail, htrim⟩ := List.head?_eq_some_iff.1 hhead
    have htake : takeEquals? rest = some (rest.blanks ++ ['='], tail) := by
      rw [takeEquals?, htrim]
      rfl
    rw [if_pos hhead, htake, Option.map_some, Text.size_append]
    rfl
  · rw [if_neg hhead, takeEquals?_eq_none hhead]
    rfl

section

variable (known : Text → Bool) (before blanks lexeme rest : Text)

theorem slice?_lexeme :
    slice? (before.size + blanks.size) (before.size + blanks.size + lexeme.size)
      (before ++ (blanks ++ (lexeme ++ rest))) = some lexeme := by
  have h := slice?_append (before ++ blanks) lexeme rest
  rwa [Text.size_append, List.append_assoc] at h

theorem numeral_eq :
    numeral (before ++ (blanks ++ (lexeme ++ rest))) (before.size + blanks.size)
        (before.size + blanks.size + lexeme.size) =
      some (.ofReading (readNumeral blanks lexeme rest) before.size) := by
  rw [numeral, slice?_lexeme]
  rfl

theorem name_eq :
    name known (before ++ (blanks ++ (lexeme ++ rest))) (before.size + blanks.size)
        (before.size + blanks.size + lexeme.size) =
      some (.ofReading (readName known blanks lexeme rest) before.size) := by
  have hequals := equalsSign_eq (before ++ (blanks ++ lexeme)) rest
  simp only [Text.size_append, List.append_assoc, ← Nat.add_assoc] at hequals
  rw [name, slice?_lexeme, Option.bind_eq_bind, Option.bind_some, hequals, readName]
  cases Function.ofKeyword? lexeme with
  | some f => rfl
  | none =>
    cases takeEquals? rest with
    | some p => rfl
    | none => cases known lexeme <;> simp <;> rfl

theorem folds_eq (fold : Bool) (c : Char) (before rest : Text) :
    folds fold (before ++ rest) c before.size = some (fold && isSign c && startsNumeral rest) := by
  rw [folds, startingAt?_append]
  cases fold && isSign c <;> rfl

end

theorem scan_eq (before t : Text) :
    scan (before ++ t) before.size = some (firstLexeme t before.size) := by
  rw [scan, startingAt?_append]
  rfl

/-- The numeral directly behind a sign ends where the sign and the numeral end. -/
theorem firstLexeme_of_startsNumeral {t : Text} (h : startsNumeral t = true) (offset : Nat) :
    firstLexeme t offset =
      some (.numeral, offset, offset + Text.size (t.takeWhile Decimal.isNumeralChar)) := by
  cases t with
  | nil => cases h
  | cons c t =>
    have hc : Decimal.isNumeralChar c = true := h
    have hblank : Text.isBlank c = false := by
      refine Bool.eq_false_iff.2 fun hb => ?_
      rw [isNumeralChar_of_isBlank hb] at hc
      cases hc
    have htrim : Text.trimStart (c :: t) = c :: t :=
      List.dropWhile_cons_of_neg (by simp [hblank])
    have hblanks : Text.blanks (c :: t) = [] := List.takeWhile_cons_of_neg (by simp [hblank])
    rw [firstLexeme, htrim, hblanks, List.takeWhile_cons_of_pos hc]
    simp only [hc, if_true, Text.size_nil, Nat.add_zero]

theorem signedNumeral_eq (before blanks : Text) (c : Char) {tail : Text}
    (h : startsNumeral tail = true) :
    signedNumeral (before ++ (blanks ++ c :: tail)) (before.size + blanks.size)
        (before.size + blanks.size + c.utf8Size) =
      some (.ofReading (readNumeral blanks (c :: tail.takeWhile Decimal.isNumeralChar)
        (tail.dropWhile Decimal.isNumeralChar)) before.size) := by
  have hscan := scan_eq (before ++ (blanks ++ [c])) tail
  simp only [Text.size_append, List.append_assoc, ← Nat.add_assoc, List.singleton_append,
    Text.size_cons, Text.size_nil, Nat.add_zero] at hscan
  have heq := numeral_eq before blanks (c :: tail.takeWhile Decimal.isNumeralChar)
    (tail.dropWhile Decimal.isNumeralChar)
  rw [List.cons_append, List.takeWhile_append_dropWhile, Text.size_cons, ← Nat.add_assoc] at heq
  rw [signedNumeral, hscan, firstLexeme_of_startsNumeral h]
  exact heq

theorem symbol_eq (before blanks : Text) (c : Char) (tail : Text) :
    symbol (before ++ (blanks ++ c :: tail)) c (before.size + blanks.size)
        (before.size + blanks.size + c.utf8Size) =
      some (.ofReading (readSymbol blanks c tail) before.size) := by
  have hstart := startingAt?_append (before ++ blanks) (c :: tail)
  rw [Text.size_append, List.append_assoc] at hstart
  rw [symbol, readSymbol]
  cases symbol? c with
  | some token => rfl
  | none =>
    rw [strayCharacter, hstart]
    rfl

/-- In front of what is left of a text, no access is refused, and the token is the one that is
taken off there. -/
theorem read_eq (known : Text → Bool) (fold : Bool) (before t : Text) :
    read known fold (before ++ t) before.size =
      some (.ofReading (MatrixCalc.read known fold t) before.size) := by
  have ht := t.blanks_append_trimStart
  rw [read, scan_eq, Option.bind_eq_bind, Option.bind_some, firstLexeme, MatrixCalc.read]
  cases htrim : t.trimStart with
  | nil =>
    rw [htrim, List.append_nil] at ht
    simp [Located.ofReading, Reading.plain, Reading.start, Reading.stop, Reading.next, ht]
  | cons c tail =>
    rw [htrim] at ht
    generalize t.blanks = blanks at ht
    subst ht
    by_cases hnumeral : Decimal.isNumeralChar c = true
    · have heq := numeral_eq before blanks (c :: tail.takeWhile Decimal.isNumeralChar)
        (tail.dropWhile Decimal.isNumeralChar)
      rw [List.cons_append, List.takeWhile_append_dropWhile] at heq
      simp only [hnumeral, if_true]
      exact heq
    · by_cases hname : isNameStart c = true
      · have heq := name_eq known before blanks (c :: tail.takeWhile isNameChar)
          (tail.dropWhile isNameChar)
        rw [List.cons_append, List.takeWhile_append_dropWhile] at heq
        simp only [hnumeral, hname, if_true, Bool.false_eq_true, if_false]
        exact heq
      · simp only [hnumeral, hname, Bool.false_eq_true, if_false]
        have hbehind := folds_eq fold c (before ++ (blanks ++ [c])) tail
        simp only [Text.size_append, List.append_assoc, ← Nat.add_assoc, List.singleton_append,
          Text.size_cons, Text.size_nil, Nat.add_zero] at hbehind
        rw [hbehind, Option.bind_eq_bind, Option.bind_some]
        by_cases hfold : (fold && isSign c && startsNumeral tail) = true
        · rw [if_pos hfold, if_pos hfold]
          exact signedNumeral_eq before blanks c (Bool.and_eq_true_iff.1 hfold).2
        · rw [if_neg hfold, if_neg hfold]
          exact symbol_eq before blanks c tail

end MatrixCalc.Checked
