import MatrixCalc.Decimal.Numeral
import MatrixCalc.ParseError

/-!
# Reading one token

`read` takes the first token off a text. The reading tells the blanks in front of the token,
the characters of the token, what was taken behind it, and the rest; the four together are the
text (`read_text`). A token that is no end takes at least one character (`read_shorter`).
-/
namespace MatrixCalc

/-- What was taken off a text, in order, and the token or the fault found there. -/
structure Reading where
  blanks : Text
  lexeme : Text
  /-- Blanks and the equals sign behind the target of an assignment, else nothing. -/
  behind : Text
  rest : Text
  outcome : Except Fault Token

namespace Reading

def text (r : Reading) : Text := r.blanks ++ (r.lexeme ++ (r.behind ++ r.rest))

/-- Where the token begins when the text begins at `offset`. -/
def start (r : Reading) (offset : Nat) : Nat := offset + r.blanks.size

def stop (r : Reading) (offset : Nat) : Nat := r.start offset + r.lexeme.size

def next (r : Reading) (offset : Nat) : Nat := r.stop offset + r.behind.size

end Reading

def isNameStart (c : Char) : Bool := c.isAlpha || c == '_'

def isNameChar (c : Char) : Bool := c.isAlphanum || c == '_'

/-- The characters up to and with an equals sign, when only blanks stand in front of it. -/
def takeEquals? (t : Text) : Option (Text × Text) :=
  match t.trimStart with
  | '=' :: rest => some (t.blanks ++ ['='], rest)
  | _ => none

/-- A reading whose token ends with its lexeme. -/
def Reading.plain (blanks lexeme rest : Text) (outcome : Except Fault Token) : Reading :=
  ⟨blanks, lexeme, [], rest, outcome⟩

def readNumeral (blanks lexeme rest : Text) : Reading :=
  .plain blanks lexeme rest <|
    match Decimal.value? lexeme with
    | some x => .ok (.number x)
    | none => .error (.badNumeral lexeme)

/-- A name: a keyword, the target of an assignment, or a known variable, in this order. -/
def readName (known : Text → Bool) (blanks name rest : Text) : Reading :=
  match Function.ofKeyword? name with
  | some f => .plain blanks name rest (.ok (.function f))
  | none =>
    match takeEquals? rest with
    | some (behind, rest) => ⟨blanks, name, behind, rest, .ok (.target name)⟩
    | none =>
      .plain blanks name rest <|
        if known name then .ok (.reference name) else .error (.unknownName name)

def symbol? (c : Char) : Option Token :=
  match Operator.ofSymbol? c with
  | some op => some (.operator op)
  | none =>
    match c with
    | '!' => some .bang
    | '(' => some .leftParen
    | ')' => some .rightParen
    | ',' => some .comma
    | _ => none

def readSymbol (blanks : Text) (c : Char) (rest : Text) : Reading :=
  .plain blanks [c] rest <|
    match symbol? c with
    | some token => .ok token
    | none => .error (.strayCharacter c)

def isSign (c : Char) : Bool := c == '+' || c == '-'

def startsNumeral : Text → Bool
  | c :: _ => Decimal.isNumeralChar c
  | [] => false

/-- The first token of a text. `known` tells the variables, `fold` whether a sign directly in
front of a numeral belongs to it. -/
def read (known : Text → Bool) (fold : Bool) (t : Text) : Reading :=
  let blanks := t.blanks
  match t.trimStart with
  | [] => .plain blanks [] [] (.ok .stop)
  | c :: tail =>
    if Decimal.isNumeralChar c then
      readNumeral blanks (c :: tail.takeWhile Decimal.isNumeralChar)
        (tail.dropWhile Decimal.isNumeralChar)
    else if isNameStart c then
      readName known blanks (c :: tail.takeWhile isNameChar) (tail.dropWhile isNameChar)
    else if fold && isSign c && startsNumeral tail then
      readNumeral blanks (c :: tail.takeWhile Decimal.isNumeralChar)
        (tail.dropWhile Decimal.isNumeralChar)
    else readSymbol blanks c tail

theorem takeEquals?_eq_some {t behind rest : Text} (h : takeEquals? t = some (behind, rest)) :
    behind ++ rest = t := by
  unfold takeEquals? at h
  split at h
  · next r hr =>
    cases h
    calc t.blanks ++ ['='] ++ rest = t.blanks ++ t.trimStart := by simp [hr]
      _ = t := t.blanks_append_trimStart
  · cases h

theorem readName_text (known : Text → Bool) (blanks name rest : Text) :
    (readName known blanks name rest).text = blanks ++ (name ++ rest) := by
  unfold readName
  split
  · rfl
  · split
    · next h => simp [Reading.text, takeEquals?_eq_some h]
    · rfl

/-- Nothing is skipped, read twice or lost. -/
theorem read_text (known : Text → Bool) (fold : Bool) (t : Text) :
    (read known fold t).text = t := by
  have ht := t.blanks_append_trimStart
  unfold read
  split
  · next h => simpa [Reading.text, Reading.plain, h] using ht
  · next c tail h =>
    rw [h] at ht
    split
    · simpa [Reading.text, Reading.plain, readNumeral] using ht
    · split
      · rw [readName_text]
        simpa using ht
      · split
        · simpa [Reading.text, Reading.plain, readNumeral] using ht
        · simpa [Reading.text, Reading.plain, readSymbol] using ht

theorem readName_lexeme (known : Text → Bool) (blanks name rest : Text) :
    (readName known blanks name rest).lexeme = name := by
  unfold readName
  split
  · rfl
  · split <;> rfl

theorem readName_blanks (known : Text → Bool) (blanks name rest : Text) :
    (readName known blanks name rest).blanks = blanks := by
  unfold readName
  split
  · rfl
  · split <;> rfl

theorem read_blanks (known : Text → Bool) (fold : Bool) (t : Text) :
    (read known fold t).blanks = t.blanks := by
  unfold read
  split
  · rfl
  · split
    · rfl
    · split
      · exact readName_blanks ..
      · split <;> rfl

/-- Only the end of a text is an empty lexeme. -/
theorem lexeme_ne_nil {known : Text → Bool} {fold : Bool} {t : Text}
    (h : (read known fold t).outcome ≠ .ok .stop) : (read known fold t).lexeme ≠ [] := by
  unfold read at h ⊢
  split at h
  · exact absurd rfl h
  · split
    · simp [readNumeral, Reading.plain]
    · split
      · simp [readName_lexeme]
      · split <;> simp [readNumeral, readSymbol, Reading.plain]

/-- Every token but the end makes the text shorter. -/
theorem read_shorter {known : Text → Bool} {fold : Bool} {t : Text}
    (h : (read known fold t).outcome ≠ .ok .stop) :
    (read known fold t).rest.length < t.length := by
  have hl := List.length_pos_iff.2 (lexeme_ne_nil h)
  have ht := congrArg List.length (read_text known fold t)
  simp only [Reading.text, List.length_append] at ht
  omega

end MatrixCalc
