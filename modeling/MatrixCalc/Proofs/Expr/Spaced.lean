import MatrixCalc.Proofs.Expr.Spelling
import Mathlib.Data.List.Forall2

/-!
# Spaced tokens

Tokens with a blank between any two can be read back from their text, so there is a text for every
phrase of tokens that have a lexeme. The lexemes are the symbols, the keywords and the numerals
(`Word`), so words that make up a phrase are a text that is parsed. With this the parser accepts
exactly what the grammar derives (`parser_exact`).
-/
namespace MatrixCalc

/-- A place where every lexeme ends. -/
def Interrupted (t : Text) : Prop := ∀ c ∈ t.head?, c = ' '

/-- The lexeme reads as the token wherever a blank or the end follows. -/
def Writes (lexeme : Text) (token : Token) : Prop :=
  ∀ known fold rest, Interrupted rest →
    read known fold (' ' :: (lexeme ++ rest)) = .plain [' '] lexeme rest (.ok token)

/-- The text holds lexemes of the tokens, a blank in front of each. -/
inductive Spaced : List Token → Text → Prop
  | nil : Spaced [] []
  | cons {token : Token} {lexeme : Text} {ts : List Token} {t : Text} (h : Writes lexeme token)
      (hne : token ≠ .stop) (ht : Spaced ts t) : Spaced (token :: ts) (' ' :: (lexeme ++ t))

namespace Spaced

theorem append {ts us : List Token} {t u : Text} (ht : Spaced ts t) (hu : Spaced us u) :
    Spaced (ts ++ us) (t ++ u) := by
  induction ht with
  | nil => exact hu
  | cons h hne _ ih =>
    rw [List.cons_append, List.cons_append, List.append_assoc]
    exact .cons h hne ih

theorem replicate {token : Token} {lexeme : Text} (h : Writes lexeme token)
    (hne : token ≠ .stop) (n : Nat) :
    Spaced (List.replicate n token) (List.replicate n (' ' :: lexeme)).flatten := by
  induction n with
  | zero => exact .nil
  | succ n ih => exact .cons h hne ih

theorem interrupted {ts : List Token} {t : Text} (h : Spaced ts t) : Interrupted t := by
  cases h <;> simp [Interrupted]

/-- Spaced tokens are read back. -/
theorem spelled {ts : List Token} {t : Text} (h : Spaced ts t) (known : Text → Bool)
    (fold : Bool) : Spelled known t (flagged fold ts) := by
  induction h generalizing fold with
  | nil => rfl
  | cons h hne ht ih =>
    rw [flagged_cons, Spelled, h known fold _ ht.interrupted]
    exact ⟨rfl, hne, ih _⟩

end Spaced

/-- The token has a lexeme. -/
def Writable (token : Token) : Prop := token ≠ .stop ∧ ∃ lexeme, Writes lexeme token

theorem exists_spaced {ts : List Token} (h : ∀ token ∈ ts, Writable token) :
    ∃ t, Spaced ts t := by
  induction ts with
  | nil => exact ⟨[], .nil⟩
  | cons token ts ih =>
    obtain ⟨hne, lexeme, hw⟩ := h token (List.mem_cons_self ..)
    obtain ⟨t, ht⟩ := ih fun token' htoken => h token' (List.mem_cons_of_mem _ htoken)
    exact ⟨_, .cons hw hne ht⟩

/-- A phrase of spaced tokens is parsed, when it fits into the levels. -/
theorem parse_of_spaced {p : Phrase (.chain .sum)} {t : Text} (h : Spaced p.tokens t)
    (hp : p.levels ≤ maxDepth) (known : Text → Bool) : Expr.parse known t = .ok p.tree := by
  rw [parse_eq_ok_iff_spelled]
  refine ⟨p, ?_, hp, rfl⟩
  rw [p.spelling_eq]
  exact h.spelled known _

theorem Interrupted.startsNumeral {t : Text} (h : Interrupted t) : startsNumeral t = false := by
  cases t with
  | nil => rfl
  | cons c t =>
    obtain rfl := h c rfl
    rfl

theorem Interrupted.continuesName {t : Text} (h : Interrupted t) : continuesName t = false := by
  cases t with
  | nil => rfl
  | cons c t =>
    obtain rfl := h c rfl
    rfl

theorem isBlank_of_mem_blank : ∀ c ∈ [' '], Text.isBlank c = true :=
  List.forall_mem_singleton.2 rfl

theorem writes_numeral {run : Text} {x : Float} (hrun : ∀ c ∈ run, Decimal.isNumeralChar c = true)
    (hvalue : Decimal.value? run = some x) : Writes run (.number x) := by
  intro known fold rest hrest
  have hne : run ≠ [] := by
    rintro rfl
    exact absurd hvalue (by decide +revert)
  have hread : read known fold ([' '] ++ (run ++ rest)) = readNumeral [' '] run rest :=
    read_numeral isBlank_of_mem_blank hne hrun hrest.startsNumeral
  rw [readNumeral, hvalue] at hread
  exact hread

theorem writes_bang : Writes ['!'] .bang := by
  intro known fold rest _
  cases fold <;> rfl

theorem writes_leftParen : Writes ['('] .leftParen := by
  intro known fold rest _
  cases fold <;> rfl

theorem writes_rightParen : Writes [')'] .rightParen := by
  intro known fold rest _
  cases fold <;> rfl

theorem writes_comma : Writes [','] .comma := by
  intro known fold rest _
  cases fold <;> rfl

theorem symbol?_operator (op : Operator) : symbol? op.symbol = some (.operator op) := by
  unfold symbol?
  rw [Operator.ofSymbol?_symbol]

/-- A sign in front of a blank belongs to no numeral. -/
theorem writes_operator (op : Operator) : Writes [op.symbol] (.operator op) := by
  intro known fold rest hrest
  have hfold : (fold && isSign op.symbol && startsNumeral rest) = false := by
    rw [hrest.startsNumeral, Bool.and_false]
  have hread : read known fold (' ' :: op.symbol :: rest) =
      if fold && isSign op.symbol && startsNumeral rest then
        readNumeral [' '] (op.symbol :: rest.takeWhile Decimal.isNumeralChar)
          (rest.dropWhile Decimal.isNumeralChar)
      else readSymbol [' '] op.symbol rest := by
    cases op <;> rfl
  rw [List.singleton_append, hread, hfold, if_neg Bool.false_ne_true, readSymbol,
    symbol?_operator]

theorem Function.isName_of_mem_keywords {f : Function} (hf : f ∈ keywords) :
    IsName f.name.toList := by
  have hall : ∀ f ∈ keywords, IsName f.name.toList := by decide +kernel
  exact hall f hf

theorem Function.ofKeyword?_name {f : Function} (hf : f ∈ keywords) :
    ofKeyword? f.name.toList = some f := by
  have hall : ∀ f ∈ keywords, ofKeyword? f.name.toList = some f := by decide +kernel
  exact hall f hf

theorem writes_keyword {f : Function} (hf : f ∈ Function.keywords) :
    Writes f.name.toList (.function f) := by
  intro known fold rest hrest
  have hread : read known fold ([' '] ++ (f.name.toList ++ rest)) =
      readName known [' '] f.name.toList rest :=
    read_name isBlank_of_mem_blank (Function.isName_of_mem_keywords hf) hrest.continuesName
  rw [readName, Function.ofKeyword?_name hf] at hread
  exact hread

/-! ## Words -/

/-- The lexemes of a token: its symbol, the name of its function, or a run of digits and points
with its value. -/
inductive Word : Text → Token → Prop
  | numeral {run : Text} {x : Float} (hrun : ∀ c ∈ run, Decimal.isNumeralChar c = true)
      (hvalue : Decimal.value? run = some x) : Word run (.number x)
  | operator (op : Operator) : Word [op.symbol] (.operator op)
  | bang : Word ['!'] .bang
  | leftParen : Word ['('] .leftParen
  | rightParen : Word [')'] .rightParen
  | comma : Word [','] .comma
  | keyword {f : Function} (hf : f ∈ Function.keywords) : Word f.name.toList (.function f)

theorem Word.writes {lexeme : Text} {token : Token} (h : Word lexeme token) :
    Writes lexeme token := by
  cases h with
  | numeral hrun hvalue => exact writes_numeral hrun hvalue
  | operator op => exact writes_operator op
  | bang => exact writes_bang
  | leftParen => exact writes_leftParen
  | rightParen => exact writes_rightParen
  | comma => exact writes_comma
  | keyword hf => exact writes_keyword hf

theorem Word.ne_stop {lexeme : Text} {token : Token} (h : Word lexeme token) : token ≠ .stop := by
  cases h <;> nofun

theorem Word.writable {lexeme : Text} {token : Token} (h : Word lexeme token) : Writable token :=
  ⟨h.ne_stop, lexeme, h.writes⟩

theorem Word.spaced {lexeme : Text} {token : Token} (h : Word lexeme token) {ts : List Token}
    {t : Text} (ht : Spaced ts t) : Spaced (token :: ts) (' ' :: (lexeme ++ t)) :=
  .cons h.writes h.ne_stop ht

theorem word_one : Word ['1'] (.number 1) :=
  .numeral (List.forall_mem_singleton.2 rfl) (by decide)

end MatrixCalc
