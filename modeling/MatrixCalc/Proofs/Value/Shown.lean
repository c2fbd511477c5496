import MatrixCalc.Eval.Pointwise
import MatrixCalc.Proofs.Binary64.Finite
import MatrixCalc.Value.Display

/-!
# Finite values as text

The text of a finite number is a decimal numeral. A finite component is scaled by a power of ten
before it is rounded, and only this product can leave the finite numbers: where it overflows the
component is written as an infinity, else as a numeral (`number_of_finite`). A value is written as
its components with punctuation between them, so it shows an infinity exactly when one of these
products overflows, and never a NaN.
-/
namespace MatrixCalc

open Float.Model.UnpackedFloat (Sign)

namespace Decimal

/-- Digits, and a point with more digits behind it where there is a fraction. -/
inductive IsDecimal : Text → Prop
  | whole {digits : Text} (hne : digits ≠ []) (hdigits : ∀ c ∈ digits, c.isDigit) :
      IsDecimal digits
  | fraction {digits places : Text} (hne : digits ≠ []) (hdigits : ∀ c ∈ digits, c.isDigit)
      (hsome : places ≠ []) (hplaces : ∀ c ∈ places, c.isDigit) :
      IsDecimal (digits ++ '.' :: places)

def IsNumeral (t : Text) : Prop := ∃ s u, t = signText s ++ u ∧ IsDecimal u

theorem isDigit_toDigits {n : Nat} : ∀ c ∈ Nat.toDigits 10 n, c.isDigit :=
  fun _ => Nat.isDigit_of_mem_toDigits (by decide) (by decide)

theorem isDigit_zeros {k : Nat} : ∀ c ∈ List.replicate k '0', c.isDigit := by
  intro c hc
  rw [List.eq_of_mem_replicate hc]
  rfl

theorem isDecimal_text (d : Scaled) : IsDecimal d.text := by
  rw [Scaled.text]
  dsimp only
  split
  · refine .whole ?_ ?_
    · exact List.append_ne_nil_of_left_ne_nil (Nat.toDigits_ne_nil) _
    · intro c hc
      exact (List.mem_append.1 hc).elim (isDigit_toDigits c) (isDigit_zeros c)
  · generalize (-d.exponent).toNat = places
    generalize hpadded : List.replicate (places + 1 - (Nat.toDigits 10 d.coefficient).length) '0' ++
      Nat.toDigits 10 d.coefficient = padded
    have hdigits : ∀ c ∈ padded, c.isDigit := by
      intro c hc
      rw [← hpadded] at hc
      exact (List.mem_append.1 hc).elim (isDigit_zeros c) (isDigit_toDigits c)
    have hlength : places < padded.length := by
      rw [← hpadded, List.length_append, List.length_replicate]
      omega
    have hwhole : padded.take (padded.length - places) ≠ [] := by
      refine List.ne_nil_of_length_pos ?_
      rw [List.length_take]
      omega
    split
    · exact .whole hwhole fun c hc => hdigits c (List.mem_of_mem_take hc)
    · next hkept =>
      refine .fraction hwhole (fun c hc => hdigits c (List.mem_of_mem_take hc)) hkept fun c hc => ?_
      have hdropped := (List.dropWhile_sublist _).subset (List.mem_reverse.1 hc)
      exact hdigits c (List.mem_of_mem_drop (List.mem_reverse.1 hdropped))

theorem isNumeral_text {x : Float} (h : x.isFinite) : IsNumeral (text x) := by
  obtain ⟨s, hparts⟩ | ⟨s, m, e, hm, hparts⟩ := Binary64.parts_of_isFinite h <;>
    rw [text, hparts]
  · exact ⟨s, ['0'], rfl, .whole (List.cons_ne_nil _ _) (List.forall_mem_singleton.2 rfl)⟩
  · exact ⟨s, _, rfl, isDecimal_text _⟩

theorem IsDecimal.char {t : Text} (h : IsDecimal t) {c : Char} (hc : c ∈ t) :
    c.isDigit ∨ c = '.' := by
  cases h with
  | whole _ hdigits => exact .inl (hdigits c hc)
  | fraction _ hdigits _ hplaces =>
    obtain hc | hc := List.mem_append.1 hc
    · exact .inl (hdigits c hc)
    · exact (List.mem_cons.1 hc).symm.imp (hplaces c) id

theorem IsNumeral.char {t : Text} (h : IsNumeral t) {c : Char} (hc : c ∈ t) :
    c.isDigit ∨ c = '.' ∨ c = '-' := by
  obtain ⟨s, u, rfl, hu⟩ := h
  obtain hc | hc := List.mem_append.1 hc
  · cases s with
    | negative => exact .inr (.inr (List.mem_singleton.1 hc))
    | positive => cases hc
  · exact (hu.char hc).imp id .inl

end Decimal

namespace Display

open Binary64 (parts)

theorem parts_factor (precision : Nat) : ∃ n hn, n < 2 ^ 53 ∧
    parts (factor precision) = Binary64.wholeParts n hn := by
  have hlt : Nat.pow 10 (min precision maxPrecision) < 2 ^ 53 :=
    Nat.lt_of_le_of_lt (Nat.pow_le_pow_right (by decide) (Nat.min_le_right _ _)) (by decide)
  exact ⟨_, Nat.pow_pos (by decide), hlt, Binary64.parts_ofNat _ hlt⟩

variable {precision : Nat} {x : Float}

theorem isFinite_round (h : (x * factor precision).isFinite) : (round x precision).isFinite := by
  obtain ⟨n, hn, hlt, hfactor⟩ := parts_factor precision
  rw [round]
  split
  · rfl
  · exact Binary64.isFinite_div (Binary64.full_roundHalfAway h) hn hlt hfactor

theorem parts_round {s : Sign} (h : parts (x * factor precision) = .infinity s) :
    parts (round x precision) = .infinity s := by
  obtain ⟨n, hn, hlt, hfactor⟩ := parts_factor precision
  have hsame : Binary64.roundHalfAway (x * factor precision) = x * factor precision := by
    rw [Binary64.roundHalfAway, h]
  have hquotient := Binary64.div_infinity h hn hfactor
  have hnonzero : ¬ (x * factor precision / factor precision == 0) := by
    change ¬ (parts (x * factor precision / factor precision)).beq (parts 0)
    rw [hquotient]
    cases s <;> decide
  rw [round, hsame, if_neg hnonzero, hquotient]

/-- A finite number is shown as a numeral unless scaling it by the power of ten overflows. -/
theorem number_of_finite (hx : x.isFinite) (precision : Nat) :
    if (x * factor precision).isFinite then Decimal.IsNumeral (number precision x)
    else ∃ s, number precision x = Decimal.signText s ++ ['i', 'n', 'f'] := by
  obtain ⟨n, hn, hlt, hfactor⟩ := parts_factor precision
  split
  · next hproduct => exact Decimal.isNumeral_text (isFinite_round hproduct)
  · next hproduct =>
    have hfinite : (factor precision).isFinite := by
      change (parts (factor precision)).isFinite
      rw [hfactor]
      rfl
    obtain hstill | ⟨s, hs⟩ := Binary64.mul_finite_or_infinity hx hfinite
    · exact absurd hstill hproduct
    · refine ⟨s, ?_⟩
      rw [number, Decimal.text, parts_round hs]

theorem commaSeparated_eq (ts : List Text) : commaSeparated ts = [',', ' '].intercalate ts := by
  fun_induction commaSeparated ts with
  | case1 => rfl
  | case2 t => rw [List.intercalate_singleton]
  | case3 t ts hne ih =>
    rw [ih, List.intercalate_cons_of_ne_nil hne, List.append_assoc]
    rfl

theorem lines_eq (ts : List Text) : lines ts = ['\n'].intercalate ts := by
  fun_induction lines ts with
  | case1 => rfl
  | case2 t => rw [List.intercalate_singleton]
  | case3 t ts hne ih =>
    rw [ih, List.intercalate_cons_of_ne_nil hne, List.append_assoc]
    rfl

end Display

/-! ## Texts with separators -/

theorem infix_intercalate (sep : Text) {t : Text} {ts : List Text} (h : t ∈ ts) :
    t <:+: sep.intercalate ts := by
  induction ts with
  | nil => cases h
  | cons u us ih =>
    cases us with
    | nil =>
      rw [List.intercalate_singleton]
      exact List.mem_singleton.1 h ▸ List.infix_rfl
    | cons w ws =>
      rw [List.intercalate_cons_of_ne_nil (List.cons_ne_nil w ws)]
      obtain rfl | h := List.mem_cons.1 h
      · rw [List.append_assoc]
        exact (List.prefix_append _ _).isInfix
      · exact (ih h).trans (List.suffix_append _ _).isInfix

theorem mem_intercalate {sep : Text} {ts : List Text} {c : Char}
    (h : c ∈ sep.intercalate ts) : c ∈ sep ∨ ∃ t ∈ ts, c ∈ t := by
  induction ts with
  | nil => cases h
  | cons u us ih =>
    cases us with
    | nil =>
      rw [List.intercalate_singleton] at h
      exact .inr ⟨u, List.mem_cons_self, h⟩
    | cons w ws =>
      rw [List.intercalate_cons_of_ne_nil (List.cons_ne_nil w ws), List.mem_append,
        List.mem_append] at h
      obtain (h | h) | h := h
      · exact .inr ⟨u, List.mem_cons_self, h⟩
      · exact .inl h
      · exact (ih h).imp id fun ⟨t, ht, hc⟩ => ⟨t, List.mem_cons_of_mem u ht, hc⟩

namespace Value

open Display

variable {precision : Nat} {x : Float}

theorem infix_row {xs : List Float} (h : x ∈ xs) : number precision x <:+: row precision xs := by
  have hmember := infix_intercalate [',', ' '] (List.mem_map_of_mem (f := number precision) h)
  rw [row, commaSeparated_eq]
  exact hmember.trans ⟨['(', ' '], [' ', ')'], rfl⟩

theorem infix_display (precision : Nat) {v : Value} (h : x ∈ v.cells) :
    number precision x <:+: v.display precision := by
  cases v with
  | scalar y =>
    rw [List.mem_singleton.1 h]
    exact List.infix_rfl
  | vector v => exact infix_row h
  | matrix m =>
    obtain ⟨xs, hrow, hx⟩ := List.mem_flatten.1 h
    rw [display, lines_eq]
    exact (infix_row hx).trans (infix_intercalate _ (List.mem_map_of_mem hrow))

/-- What stands between the numbers. -/
def punctuation : Text := ['(', ' ', ',', ')', '\n']

theorem mem_row {xs : List Float} {c : Char} (h : c ∈ row precision xs) :
    c ∈ punctuation ∨ ∃ x ∈ xs, c ∈ number precision x := by
  have hparts : c ∈ ['(', ' '] ∨ c ∈ [',', ' '].intercalate (xs.map (number precision)) ∨
      c ∈ [' ', ')'] := by
    rw [row, commaSeparated_eq] at h
    simpa only [List.cons_append, List.mem_cons, List.mem_append, List.not_mem_nil, or_false,
      or_assoc] using h
  obtain hopening | hinside | hclosing := hparts
  · exact .inl ((by decide : ['(', ' '] ⊆ punctuation) hopening)
  · obtain hcomma | ⟨t, ht, hc⟩ := mem_intercalate hinside
    · exact .inl ((by decide : [',', ' '] ⊆ punctuation) hcomma)
    · obtain ⟨x, hx, rfl⟩ := List.mem_map.1 ht
      exact .inr ⟨x, hx, hc⟩
  · exact .inl ((by decide : [' ', ')'] ⊆ punctuation) hclosing)

theorem mem_display {v : Value} {c : Char} (h : c ∈ v.display precision) :
    c ∈ punctuation ∨ ∃ x ∈ v.cells, c ∈ number precision x := by
  cases v with
  | scalar y => exact .inr ⟨y, List.mem_singleton_self y, h⟩
  | vector v => exact mem_row h
  | matrix m =>
    rw [display, lines_eq] at h
    obtain h | ⟨t, ht, hc⟩ := mem_intercalate h
    · exact .inl ((by decide : ['\n'] ⊆ punctuation) h)
    · obtain ⟨xs, hrow, rfl⟩ := List.mem_map.1 ht
      exact (mem_row hc).imp id fun ⟨x, hx, hc⟩ => ⟨x, List.mem_flatten.2 ⟨xs, hrow, hx⟩, hc⟩

theorem not_isAlpha_of_mem_punctuation {c : Char} (h : c ∈ punctuation) : ¬ c.isAlpha := by
  have hmarks : punctuation.all fun c => !c.isAlpha := by decide
  simpa only [Bool.not_eq_true, Bool.not_eq_true'] using List.all_eq_true.1 hmarks c h

/-- A letter in the text of finite numbers belongs to an infinity. -/
theorem overflow_of_letter {v : Value} (hfinite : ∀ x ∈ v.cells, x.isFinite) {c : Char}
    (hletter : c.isAlpha) (hc : c ∈ v.display precision) :
    c ∈ ['i', 'n', 'f'] ∧ ∃ x ∈ v.cells, ¬ (x * factor precision).isFinite := by
  obtain hmark | ⟨x, hx, hnumber⟩ := mem_display hc
  · exact absurd hletter (not_isAlpha_of_mem_punctuation hmark)
  · have hshown := number_of_finite (hfinite x hx) precision
    split at hshown
    · obtain hdigit | rfl | rfl := hshown.char hnumber
      · exact absurd hletter (Text.not_isAlpha_of_isDigit hdigit)
      · exact absurd hletter (by decide)
      · exact absurd hletter (by decide)
    · next hproduct =>
      obtain ⟨s, hs⟩ := hshown
      rw [hs] at hnumber
      refine ⟨(List.mem_append.1 hnumber).resolve_left fun hsign => ?_, x, hx, hproduct⟩
      cases s with
      | negative => exact absurd hletter (by rw [List.mem_singleton.1 hsign]; decide)
      | positive => cases hsign

/-- A value of finite numbers shows an infinity exactly where scaling one of them by the power of
ten overflows. Every other component is shown as a numeral, and no component as a NaN. -/
theorem display_of_finite (v : Value) (precision : Nat) (hfinite : ∀ x ∈ v.cells, x.isFinite) :
    (∀ x ∈ v.cells, number precision x <:+: v.display precision ∧
      if (x * factor precision).isFinite then Decimal.IsNumeral (number precision x)
      else ∃ s, number precision x = Decimal.signText s ++ ['i', 'n', 'f']) ∧
    ¬ ['N', 'a', 'N'] <:+: v.display precision ∧
    (['i', 'n', 'f'] <:+: v.display precision ↔
      ∃ x ∈ v.cells, ¬ (x * factor precision).isFinite) := by
  refine ⟨fun x hx => ⟨infix_display precision hx, number_of_finite (hfinite x hx) precision⟩,
    ?_, ?_, ?_⟩
  · intro hnan
    have hletter := overflow_of_letter hfinite (c := 'N') rfl (hnan.subset List.mem_cons_self)
    exact absurd hletter.1 (by decide)
  · intro hinf
    exact (overflow_of_letter hfinite (c := 'i') rfl (hinf.subset List.mem_cons_self)).2
  · rintro ⟨x, hx, hproduct⟩
    have hshown := number_of_finite (hfinite x hx) precision
    rw [if_neg hproduct] at hshown
    obtain ⟨s, hs⟩ := hshown
    have hinside := infix_display precision hx
    rw [hs] at hinside
    exact (List.suffix_append _ _).isInfix.trans hinside

/-- The largest factorial beside two and a half. -/
def factorialAndHalf : Value := vector ⟨.two, .ofBits 0x7FA4AB7864418635, 2.5, 0, 0⟩

/-- Only the factorial is shown as an infinity. -/
theorem display_of_finite_of_factorialAndHalf :
    (∀ x ∈ factorialAndHalf.cells, x.isFinite) ∧
      ¬ ['N', 'a', 'N'] <:+: factorialAndHalf.display 3 ∧
      ['i', 'n', 'f'] <:+: factorialAndHalf.display 3 ∧
      number 3 2.5 <:+: factorialAndHalf.display 3 ∧ Decimal.IsNumeral (number 3 2.5) := by
  have hfinite : ∀ x ∈ factorialAndHalf.cells, x.isFinite := by decide +kernel
  have hoverflow : ∃ x ∈ factorialAndHalf.cells, ¬ (x * factor 3).isFinite := by decide +kernel
  have hhalf : ((2.5 : Float) * factor 3).isFinite := by decide +kernel
  obtain ⟨hcells, hnan, hinf⟩ := display_of_finite factorialAndHalf 3 hfinite
  obtain ⟨hinside, hshown⟩ := hcells 2.5 (.tail _ (.head _))
  rw [if_pos hhalf] at hshown
  exact ⟨hfinite, hnan, hinf.2 hoverflow, hinside, hshown⟩

/-- The largest factorial is a finite number, but not after the scaling of the default
precision. -/
theorem display_factorial_inf : ∃ x, Builtin.factorial [.scalar 170] = .ok (.scalar x) ∧
    x.isFinite ∧ (scalar x).display defaultPrecision = ['i', 'n', 'f'] := by
  have hbits : Builtin.factorialOf 170 = .ofBits 0x7FA4AB7864418635 := by decide +kernel
  have hwhole : Binary64.whole? 170 = some 170 := Binary64.whole?_ofNat (n := 170) (by decide)
  refine ⟨Builtin.factorialOf 170, ?_, ?_, ?_⟩
  · rw [Builtin.factorial, hwhole]
    rfl
  · rw [hbits]
    decide +kernel
  · rw [hbits]
    decide +kernel

end Value

end MatrixCalc
