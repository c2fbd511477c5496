/-!
# Text

The calculator reads and writes text as a list of characters. A place in a text is
counted in bytes of its UTF-8 form, so a character takes one to four places. Six
characters are blanks: they separate tokens and are cut off at the ends of a stored text.
-/
namespace MatrixCalc

abbrev Text := List Char

namespace Text

def size : Text → Nat
  | [] => 0
  | c :: t => c.utf8Size + size t

@[simp] theorem size_nil : size [] = 0 := rfl

@[simp] theorem size_cons (c : Char) (t : Text) : size (c :: t) = c.utf8Size + size t := rfl

@[simp] theorem size_append (s t : Text) : size (s ++ t) = size s + size t := by
  induction s with
  | nil => simp
  | cons c s ih => simp [ih, Nat.add_assoc]

@[simp] theorem size_reverse (s : Text) : size s.reverse = size s := by
  induction s with
  | nil => rfl
  | cons c s ih => simp [ih, Nat.add_comm]

theorem length_le_size (s : Text) : s.length ≤ size s := by
  induction s with
  | nil => exact Nat.le_refl 0
  | cons c s ih =>
    have := c.utf8Size_pos
    simp only [List.length_cons, size_cons]
    omega

/-- The text from the given byte on; a character that the byte falls into is dropped whole. -/
def dropBytes : Nat → Text → Text
  | 0, t => t
  | _, [] => []
  | n + 1, c :: t => dropBytes (n + 1 - c.utf8Size) t

/-- Space, tab, line feed, vertical tab, form feed and carriage return. -/
def isBlank (c : Char) : Bool :=
  c == ' ' || c == '\t' || c == '\n' || c == '\x0b' || c == '\x0c' || c == '\r'

def blanks (t : Text) : Text := t.takeWhile isBlank

def trimStart (t : Text) : Text := t.dropWhile isBlank

def trimEnd (t : Text) : Text := (t.reverse.dropWhile isBlank).reverse

@[simp] theorem blanks_append_trimStart (t : Text) : blanks t ++ trimStart t = t :=
  List.takeWhile_append_dropWhile

theorem isBlank_of_mem_blanks {t : Text} {c : Char} (h : c ∈ blanks t) : isBlank c = true := by
  induction t with
  | nil => simp [blanks] at h
  | cons d t ih =>
    by_cases hd : isBlank d = true
    · simp only [blanks, List.takeWhile_cons, hd, if_true, List.mem_cons] at h ih
      exact h.elim (fun e => e ▸ hd) ih
    · simp [blanks, hd] at h

theorem isBlank_of_trimStart_eq_cons {t r : Text} {c : Char} (h : trimStart t = c :: r) :
    isBlank c = false := by
  induction t with
  | nil => simp [trimStart] at h
  | cons d t ih =>
    by_cases hd : isBlank d = true
    · simp only [trimStart, List.dropWhile_cons, hd, if_true] at h ih
      exact ih h
    · simp only [trimStart, List.dropWhile_cons, hd] at h
      simp only [Bool.false_eq_true, if_false, List.cons.injEq] at h
      exact h.1 ▸ Bool.not_eq_true _ ▸ hd

theorem not_isAlpha_of_isDigit {c : Char} (h : c.isDigit) : ¬ c.isAlpha := by
  have hnine : c.val ≤ '9'.val := of_decide_eq_true (Bool.and_eq_true_iff.1 h).2
  intro hletter
  obtain hupper | hlower := Bool.or_eq_true_iff.1 hletter
  · have hleast : 'A'.val ≤ c.val := (of_decide_eq_true hupper).1
    exact absurd (UInt32.le_trans hleast hnine) (by decide)
  · have hleast : 'a'.val ≤ c.val := of_decide_eq_true (Bool.and_eq_true_iff.1 hlower).1
    exact absurd (UInt32.le_trans hleast hnine) (by decide)

end Text
end MatrixCalc
