import MatrixCalc.Text

/-!
# Texts by byte offsets, with refusals

The calculator takes texts apart by their characters, where nothing can go wrong. The modules on
checked evaluation do its work with byte offsets and indices instead. An offset that lies behind
the end of a text or inside a character is refused, and so is a difference below zero: the result
of a refused access is `none`.
-/
namespace MatrixCalc.Checked

/-- The difference of two sizes, unless it is below zero. -/
def minus? (m n : Nat) : Option Nat := if n ≤ m then some (m - n) else none

theorem minus?_of_le {m n : Nat} (h : n ≤ m) : minus? m n = some (m - n) := if_pos h

theorem minus?_eq_some_iff {m n k : Nat} : minus? m n = some k ↔ m = n + k := by
  unfold minus?
  split
  · rw [Option.some.injEq]
    omega
  · simp only [reduceCtorEq, false_iff]
    omega

/-- The parts of a text in front of an offset and from there on. -/
def splitAt? : Nat → Text → Option (Text × Text)
  | 0, t => some ([], t)
  | _ + 1, [] => none
  | n + 1, c :: t => do
    let (front, behind) ← splitAt? (← minus? (n + 1) c.utf8Size) t
    return (c :: front, behind)

def upTo? (stop : Nat) (t : Text) : Option Text := (splitAt? stop t).map (·.1)

def startingAt? (start : Nat) (t : Text) : Option Text := (splitAt? start t).map (·.2)

def slice? (start stop : Nat) (t : Text) : Option Text := do startingAt? start (← upTo? stop t)

/-- The text with another one between two offsets, which must be in order. -/
def replaceRange? (start stop : Nat) (value t : Text) : Option Text := do
  let front ← upTo? start t
  let behind ← startingAt? stop t
  if start ≤ stop then return front ++ (value ++ behind) else none

@[simp] theorem splitAt?_append (s t : Text) : splitAt? s.size (s ++ t) = some (s, t) := by
  induction s with
  | nil => cases t <;> rfl
  | cons c s ih =>
    obtain ⟨n, hn⟩ := Nat.exists_eq_add_one_of_ne_zero (Nat.ne_of_gt c.utf8Size_pos)
    have hsize : Text.size (c :: s) = n + Text.size s + 1 := by
      rw [Text.size_cons, hn, Nat.add_right_comm]
    have hminus : minus? (n + Text.size s + 1) c.utf8Size = some (Text.size s) :=
      minus?_eq_some_iff.2 (by omega)
    rw [hsize, List.cons_append, splitAt?, hminus, Option.bind_eq_bind, Option.bind_some, ih]
    rfl

@[simp] theorem upTo?_append (s t : Text) : upTo? s.size (s ++ t) = some s := by
  rw [upTo?, splitAt?_append]
  rfl

@[simp] theorem startingAt?_append (s t : Text) : startingAt? s.size (s ++ t) = some t := by
  rw [startingAt?, splitAt?_append]
  rfl

theorem slice?_append (s m t : Text) :
    slice? s.size (s.size + m.size) (s ++ (m ++ t)) = some m := by
  rw [slice?, ← Text.size_append, ← List.append_assoc, upTo?_append]
  exact startingAt?_append s m

theorem replaceRange?_append (s m t value : Text) :
    replaceRange? s.size (s.size + m.size) value (s ++ (m ++ t)) = some (s ++ (value ++ t)) := by
  have hbehind : startingAt? (s.size + m.size) (s ++ (m ++ t)) = some t := by
    rw [← Text.size_append, ← List.append_assoc, startingAt?_append]
  rw [replaceRange?, upTo?_append, hbehind]
  exact if_pos (Nat.le_add_right _ _)

theorem minus?_trimStart (t : Text) : minus? t.size t.trimStart.size = some t.blanks.size := by
  have hsize := congrArg Text.size t.blanks_append_trimStart
  rw [Text.size_append] at hsize
  exact minus?_eq_some_iff.2 (by omega)

end MatrixCalc.Checked
