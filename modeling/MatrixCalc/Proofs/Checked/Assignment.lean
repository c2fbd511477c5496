import MatrixCalc.Proofs.Checked.Loop
import MatrixCalc.Proofs.Checked.Reading
import MatrixCalc.Proofs.Variables.Locality

/-!
# An assignment at an offset

The assigned text is trimmed and expanded where it stands: behind the equals sign, in the line
that holds it. The places in the line are those of the pass through the assigned text, with all
that stands in front of it added.
-/
namespace MatrixCalc

namespace Text

theorem trimEnd_append_of_eq_nil {t : Text} (h : t.trimEnd = []) (s : Text) :
    (s ++ t).trimEnd = s.trimEnd := by
  have hdrop : t.reverse.dropWhile isBlank = [] := List.reverse_eq_nil_iff.1 h
  rw [trimEnd, List.reverse_append, List.dropWhile_append, hdrop]
  rfl

theorem trimEnd_append_of_ne_nil {t : Text} (h : t.trimEnd ≠ []) (s : Text) :
    (s ++ t).trimEnd = s ++ t.trimEnd := by
  have hdrop : t.reverse.dropWhile isBlank ≠ [] := fun hnil => h (by rw [trimEnd, hnil]; rfl)
  rw [trimEnd, List.reverse_append, List.dropWhile_append, if_neg (by simpa using hdrop),
    List.reverse_append, List.reverse_reverse]
  rfl

theorem size_pos_of_ne_nil {t : Text} (h : t ≠ []) : 0 < t.size := by
  have hlength := List.length_pos_iff.2 h
  have hsize := t.length_le_size
  omega

theorem size_trimEnd_le (t : Text) : t.trimEnd.size ≤ t.size := by
  obtain ⟨blanks, -, ht⟩ := t.exists_trimEnd_append
  have hsize := congrArg Text.size ht
  rw [Text.size_append] at hsize
  omega

end Text

namespace SelfPass

theorem exists_keep {vars : Variables} {name : Text} {p q : SelfPass}
    (h : p.step vars name = .next q) : ∃ r kept, q = p.keep r kept := by
  unfold step at h
  dsimp only at h
  split at h
  · cases h
  · cases h
  · cases h
  · cases h
    exact ⟨_, _, rfl⟩

theorem text_keep {p : SelfPass} {r : Reading} (h : p.rest = r.blanks ++ (r.lexeme ++ r.rest)) :
    (p.keep r r.lexeme).text = p.text := by
  simp only [text, keep, h, List.reverse_append, List.reverse_reverse, List.append_assoc]

end SelfPass

namespace Checked

/-- A line whose assigned text is being expanded, and how far it is read. -/
structure Assigning where
  text : Text
  cursor : Nat

def expandStep (vars : Variables) (name : Text) (s : Assigning) :
    Part (Turn Assigning (Except ParseError Text)) := do
  let t ← read vars.contains false s.text s.cursor
  match t.outcome with
  | .error fault => return .halt (.error ⟨t.start, fault⟩)
  | .ok .stop => return .halt (.ok s.text)
  | .ok (.target _) => return .halt (.error ⟨← minus? t.next 1, .strayCharacter '='⟩)
  | .ok token =>
    if token = .reference name then
      let value := (vars.get? name).getD []
      return .next ⟨← replaceRange? t.start t.stop value s.text, t.start + value.size⟩
    else return .next ⟨s.text, t.next⟩

/-- Stores what stands behind the offset `start` of a line, where its equals sign ends. -/
def assign (vars : Variables) (name text : Text) (start : Nat) :
    Part (Except ParseError Resolution) := do
  let behind ← startingAt? start text
  let start := start + (← minus? behind.size behind.trimStart.size)
  let text ← upTo? text.trimEnd.size text
  if text.size ≤ start then return .error ⟨start, .nothingAssigned name⟩
  else
    match ← run (expandStep vars name) ⟨text, start⟩ with
    | .error e => return .error e
    | .ok text => return .ok (.assigned name (← startingAt? start text))

/-- The pass through an assigned text with `front` in front of the text. -/
def Assigning.behind (front : Text) (p : SelfPass) : Assigning := ⟨front ++ p.text, p.cursor⟩

/-- The place of the unread text is counted from the beginning of the line. -/
def Aligned (front : Text) (p : SelfPass) : Prop := p.cursor = front.size + p.done.size

variable {vars : Variables} {name : Text}

theorem read_behind {front : Text} {p : SelfPass} (h : Aligned front p) :
    read vars.contains false (front ++ p.text) p.cursor =
      some (.ofReading (MatrixCalc.read vars.contains false p.rest) p.cursor) := by
  have hread := read_eq vars.contains false (front ++ p.done.reverse) p.rest
  rwa [Text.size_append, Text.size_reverse, List.append_assoc, ← show p.cursor = _ from h] at hread

/-- What is kept in the place of a token replaces it in the line. -/
theorem replaceRange?_behind {front blanks n rest value : Text} {p : SelfPass}
    (h : Aligned front p) (ht : p.rest = blanks ++ (n ++ rest)) :
    replaceRange? (p.cursor + blanks.size) (p.cursor + blanks.size + n.size) value
        (front ++ p.text) =
      some (front ++ (((blanks ++ value).reverse ++ p.done).reverse ++ rest)) := by
  have hreplace := replaceRange?_append (front ++ (p.done.reverse ++ blanks)) n rest value
  simp only [Text.size_append, Text.size_reverse, ← Nat.add_assoc,
    ← show p.cursor = _ from h, List.append_assoc] at hreplace
  rw [SelfPass.text, ht, hreplace]
  simp only [List.reverse_append, List.reverse_reverse, List.append_assoc]

theorem expandStep_eq {front : Text} {p : SelfPass} (h : Aligned front p) :
    expandStep vars name (.behind front p) =
      .some ((p.step vars name).map (.behind front) (·.map (front ++ ·))) := by
  have hr := read_spec vars.contains p.rest
  unfold expandStep SelfPass.step
  rw [show Assigning.text _ = front ++ p.text from rfl, show Assigning.cursor _ = p.cursor from rfl,
    read_behind h, liftM_some, some_bind]
  generalize MatrixCalc.read vars.contains false p.rest = r at hr
  cases hr with
  | stop => rfl
  | fault ho =>
    simp only [Located.ofReading, ho]
    rfl
  | @target blanks n behind rest ht =>
    have hn := Text.size_pos_of_ne_nil ht.isName.ne_nil
    have hnext : 1 ≤ p.cursor + blanks.size + n.size + behind.size := by omega
    simp only [Located.ofReading, Reading.next, Reading.stop, Reading.start, minus?_of_le hnext,
      liftM_some, some_bind]
    rfl
  | @reference blanks n rest ht =>
    simp only [Located.ofReading, Reading.next, Reading.stop, Reading.start, Text.size_nil,
      Nat.add_zero, replaceRange?_behind h ht.eq_append, liftM_some, some_bind]
    by_cases hn : n = name
    · subst hn
      rw [if_pos rfl, if_pos rfl]
      rfl
    · have hname : Token.reference n ≠ .reference name := by simpa using hn
      have htext := SelfPass.text_keep (p := p) (r := ⟨blanks, n, [], rest, .ok (.reference n)⟩)
        ht.eq_append
      rw [if_neg hname, if_neg hname, Turn.map, Assigning.behind, htext]
      rfl
  | @kept blanks lexeme rest token ht hstop htarget href =>
    have hname : token ≠ .reference name := href name
    have heq : p.rest = blanks ++ (lexeme ++ rest) := by rw [ht.eq_append, List.append_assoc]
    have htext := SelfPass.text_keep (p := p) (r := ⟨blanks, lexeme, [], rest, .ok token⟩) heq
    cases token with
    | stop => exact absurd rfl hstop
    | target n => exact absurd rfl (htarget n)
    | _ =>
      simp only [Located.ofReading, Reading.next, Reading.stop, Reading.start, Text.size_nil,
        Nat.add_zero]
      rw [if_neg hname, if_neg hname, Turn.map, Assigning.behind, htext]
      rfl

theorem Aligned.step {front : Text} {p q : SelfPass} (h : Aligned front p)
    (hq : p.step vars name = .next q) : Aligned front q := by
  obtain ⟨r, kept, rfl⟩ := SelfPass.exists_keep hq
  unfold Aligned at h ⊢
  simp only [SelfPass.keep, Reading.start, Text.size_append, Text.size_reverse]
  omega

theorem run_expandStep (front t : Text) :
    run (expandStep vars name) ⟨front ++ t, front.size⟩ =
      .some ((vars.expandSelf name front.size t).map (front ++ ·)) := by
  have hnext : ∀ p q : SelfPass, Aligned front p → (SelfPass.loop vars name).turn p = .next q →
      Aligned front q := fun _ _ h hq => h.step hq
  have hstart : Aligned front (.start front.size t) := rfl
  exact run_eq (fun _ => expandStep_eq) hnext hstart

theorem upTo?_trimEnd (t : Text) : upTo? t.trimEnd.size t = some t.trimEnd := by
  obtain ⟨blanks, -, ht⟩ := t.exists_trimEnd_append
  have h := upTo?_append t.trimEnd blanks
  rwa [← ht] at h

/-- Behind any text, an assignment stores what it stores of the text behind the equals sign. -/
theorem assign_eq (vars : Variables) (name front behind : Text) :
    assign vars name (front ++ behind) front.size =
      .some ((vars.assignment name front.size behind).map (.assigned name)) := by
  have hsplit : front ++ behind = (front ++ behind.blanks) ++ behind.trimStart := by
    rw [List.append_assoc, Text.blanks_append_trimStart]
  have hstart : front.size + behind.blanks.size = (front ++ behind.blanks).size :=
    (Text.size_append _ _).symm
  unfold assign Variables.assignment
  simp only [startingAt?_append, minus?_trimStart, upTo?_trimEnd, liftM_some, some_bind, hstart]
  generalize front ++ behind.blanks = front at hsplit
  rw [hsplit]
  by_cases hnil : behind.trimStart.trimEnd = []
  · have hle : (front ++ behind.trimStart).trimEnd.size ≤ front.size := by
      rw [Text.trimEnd_append_of_eq_nil hnil]
      exact Text.size_trimEnd_le front
    rw [if_pos hle, if_pos hnil]
    rfl
  · have hpos := Text.size_pos_of_ne_nil hnil
    have htrim := Text.trimEnd_append_of_ne_nil hnil front
    have hlt : ¬ (front ++ behind.trimStart).trimEnd.size ≤ front.size := by
      rw [htrim, Text.size_append]
      omega
    rw [if_neg hlt, if_neg hnil, htrim, run_expandStep, some_bind]
    cases vars.expandSelf name front.size behind.trimStart.trimEnd with
    | error e => rfl
    | ok value =>
      simp only [Except.map, startingAt?_append, liftM_some, some_bind]
      rfl

end Checked
end MatrixCalc
