import Mathlib.Data.List.DropRight
import MatrixCalc.Proofs.Checked.Assignment
import MatrixCalc.Proofs.Variables.Cycles

/-!
# The resolution pass by byte offsets

The pass keeps where a spliced text ends as a number of characters that are behind it. Counted in
bytes from the beginning of the line, the end moves with every further splice in front of it, by
the difference of two sizes. The difference is never below zero, nor is an end ever inside the
name that is replaced: the character behind a spliced text does not go on with a name
(`Pass.Marked`).
-/
namespace MatrixCalc

theorem Text.exists_append_cons (t : Text) {k : Nat} (hpos : 0 < k) (hk : k ≤ t.length) :
    ∃ front c tail, t = front ++ c :: tail ∧ tail.length + 1 = k := by
  have hlt : t.length - k < t.length := by omega
  refine ⟨t.take (t.length - k), t[t.length - k], t.drop (t.length - k + 1), ?_, ?_⟩
  · rw [← List.drop_eq_getElem_cons hlt, List.take_append_drop]
  · rw [List.length_drop]
    omega

namespace Pass

/-- The spliced texts lie inside one another, and no name goes on behind them. -/
structure Marked (p : Pass) : Prop where
  nested : p.active.Pairwise fun inner outer => outer.2 ≤ inner.2
  ended : ∀ a ∈ p.active, ∀ before behind : Text, p.rest = before ++ behind →
    behind.length = a.2 → continuesName behind = false

theorem marked_start (line : Text) : (start line).Marked := ⟨.nil, List.forall_mem_nil _⟩

theorem lt_of_mem_enclosing {left : Nat} {active : List (Text × Nat)} {a : Text × Nat}
    (h : active.Pairwise fun inner outer => outer.2 ≤ inner.2) (ha : a ∈ enclosing left active) :
    a.2 < left := by
  induction active with
  | nil => cases ha
  | cons b outer ih =>
    rw [List.pairwise_cons] at h
    by_cases hb : left ≤ b.2
    · rw [enclosing_cons_of_le hb] at ha
      exact ih h.2 ha
    · rw [enclosing_cons_of_lt (Nat.lt_of_not_le hb)] at ha
      rcases List.mem_cons.1 ha with rfl | ha
      · exact Nat.lt_of_not_le hb
      · have := h.1 a ha
        omega

/-- A text that is not left when a name is read encloses all of the name. -/
theorem Marked.le_of_mem_enclosing {p : Pass} {blanks n rest : Text} {a : Text × Nat}
    (h : p.Marked) (ht : LeadingName p.rest blanks n rest)
    (ha : a ∈ enclosing (n.length + rest.length) p.active) : a.2 ≤ rest.length := by
  have hlt := lt_of_mem_enclosing h.nested ha
  have hmem : a ∈ p.active := (List.dropWhile_sublist _).mem ha
  by_cases hle : a.2 ≤ rest.length
  · exact hle
  · exfalso
    -- The text ends inside the name, and what is left of the name goes on there.
    obtain ⟨front, c, tail, hn, htail⟩ :=
      n.exists_append_cons (k := a.2 - rest.length) (by omega) (by omega)
    have hrest : p.rest = (blanks ++ front) ++ (c :: tail ++ rest) := by
      rw [ht.eq_append, hn]
      simp only [List.append_assoc, List.cons_append]
    have hended := h.ended a hmem _ _ hrest (by simp; omega)
    have hc : isNameChar c = true := ht.isName.isNameChar c (by rw [hn]; simp)
    rw [show continuesName (c :: tail ++ rest) = isNameChar c from rfl, hc] at hended
    cases hended

theorem Marked.skip {p q : Pass} {s : Text} (h : p.Marked) (hrest : p.rest = s ++ q.rest)
    (hactive : q.active = p.active) : q.Marked := by
  refine ⟨hactive ▸ h.nested, ?_⟩
  intro a ha before behind hq hlength
  refine h.ended a (hactive ▸ ha) (s ++ before) behind ?_ hlength
  rw [hrest, hq, List.append_assoc]

theorem Marked.splice {p : Pass} {blanks n rest : Text} (h : p.Marked)
    (ht : LeadingName p.rest blanks n rest) (done value : Text) :
    Marked ⟨done, value ++ rest,
      (n, rest.length) :: enclosing (n.length + rest.length) p.active⟩ := by
  have hle := fun a => h.le_of_mem_enclosing (a := a) ht
  have hsub : (enclosing (n.length + rest.length) p.active).Sublist p.active :=
    List.dropWhile_sublist _
  refine ⟨List.pairwise_cons.2 ⟨hle, h.nested.sublist hsub⟩, ?_⟩
  intro a ha before behind hq hlength
  dsimp only at hq
  rcases List.mem_cons.1 ha with rfl | ha
  · obtain ⟨-, rfl⟩ := List.append_inj' hq hlength.symm
    exact ht.ended
  · have hshort : behind.length ≤ rest.length := by
      rw [hlength]
      exact hle a ha
    have hbehind : behind <:+ value ++ rest := hq ▸ List.suffix_append ..
    obtain ⟨s, hs⟩ := List.suffix_of_suffix_length_le hbehind (List.suffix_append ..) hshort
    refine h.ended a (hsub.mem ha) (blanks ++ (n ++ s)) behind ?_ hlength
    rw [ht.eq_append, ← hs]
    simp only [List.append_assoc]

theorem Marked.step {vars : Variables} {p q : Pass} (h : p.Marked) (hq : p.step vars = .next q) :
    q.Marked := by
  have hs := p.step_spec vars
  rw [hq] at hs
  cases hs with
  | splice ht => exact h.splice ht _ _
  | skip ht => exact h.skip ht.eq_append rfl

end Pass

namespace Checked

/-- A line whose variables are being replaced, and how far it is read. -/
structure Expanding where
  text : Text
  cursor : Nat
  /-- The names whose texts are read, the innermost first, each with the place where its text
  ends. -/
  ends : List (Text × Nat)

/-- The ends of the texts that go on behind a name, when a text of size `added` replaces it. -/
def moveEnds (added removed : Nat) (ends : List (Text × Nat)) : Option (List (Text × Nat)) :=
  ends.mapM fun a => do return (a.1, ← minus? (a.2 + added) removed)

/-- The turn at the name of a variable, which stands between two offsets. -/
def replaceName (vars : Variables) (s : Expanding) (name : Text) (start stop : Nat) :
    Option (Turn Expanding (Except ParseError Resolution)) := do
  let ends := s.ends.dropWhile fun a => a.2 ≤ start
  if ends.any (·.1 == name) then return .halt (.error ⟨start, .cyclic name⟩)
  else
    let value := (vars.get? name).getD []
    let ends ← moveEnds value.size (stop - start) ends
    let text ← replaceRange? start stop value s.text
    return .next ⟨text, start, (name, start + value.size) :: ends⟩

def step (vars : Variables) (s : Expanding) :
    Part (Turn Expanding (Except ParseError Resolution)) := do
  let t ← read vars.contains false s.text s.cursor
  match t.outcome with
  | .error fault => return .halt (.error ⟨t.start, fault⟩)
  | .ok .stop => return .halt (.ok (.expression s.text))
  | .ok (.target name) => return .halt (← assign vars name s.text t.next)
  | .ok (.reference name) => replaceName vars s name t.start t.stop
  | .ok _ => return .next { s with cursor := t.next }

def resolve (vars : Variables) (line : Text) : Part (Except ParseError Resolution) :=
  run (step vars) ⟨line, 0, []⟩

/-- Where a text ends that has the last `behind` characters of a line behind it. -/
def endOf (line : Text) (behind : Nat) : Nat := Text.size (line.rdrop behind)

theorem endOf_append_of_le (s : Text) {t : Text} {behind : Nat} (h : behind ≤ t.length) :
    endOf (s ++ t) behind = s.size + endOf t behind := by
  have hlength : (s ++ t).length - behind = s.length + (t.length - behind) := by
    rw [List.length_append]
    omega
  rw [endOf, endOf, List.rdrop, hlength, List.take_length_add_append, Text.size_append]
  rfl

theorem endOf_append_length (s t : Text) : endOf (s ++ t) t.length = s.size := by
  rw [endOf, List.rdrop_append_length]

theorem endOf_append_le_iff (s t : Text) (behind : Nat) :
    endOf (s ++ t) behind ≤ s.size ↔ t.length ≤ behind := by
  by_cases h : behind < t.length
  · have hne : t.rdrop behind ≠ [] := by
      intro hnil
      have hlength := congrArg List.length hnil
      rw [List.rdrop, List.length_take, List.length_nil] at hlength
      omega
    have hpos := Text.size_pos_of_ne_nil hne
    rw [endOf_append_of_le s (Nat.le_of_lt h)]
    unfold endOf
    omega
  · have htake : (s ++ t).rdrop behind = s.take ((s ++ t).length - behind) := by
      rw [List.rdrop, List.take_append_of_le_length]
      rw [List.length_append]
      omega
    have hsize := congrArg Text.size (List.take_append_drop ((s ++ t).length - behind) s)
    rw [Text.size_append] at hsize
    rw [endOf, htake]
    omega

/-- The active names with the places in a line where their texts end. -/
def endsIn (line : Text) (active : List (Text × Nat)) : List (Text × Nat) :=
  active.map fun a => (a.1, endOf line a.2)

theorem dropWhile_endsIn (s t : Text) (active : List (Text × Nat)) :
    (endsIn (s ++ t) active).dropWhile (fun a => a.2 ≤ s.size) =
      endsIn (s ++ t) (Pass.enclosing t.length active) := by
  induction active with
  | nil => rfl
  | cons a outer ih =>
    have hiff := endOf_append_le_iff s t a.2
    by_cases ha : t.length ≤ a.2
    · rw [Pass.enclosing_cons_of_le ha, ← ih, endsIn, List.map_cons,
        List.dropWhile_cons_of_pos (by simpa using hiff.2 ha)]
      rfl
    · rw [Pass.enclosing_cons_of_lt (Nat.lt_of_not_le ha), endsIn, List.map_cons,
        List.dropWhile_cons_of_neg (by simpa using fun h => ha (hiff.1 h))]

theorem any_endsIn (line name : Text) (active : List (Text × Nat)) :
    (endsIn line active).any (·.1 == name) = active.any (·.1 == name) := by
  rw [endsIn, List.any_map]
  rfl

/-- Where the ends are not in front of the end of the name, no difference is below zero. -/
theorem moveEnds_eq (s n rest value : Text) {active : List (Text × Nat)}
    (h : ∀ a ∈ active, a.2 ≤ rest.length) :
    moveEnds value.size n.size (endsIn (s ++ (n ++ rest)) active) =
      some (endsIn (s ++ (value ++ rest)) active) := by
  induction active with
  | nil => rfl
  | cons a outer ih =>
    have ha := h a (List.mem_cons_self ..)
    have hold : endOf (s ++ (n ++ rest)) a.2 = s.size + n.size + endOf rest a.2 := by
      rw [← List.append_assoc, endOf_append_of_le _ ha, Text.size_append]
    have hnew : endOf (s ++ (value ++ rest)) a.2 = s.size + value.size + endOf rest a.2 := by
      rw [← List.append_assoc, endOf_append_of_le _ ha, Text.size_append]
    have hmoved : minus? (endOf (s ++ (n ++ rest)) a.2 + value.size) n.size =
        some (endOf (s ++ (value ++ rest)) a.2) := by
      rw [hold, hnew]
      exact minus?_eq_some_iff.2 (by omega)
    have houter := ih fun b hb => h b (List.mem_cons_of_mem a hb)
    unfold moveEnds at houter ⊢
    rw [endsIn, List.map_cons, List.mapM_cons, hmoved]
    change (moveEnds _ _ (endsIn _ outer)).bind _ = _
    rw [moveEnds, houter]
    rfl

/-- The pass with its places counted from the beginning of the line. -/
def Expanding.ofPass (p : Pass) : Expanding := ⟨p.text, p.offset, endsIn p.text p.active⟩

theorem Expanding.ofPass_splice (p : Pass) (r : Reading) (name value : Text) :
    Expanding.ofPass (p.splice r name value) =
      ⟨p.done.reverse ++ r.blanks ++ (value ++ r.rest), p.done.size + r.blanks.size,
        (name, p.done.size + r.blanks.size + value.size) ::
          endsIn (p.done.reverse ++ r.blanks ++ (value ++ r.rest))
            (Pass.enclosing (r.lexeme.length + r.rest.length) p.active)⟩ := by
  have htext : (p.splice r name value).text = p.done.reverse ++ r.blanks ++ (value ++ r.rest) := by
    simp only [Pass.text, Pass.splice, List.reverse_append, List.reverse_reverse]
  have hoffset : (p.splice r name value).offset = p.done.size + r.blanks.size := by
    simp only [Pass.offset, Pass.splice, Text.size_append, Text.size_reverse, Nat.add_comm]
  have hend := endOf_append_length (p.done.reverse ++ r.blanks ++ value) r.rest
  simp only [List.append_assoc, Text.size_append, Text.size_reverse, ← Nat.add_assoc] at hend
  rw [Expanding.ofPass, htext, hoffset]
  simp only [Pass.splice, endsIn, List.map_cons, List.append_assoc, hend]

theorem Expanding.ofPass_skip {p : Pass} {blanks lexeme rest : Text} {outcome : Except Fault Token}
    (h : p.rest = blanks ++ (lexeme ++ rest)) :
    Expanding.ofPass (p.skip ⟨blanks, lexeme, [], rest, outcome⟩) =
      ⟨p.text, p.done.size + blanks.size + lexeme.size, endsIn p.text p.active⟩ := by
  have htext : (p.skip ⟨blanks, lexeme, [], rest, outcome⟩).text = p.text := by
    simp only [Pass.text, Pass.skip, h, List.append_nil, List.reverse_append, List.reverse_reverse,
      List.append_assoc]
  have hoffset : (p.skip ⟨blanks, lexeme, [], rest, outcome⟩).offset =
      p.done.size + blanks.size + lexeme.size := by
    simp only [Pass.offset, Pass.skip, Text.size_append, Text.size_reverse, Text.size_nil]
    omega
  rw [Expanding.ofPass, htext, hoffset]
  rfl

/-- What a line is resolved to when the pass ends so. -/
def conclude (vars : Variables) : Except ParseError Verdict → Except ParseError Resolution
  | .error e => .error e
  | .ok (.expression t) => .ok (.expression t)
  | .ok (.target name offset behind) =>
    (vars.assignment name offset behind).map (.assigned name)

theorem resolve_eq_conclude (vars : Variables) (line : Text) :
    vars.resolve line = conclude vars ((Pass.start line).run vars) := by
  unfold Variables.resolve
  rcases (Pass.start line).run vars with e | ⟨t | ⟨name, offset, behind⟩⟩
  · rfl
  · rfl
  · change vars.assignment name offset behind >>= _ = (vars.assignment name offset behind).map _
    cases vars.assignment name offset behind <;> rfl

theorem replaceName_eq (vars : Variables) {p : Pass} {blanks n rest : Text} (h : p.Marked)
    (ht : LeadingName p.rest blanks n rest) :
    replaceName vars (.ofPass p) n (p.done.size + blanks.size)
        (p.done.size + blanks.size + n.size) =
      some (if (Pass.enclosing (n.length + rest.length) p.active).any (·.1 == n) then
          .halt (.error ⟨p.done.size + blanks.size, .cyclic n⟩)
        else .next (.ofPass (p.splice ⟨blanks, n, [], rest, .ok (.reference n)⟩ n
          ((vars.get? n).getD [])))) := by
  have hle := fun a => h.le_of_mem_enclosing (a := a) ht
  have hpass : Expanding.ofPass p = ⟨p.done.reverse ++ blanks ++ (n ++ rest), p.offset,
      endsIn (p.done.reverse ++ blanks ++ (n ++ rest)) p.active⟩ := by
    rw [List.append_assoc, ← ht.eq_append]
    rfl
  have hsize : Text.size (p.done.reverse ++ blanks) = p.done.size + blanks.size := by
    rw [Text.size_append, Text.size_reverse]
  have hends := dropWhile_endsIn (p.done.reverse ++ blanks) (n ++ rest) p.active
  have hreplace := replaceRange?_append (p.done.reverse ++ blanks) n rest ((vars.get? n).getD [])
  rw [hsize] at hends hreplace
  rw [List.length_append] at hends
  rw [replaceName, hpass]
  dsimp only
  rw [hends, hreplace, any_endsIn, Nat.add_sub_cancel_left, moveEnds_eq _ n rest _ hle]
  by_cases hcyclic : (Pass.enclosing (n.length + rest.length) p.active).any (·.1 == n) = true
  · rw [if_pos hcyclic, if_pos hcyclic]
    rfl
  · rw [if_neg hcyclic, if_neg hcyclic, Expanding.ofPass_splice]
    rfl

theorem step_eq {vars : Variables} {p : Pass} (h : p.Marked) :
    step vars (.ofPass p) = .some ((p.step vars).map .ofPass (conclude vars)) := by
  have hread := read_eq vars.contains false p.done.reverse p.rest
  rw [Text.size_reverse] at hread
  have hr := read_spec vars.contains p.rest
  unfold step Pass.step
  rw [show Expanding.text _ = p.done.reverse ++ p.rest from rfl,
    show Expanding.cursor _ = p.done.size from rfl, hread, liftM_some, some_bind]
  generalize MatrixCalc.read vars.contains false p.rest = r at hr
  cases hr with
  | stop => rfl
  | fault ho =>
    simp only [Located.ofReading, ho]
    rfl
  | @target blanks n behind rest ht =>
    have hassign := assign_eq vars n (p.done.reverse ++ (blanks ++ (n ++ behind))) rest
    simp only [List.append_assoc, Text.size_append, Text.size_reverse, ← Nat.add_assoc] at hassign
    simp only [Located.ofReading, Reading.next, Reading.stop, Reading.start, ht.eq_append, hassign,
      some_bind]
    rfl
  | @reference blanks n rest ht =>
    have hreplace := replaceName_eq vars h ht
    simp only [Located.ofReading, Reading.stop, Reading.start, hreplace, liftM_some]
    dsimp only [Pass.offset]
    by_cases hcyclic : (Pass.enclosing (n.length + rest.length) p.active).any (·.1 == n) = true
    · rw [if_pos hcyclic, if_pos hcyclic]
      rfl
    · rw [if_neg hcyclic, if_neg hcyclic]
      rfl
  | @kept blanks lexeme rest token ht hstop htarget href =>
    have heq : p.rest = blanks ++ (lexeme ++ rest) := by rw [ht.eq_append, List.append_assoc]
    cases token with
    | stop => exact absurd rfl hstop
    | target n => exact absurd rfl (htarget n)
    | reference n => exact absurd rfl (href n)
    | _ =>
      dsimp only
      rw [Turn.map, Expanding.ofPass_skip heq]
      rfl

/-- No line is refused, whatever the table holds, and all lines are resolved as by the pass. -/
theorem resolve_eq (vars : Variables) (line : Text) :
    resolve vars line = .some (vars.resolve line) := by
  have hnext : ∀ p q : Pass, p.Marked → (Pass.loop vars).turn p = .next q → q.Marked :=
    fun _ _ h hq => h.step hq
  rw [resolve_eq_conclude]
  exact run_eq (fun _ => step_eq) hnext (Pass.marked_start line)

end Checked
end MatrixCalc
