import Mathlib.Data.List.DropRight
import MatrixCalc.Proofs.Checked.Assignment
import MatrixCalc.Proofs.Expr.Naming
import MatrixCalc.Proofs.Token.Tiles
import MatrixCalc.Proofs.Variables.Fusion
import MatrixCalc.Proofs.Variables.Termination

/-!
# Where the errors of a line stand

An error of a line that names something stands where that is found, in the line as it is when
reading it ends: texts of variables may have been spliced in, and an assignment has lost the blanks
at its end. Both passes count the places of their text (`Pass.locates_step`,
`SelfPass.locates_step`), and as long as nothing is replaced the text is what was typed.
-/
namespace MatrixCalc

open Text

namespace Loop

variable {σ ρ : Type} (l : Loop σ ρ)

theorem states_ne_nil (s : σ) : l.states s ≠ [] := by
  rw [states]
  split <;> exact List.cons_ne_nil _ _

/-- The state in which the loop halts. -/
def last (s : σ) : σ := (l.states s).getLast (l.states_ne_nil s)

/-- The states from which the loop goes on. -/
def passed (s : σ) : List σ := (l.states s).dropLast

variable {s s' : σ} {result : ρ}

theorem last_of_halt (h : l.turn s = .halt result) : l.last s = s :=
  List.getLast_congr _ (List.cons_ne_nil _ _) (l.states_of_halt h)

theorem last_of_next (h : l.turn s = .next s') : l.last s = l.last s' :=
  (List.getLast_congr _ (List.cons_ne_nil _ _) (l.states_of_next h)).trans
    (List.getLast_cons (l.states_ne_nil s'))

theorem passed_of_halt (h : l.turn s = .halt result) : l.passed s = [] := by
  rw [passed, l.states_of_halt h]
  rfl

theorem passed_of_next (h : l.turn s = .next s') : l.passed s = s :: l.passed s' := by
  rw [passed, l.states_of_next h, List.dropLast_cons_of_ne_nil (l.states_ne_nil s')]
  rfl

theorem turn_last (s : σ) : l.turn (l.last s) = .halt (l.run s) := by
  refine l.run_induct (motive := fun s result => l.turn (l.last s) = .halt result) ?_ ?_ s
  · intro s result h
    rwa [l.last_of_halt h]
  · intro s s' result h ih
    rwa [l.last_of_next h]

/-- What every turn that does not halt hands on holds in the state in which the loop halts. -/
theorem last_induct {motive : σ → Prop} (hs : motive s)
    (next : ∀ t ∈ l.passed s, ∀ t', l.turn t = .next t' → motive t → motive t') :
    motive (l.last s) := by
  revert hs next
  refine l.run_induct (motive := fun s _ => motive s →
    (∀ t ∈ l.passed s, ∀ t', l.turn t = .next t' → motive t → motive t') →
      motive (l.last s)) ?_ ?_ s
  · intro s result h hs _
    rwa [l.last_of_halt h]
  · intro s s' result h ih hs next
    rw [l.passed_of_next h, List.forall_mem_cons] at next
    rw [l.last_of_next h]
    exact ih (next.1 s' h hs) next.2

end Loop

/-- The name that the text begins with behind blanks, when it is a reference. -/
def reference? (known : Text → Bool) (t : Text) : Option Text :=
  match (read known false t).outcome with
  | .ok (.reference n) => some n
  | _ => none

namespace Pass

/-- The name that the next step replaces by its text, if it goes on. -/
def replaced? (vars : Variables) (p : Pass) : Option Text := reference? vars.contains p.rest

/-- What a step says of places in the text. Where it goes on without replacing a name it leaves the
text as it is. -/
inductive Locates (vars : Variables) (p : Pass) : Turn Pass (Except ParseError Verdict) → Prop
  | fault {e : ParseError} (he : e.PointsInto p.text) : Locates vars p (.halt (.error e))
  | finish : Locates vars p (.halt (.ok (.expression p.text)))
  | target {name behind : Text} {offset : Nat} (h : p.text.GoesOn offset behind) :
      Locates vars p (.halt (.ok (.target name offset behind)))
  | splice {n : Text} {q : Pass} (h : p.replaced? vars = some n) : Locates vars p (.next q)
  | skip {q : Pass} (h : q.text = p.text) : Locates vars p (.next q)

theorem text_skip {p : Pass} {r : Reading} (h : r.taken ++ r.rest = p.rest) :
    (p.skip r).text = p.text := by
  rw [text, text, ← h]
  simp only [skip, Reading.taken, List.reverse_append, List.reverse_reverse, List.append_assoc]

theorem locates_step (vars : Variables) (p : Pass) : Locates vars p (p.step vars) := by
  have hstart := goesOn_start vars.contains false p.done.reverse p.rest
  have hnext := goesOn_next vars.contains false p.done.reverse p.rest
  rw [size_reverse] at hstart hnext
  unfold step
  dsimp only
  cases hread : (read vars.contains false p.rest).outcome with
  | error f => exact .fault ⟨p.rest.trimStart, hstart, read_names hread⟩
  | ok token =>
    cases token with
    | stop => exact .finish
    | target n => exact .target hnext
    | reference n =>
      dsimp only
      split
      · exact .fault ⟨p.rest.trimStart, hstart, read_reference_names hread⟩
      · exact .splice (by rw [replaced?, reference?, hread])
    | _ => exact .skip (text_skip (taken_append_rest vars.contains false p.rest))

variable {vars : Variables} {p : Pass}

theorem locates_last {result : Except ParseError Verdict} (h : p.run vars = result) :
    Locates vars ((loop vars).last p) (.halt result) := by
  have hlast := locates_step vars ((loop vars).last p)
  rwa [show step vars _ = _ from (loop vars).turn_last p,
    show (loop vars).run p = result from h] at hlast

/-- As long as no name is replaced, the text stays as it is. -/
theorem text_last (h : ∀ q ∈ (loop vars).passed p, q.replaced? vars = none) :
    ((loop vars).last p).text = p.text := by
  refine (loop vars).last_induct (motive := fun q => q.text = p.text) rfl ?_
  intro q hq q' hturn heq
  have hlocates := q.locates_step vars
  rw [show q.step vars = _ from hturn] at hlocates
  cases hlocates with
  | splice hsome => cases hsome.symm.trans (h q hq)
  | skip hskip => exact hskip.trans heq

end Pass

namespace SelfPass

/-- The name that the next step replaces by its text, if it goes on: only the assigned one is. -/
def replaced? (vars : Variables) (name : Text) (p : SelfPass) : Option Text :=
  (reference? vars.contains p.rest).filter (· = name)

/-- What a step says of places in the text, with what stands in front of the text in the line. -/
inductive Locates (vars : Variables) (name : Text) (p : SelfPass) :
    Turn SelfPass (Except ParseError Text) → Prop
  | fault {e : ParseError}
      (he : ∀ front, Checked.Aligned front p → e.PointsInto (front ++ p.text)) :
      Locates vars name p (.halt (.error e))
  | finish : Locates vars name p (.halt (.ok p.text))
  | own {q : SelfPass} (h : p.replaced? vars name = some name) : Locates vars name p (.next q)
  | keep {q : SelfPass} (h : q.text = p.text) : Locates vars name p (.next q)

theorem text_keep_of_read {vars : Variables} {p : SelfPass} {token : Token}
    (h : (read vars.contains false p.rest).outcome = .ok token)
    (htarget : ∀ n, token ≠ .target n) :
    (p.keep (read vars.contains false p.rest) (read vars.contains false p.rest).lexeme).text =
      p.text := by
  have htext := read_text vars.contains false p.rest
  rw [Reading.text, read_behind_eq_nil h htarget, List.nil_append] at htext
  exact text_keep htext.symm

theorem locates_step (vars : Variables) (name : Text) (p : SelfPass) :
    Locates vars name p (p.step vars name) := by
  have hplace : ∀ front, Checked.Aligned front p →
      Text.size (front ++ p.done.reverse) = p.cursor ∧
        front ++ p.text = (front ++ p.done.reverse) ++ p.rest := by
    intro front ha
    rw [size_append, size_reverse, text, List.append_assoc]
    exact ⟨ha.symm, rfl⟩
  unfold step
  dsimp only
  cases hread : (read vars.contains false p.rest).outcome with
  | error f =>
    refine .fault fun front ha => ?_
    obtain ⟨hsize, htext⟩ := hplace front ha
    rw [htext, ← hsize]
    exact ⟨p.rest.trimStart, goesOn_start .., read_names hread⟩
  | ok token =>
    cases token with
    | stop => exact .finish
    | target n =>
      -- The error is one place in front of the rest, where the equals sign is.
      refine .fault fun front ha => ?_
      obtain ⟨hsize, htext⟩ := hplace front ha
      rw [htext, ← hsize]
      exact ⟨_, goesOn_equals _ _ hread, .strayCharacter⟩
    | reference n =>
      dsimp only
      by_cases hn : n = name
      · subst hn
        exact .own (by simp [replaced?, reference?, hread])
      · rw [if_neg (by simpa using hn)]
        exact .keep (text_keep_of_read hread (by simp))
    | _ => exact .keep (text_keep_of_read hread (by simp))

variable {vars : Variables} {name front : Text} {p : SelfPass}

theorem locates_last {result : Except ParseError Text} (h : (loop vars name).run p = result) :
    Locates vars name ((loop vars name).last p) (.halt result) := by
  have hlast := locates_step vars name ((loop vars name).last p)
  rwa [show step vars name _ = _ from (loop vars name).turn_last p, h] at hlast

theorem text_last (h : ∀ q ∈ (loop vars name).passed p, q.replaced? vars name = none) :
    ((loop vars name).last p).text = p.text := by
  refine (loop vars name).last_induct (motive := fun q => q.text = p.text) rfl ?_
  intro q hq q' hturn heq
  have hlocates := q.locates_step vars name
  rw [show q.step vars name = _ from hturn] at hlocates
  cases hlocates with
  | own hsome => cases hsome.symm.trans (h q hq)
  | keep hkeep => exact hkeep.trans heq

theorem aligned_last (ha : Checked.Aligned front p) :
    Checked.Aligned front ((loop vars name).last p) :=
  (loop vars name).last_induct ha fun _ _ _ hturn h => h.step hturn

end SelfPass

namespace Variables

variable (vars : Variables) (line : Text)

/-- The name that the line assigns and the pass through the text behind the equals sign. -/
def selfPass? : Option (Text × SelfPass) :=
  match (Pass.start line).run vars with
  | .ok (.target name offset behind) =>
    some (name, .start (offset + behind.blanks.size) behind.trimStart.trimEnd)
  | _ => none

/-- The line as it is when reading it ends. The blanks at the end of an assignment are cut off
before the assigned text is read, and the text in front of that one stays. -/
def workingText : Text :=
  let text := ((Pass.loop vars).last (.start line)).text
  match vars.selfPass? line with
  | none => text
  | some (name, p) =>
    text.trimEnd.rdrop p.rest.length ++ ((SelfPass.loop vars name).last p).text

/-- The names that have been replaced by their texts when reading the line ends, in order. -/
def substituted : List Text :=
  ((Pass.loop vars).passed (.start line)).filterMap (Pass.replaced? vars) ++
    match vars.selfPass? line with
    | none => []
    | some (name, p) =>
      ((SelfPass.loop vars name).passed p).filterMap (SelfPass.replaced? vars name)

variable {vars line}

theorem selfPass?_of_target {name behind : Text} {offset : Nat}
    (hr : (Pass.start line).run vars = .ok (.target name offset behind)) :
    vars.selfPass? line =
      some (name, .start (offset + behind.blanks.size) behind.trimStart.trimEnd) := by
  rw [selfPass?, hr]

theorem selfPass?_eq_none (h : ∀ name offset behind,
    (Pass.start line).run vars ≠ .ok (.target name offset behind)) :
    vars.selfPass? line = none := by
  unfold selfPass?
  split
  · next name offset behind hr => exact absurd hr (h name offset behind)
  · rfl

/-- The blanks at the end of a line are those at the end of the assigned text. Where that holds
nothing else, the blanks in front of it go too. -/
theorem exists_front (before behind : Text) :
    ∃ front, (before ++ behind).trimEnd = front ++ behind.trimStart.trimEnd ∧
      (behind.trimStart.trimEnd ≠ [] → front.size = before.size + behind.blanks.size) := by
  by_cases hnil : behind.trimStart.trimEnd = []
  · exact ⟨(before ++ behind).trimEnd, by rw [hnil, List.append_nil], fun hne => absurd hnil hne⟩
  · refine ⟨before ++ behind.blanks, ?_, fun _ => size_append ..⟩
    rw [← trimEnd_append_of_ne_nil hnil, List.append_assoc, blanks_append_trimStart]

/-- In front of the assigned text stands what was read before, and the blanks behind that. -/
theorem workingText_of_target {name behind : Text} {offset : Nat}
    (hr : (Pass.start line).run vars = .ok (.target name offset behind)) :
    let t := behind.trimStart.trimEnd
    ∃ front, ((Pass.loop vars).last (.start line)).text.trimEnd = front ++ t ∧
      (t ≠ [] → front.size = offset + behind.blanks.size) ∧
      vars.workingText line = front ++
        ((SelfPass.loop vars name).last (.start (offset + behind.blanks.size) t)).text := by
  obtain ⟨before, htext, hoffset⟩ : ((Pass.loop vars).last (.start line)).text.GoesOn offset behind
  · cases Pass.locates_last hr with
    | target h => exact h
  obtain ⟨front, hfront, hsize⟩ := exists_front before behind
  rw [← htext] at hfront
  rw [← hoffset] at hsize
  refine ⟨front, hfront, hsize, ?_⟩
  rw [workingText, selfPass?_of_target hr]
  dsimp only
  rw [hfront]
  exact congrArg (· ++ _) (List.rdrop_append_length ..)

theorem resolve_pointsInto {e : ParseError} (h : vars.resolve line = .error e)
    (hn : e.fault.isNaming = true) : e.PointsInto (vars.workingText line) := by
  have hs := vars.resolve_spec line
  rw [h] at hs
  cases hs with
  | fault hr =>
    rw [workingText, selfPass?_eq_none (by simp [hr])]
    cases Pass.locates_last hr with
    | fault he => exact he
  | @refused name behind offset e hr ha =>
    obtain ⟨front, -, hsize, hworking⟩ := workingText_of_target hr
    unfold assignment at ha
    dsimp only at ha
    split at ha
    · -- Where nothing is assigned no text is read, and none is named.
      cases ha
      cases hn
    · next hne =>
      have haligned : Checked.Aligned front
          (.start (offset + behind.blanks.size) behind.trimStart.trimEnd) := (hsize hne).symm
      rw [hworking]
      cases SelfPass.locates_last ha with
      | fault he => exact he front (SelfPass.aligned_last haligned)

theorem workingText_isPrefix (h : vars.substituted line = []) :
    vars.workingText line <+: line := by
  obtain ⟨hline, hown⟩ := List.append_eq_nil_iff.1 h
  have htext : ((Pass.loop vars).last (.start line)).text = line :=
    Pass.text_last (List.filterMap_eq_nil_iff.1 hline)
  by_cases htarget : ∃ name offset behind,
      (Pass.start line).run vars = .ok (.target name offset behind)
  · obtain ⟨name, offset, behind, hr⟩ := htarget
    obtain ⟨front, hfront, -, hworking⟩ := workingText_of_target hr
    rw [selfPass?_of_target hr] at hown
    have hkept := SelfPass.text_last (List.filterMap_eq_nil_iff.1 hown)
    obtain ⟨blanks, -, hblanks⟩ := line.exists_trimEnd_append
    rw [htext] at hfront
    have heq : vars.workingText line = line.trimEnd := by
      rw [hworking, hkept, hfront]
      rfl
    rw [heq]
    exact ⟨blanks, hblanks.symm⟩
  · have hworking : vars.workingText line = line := by
      rw [workingText,
        selfPass?_eq_none fun name offset behind hr => htarget ⟨name, offset, behind, hr⟩]
      exact htext
    exact ⟨[], by rw [hworking, List.append_nil]⟩

end Variables

/-- When a line cannot be resolved or an expression cannot be parsed and the error names a piece of
text, that piece begins at the place of the error: in the line as it is when reading it ends, or in
the expression. A line in which nothing has been replaced is then still what was typed, but for what
is cut off its end. -/
theorem error_points_at_what_it_names (vars : Variables) :
    (∀ line e, vars.resolve line = .error e → e.fault.isNaming = true →
      e.PointsInto (vars.workingText line)) ∧
    (∀ line, vars.substituted line = [] → vars.workingText line <+: line) ∧
    ∀ t e, Expr.parse vars.contains t = .error e → e.fault.isNaming = true → e.PointsInto t :=
  ⟨fun _ _ h hn => Variables.resolve_pointsInto h hn,
    fun _ h => Variables.workingText_isPrefix h, fun _ _ h hn => parse_pointsInto h hn⟩

/-- The second equals sign of a line is reported at its own place, behind a name and a blank, and an
unknown name in an expression where it begins. -/
theorem error_points_at_what_it_names_of_second_equals :
    let vars := Variables.initial
    let line := "x = x = 5 ".toList
    (vars.resolve line = .error ⟨6, .strayCharacter '='⟩ ∧
      ParseError.PointsInto ⟨6, .strayCharacter '='⟩ (vars.workingText line)) ∧
    (vars.substituted line = [] ∧ vars.workingText line <+: line) ∧
    Expr.parse vars.contains "(y".toList = .error ⟨1, .unknownName "y".toList⟩ ∧
      ParseError.PointsInto ⟨1, .unknownName "y".toList⟩ "(y".toList := by
  intro vars line
  have hpass : (Pass.loop vars).turn (.start line) =
      .halt (.ok (.target "x".toList 3 " x = 5 ".toList)) := rfl
  have hself : (SelfPass.loop vars "x".toList).turn (.start 4 "x = 5".toList) =
      .halt (.error ⟨6, .strayCharacter '='⟩) := rfl
  have hrun : (Pass.start line).run vars = .ok (.target "x".toList 3 " x = 5 ".toList) :=
    (Pass.loop vars).run_of_halt hpass
  have hassign : vars.assignment "x".toList 3 " x = 5 ".toList =
      .error ⟨6, .strayCharacter '='⟩ := (SelfPass.loop vars "x".toList).run_of_halt hself
  have hline : vars.resolve line = .error ⟨6, .strayCharacter '='⟩ := by
    rw [Variables.resolve, hrun]
    change vars.assignment _ _ _ >>= _ = _
    rw [hassign]
    rfl
  have hassigned : vars.selfPass? line = some ("x".toList, .start 4 "x = 5".toList) :=
    Variables.selfPass?_of_target hrun
  have hnone : vars.substituted line = [] := by
    rw [Variables.substituted, (Pass.loop vars).passed_of_halt hpass, hassigned]
    dsimp only
    rw [(SelfPass.loop vars "x".toList).passed_of_halt hself]
    rfl
  have hparse : Expr.parse vars.contains "(y".toList = .error ⟨1, .unknownName "y".toList⟩ := by
    have hstream : Stream.ofText vars.contains "(y".toList =
        ⟨[⟨.leftParen, 0, "(y".toList⟩], .error ⟨1, .unknownName "y".toList⟩⟩ := by
      have hread : (read vars.contains true "(y".toList).outcome = .ok .leftParen := rfl
      rw [Stream.ofText, ofTextFrom_of_token hread (by simp)]
      exact congrArg (Stream.cons _) (ofTextFrom_of_fault rfl)
    rw [Expr.parse, hstream]
    rfl
  obtain ⟨hresolve, hunchanged, hexpression⟩ := error_points_at_what_it_names vars
  exact ⟨⟨hline, hresolve _ _ hline rfl⟩, ⟨hnone, hunchanged _ hnone⟩, hparse,
    hexpression _ _ hparse rfl⟩

end MatrixCalc
