import MatrixCalc.Proofs.Expr.Resolved
import MatrixCalc.Proofs.Session.Lexing
import MatrixCalc.Proofs.Session.Lines
import MatrixCalc.Proofs.Variables.Cycles
import MatrixCalc.Proofs.Variables.Locality

/-!
# What a line is to a session depends on the variables that it reads

A line has one outcome for all tables that answer its questions in the same way. So a name that has
just been assigned can be read in place of its text: the new entry of the table is not asked for
while the text is resolved, and the name itself, active all the time, does not come up again.
-/
namespace MatrixCalc

open Text

/-- The line is resolved in the same way for both tables, and evaluated in the same way from every
state of the random source. -/
structure Variables.ActAlike (σ : Type) [RandomSource σ] (vars other : Variables)
    (line : Text) : Prop where
  resolve_eq : other.resolve line = vars.resolve line
  outcome_eq : ∀ source : σ,
    (Session.evaluate ⟨other, source⟩ line).1 = (Session.evaluate ⟨vars, source⟩ line).1
  source_eq : ∀ source : σ, (Session.evaluate ⟨other, source⟩ line).2.source =
    (Session.evaluate ⟨vars, source⟩ line).2.source

section Evaluation

variable {σ : Type} [RandomSource σ]

/-- Lines that are resolved alike are evaluated alike. -/
theorem Session.evaluate_congr {s : Session σ} {line line' : Text}
    (h : s.vars.resolve line = s.vars.resolve line') : s.evaluate line = s.evaluate line' := by
  rw [evaluate, evaluate, h]

theorem Variables.AgreesOn.actAlike {vars other : Variables} {line : Text}
    (h : vars.AgreesOn other line) : vars.ActAlike σ other line := by
  have hresolve := resolve_congr h
  have hboth : ∀ source : σ,
      (Session.evaluate ⟨other, source⟩ line).1 = (Session.evaluate ⟨vars, source⟩ line).1 ∧
        (Session.evaluate ⟨other, source⟩ line).2.source =
          (Session.evaluate ⟨vars, source⟩ line).2.source := by
    intro source
    unfold Session.evaluate
    dsimp only
    rw [hresolve]
    cases hr : vars.resolve line with
    | error e => exact ⟨rfl, rfl⟩
    | ok r =>
      cases r with
      | assigned name value => exact ⟨rfl, rfl⟩
      | expression t =>
        dsimp only
        unfold Session.evaluateExpression
        dsimp only
        rw [(ground_of_resolve hr).parse_eq vars.contains other.contains]
        cases Expr.parse vars.contains t with
        | error e => exact ⟨rfl, rfl⟩
        | ok tree =>
          dsimp only
          rcases tree.eval.run source with ⟨_ | _, _⟩ <;> exact ⟨rfl, rfl⟩
  exact ⟨hresolve, fun source => (hboth source).1, fun source => (hboth source).2⟩

/-- Tables that agree on what a line asks for, in it and in the texts that it gets, make the same
of the line; so what a name means that is not asked for does not matter. -/
theorem unread_variables_irrelevant {vars other : Variables} {line : Text}
    (h : vars.AgreesOn other line) :
    vars.ActAlike σ other line ∧
      ∀ name value, ¬ vars.Asks line name → vars.ActAlike σ (vars.assign name value) line :=
  ⟨h.actAlike, fun _ value hname => (Variables.agreesOn_assign hname value).actAlike⟩

end Evaluation

theorem Text.isNameStart_of_all {s : Text} (hs : s.all (fun c => !isNameStart c) = true) :
    ∀ c ∈ s, isNameStart c = false := by
  intro c hc
  have hstart := List.all_eq_true.1 hs c hc
  rwa [Bool.not_eq_true'] at hstart

theorem Variables.asks_relayed {n : Text} (h : relayed.Asks "2x.5 * x".toList n) :
    n = "x".toList ∨ n = "y".toList := by
  have hname : IsName "x".toList := isName_singleton rfl
  induction h with
  | @line n hn =>
    have hrefs : references "2x.5 * x".toList = ["x".toList, "x".toList] := by
      change references ("2".toList ++ ("x".toList ++ (".5 * ".toList ++ ("x".toList ++ [])))) = _
      rw [references_chars_append (isNameStart_of_all rfl), references_name_append hname rfl rfl,
        references_chars_append (isNameStart_of_all rfl), references_name_append hname rfl rfl,
        references_nil]
    rw [hrefs] at hn
    exact .inl (by simpa using hn)
  | @text n value m _ hv hm ih =>
    rcases ih with rfl | rfl
    · cases hv
      have hy : IsName "y".toList := isName_singleton rfl
      change m ∈ references ("y".toList ++ []) at hm
      rw [references_name_append hy rfl rfl, references_nil] at hm
      exact .inr (by simpa using hm)
    · cases hv
      rw [references_chars (isNameStart_of_all rfl)] at hm
      cases hm

/-- A further variable, whose text would make an assignment of any line, is not noticed. -/
theorem unread_variables_irrelevant_of_relayed :
    let other := Variables.relayed.assign "z".toList "x =".toList
    Variables.relayed.AgreesOn other "2x.5 * x".toList ∧
      Variables.relayed.ActAlike Seeded other "2x.5 * x".toList := by
  intro other
  have hunread : ¬ Variables.relayed.Asks "2x.5 * x".toList "z".toList := by
    intro h
    rcases Variables.asks_relayed h with h | h <;> exact absurd h (by decide)
  have hagree := Variables.agreesOn_assign hunread "x =".toList
  exact ⟨hagree, (unread_variables_irrelevant hagree).1⟩

namespace Pass

/-- The pass inside one more text, which goes on to the end of the line. -/
def under (p : Pass) (n : Text) : Pass := { p with active := p.active ++ [(n, 0)] }

theorem enclosing_under {left : Nat} (h : 0 < left) (active : List (Text × Nat)) (n : Text) :
    enclosing left (active ++ [(n, 0)]) = enclosing left active ++ [(n, 0)] := by
  have hlast : enclosing left [(n, 0)] = [(n, 0)] := enclosing_cons_of_lt h []
  induction active with
  | nil => exact hlast
  | cons a outer ih =>
    rw [List.cons_append]
    by_cases ha : left ≤ a.2
    · rw [enclosing_cons_of_le ha, enclosing_cons_of_le ha, ih]
    · have ha' : a.2 < left := Nat.lt_of_not_le ha
      rw [enclosing_cons_of_lt ha', enclosing_cons_of_lt ha', List.cons_append]

/-- A step that does not read the name goes the same way inside its text. -/
theorem step_under {vars : Variables} {p : Pass} {n : Text} (h : n ∉ p.rest.references) :
    (p.under n).step vars =
      match p.step vars with
      | .halt result => .halt result
      | .next q => .next (q.under n) := by
  have hr := read_spec vars.contains p.rest
  have hrest : (p.under n).rest = p.rest := rfl
  unfold step
  rw [hrest]
  generalize read vars.contains false p.rest = r at hr
  cases hr with
  | stop | target => rfl
  | fault ho => simp only [ho]; rfl
  | @kept _ _ _ token _ _ _ href =>
    cases token with
    | reference m => exact absurd rfl (href m)
    | _ => rfl
  | @reference blanks m rest ht hv =>
    have hleft : 0 < m.length + rest.length := by
      have := List.length_pos_iff.2 ht.isName.ne_nil
      omega
    have hne : n ≠ m := by
      rintro rfl
      exact h (ht.mem_references (List.mem_cons_self ..))
    simp only [under, enclosing_under hleft, List.any_append, List.any_cons, List.any_nil,
      beq_eq_false_iff_ne.2 hne, Bool.or_false]
    split
    · rfl
    · simp only [splice, enclosing_under hleft, List.cons_append]

/-- A name that the pass does not come to read may as well be active. -/
theorem run_under {vars : Variables} {line n : Text} (hn : ¬ vars.Asks line n) (p : Pass) :
    p.Asking vars line → (p.under n).run vars = p.run vars := by
  refine (loop vars).run_induct (motive := fun p result => p.Asking vars line →
    (p.under n).run vars = result) ?_ ?_ p
  · intro p result hturn hp
    have hstep : (p.under n).step vars = _ := step_under fun h => hn (hp n h)
    rw [show p.step vars = .halt result from hturn] at hstep
    exact (loop vars).run_of_halt hstep
  · intro p q result hturn ih hp
    have hstep : (p.under n).step vars = _ := step_under fun h => hn (hp n h)
    have hs := p.step_spec vars
    rw [show p.step vars = .next q from hturn] at hstep hs
    exact ((loop vars).run_of_next hstep).trans (ih (hp.next hs))

end Pass

namespace Variables

/-- The line that assigns a text to a name. -/
def assigning (n w : Text) : Text := n ++ (" = ".toList ++ w)

theorem run_assigning (vars : Variables) {n : Text} (hn : IsName n)
    (hk : Function.isKeyword n = false) (w : Text) :
    ∃ offset, (Pass.start (assigning n w)).run vars = .ok (.target n offset (' ' :: w)) := by
  have hread : read vars.contains false ([] ++ (n ++ (" = ".toList ++ w))) =
      readName vars.contains [] n (" = ".toList ++ w) := read_name (List.forall_mem_nil _) hn rfl
  have hnone : Function.ofKeyword? n = none := by simpa [Function.isKeyword] using hk
  have hrest : (Pass.start (assigning n w)).rest = [] ++ (n ++ (" = ".toList ++ w)) := rfl
  rw [readName, hnone] at hread
  have hstep : ∃ offset,
      (Pass.start (assigning n w)).step vars = .halt (.ok (.target n offset (' ' :: w))) := by
    unfold Pass.step
    rw [hrest, hread]
    exact ⟨_, rfl⟩
  obtain ⟨offset, hstep⟩ := hstep
  exact ⟨offset, (Pass.loop vars).run_of_halt hstep⟩

/-- What an assignable text asks for is defined and can be reached from the text. -/
theorem reachable_of_asks {vars : Variables} (h : vars.Sound) {w n : Text}
    (hw : Assignable vars w) (hn : vars.Asks w n) :
    vars.contains n = true ∧ vars.Reachable w n := by
  induction hn with
  | line hm =>
    have hc := hw.defined _ hm
    exact ⟨hc, _, hm, hc, .refl⟩
  | @text n value m _ hv hm ih =>
    obtain ⟨-, k, hk, hkc, hpath⟩ := ih
    obtain ⟨hname, hkeyword⟩ := mem_references.1 hm
    have hc : vars.contains m = true := by
      refine ((h n value hv).closed m (mem_names.2 hname)).resolve_left ?_
      rw [hkeyword]
      exact Bool.false_ne_true
    exact ⟨hc, k, hk, hkc, hpath.tail ⟨hc, value, hv, hm⟩⟩

/-- A text that does not lead to the name is stored as it is. -/
theorem resolve_assigning {vars : Variables} {n w name value : Text} (hn : IsName n)
    (hk : Function.isKeyword n = false) (hstart : w.trimStart = w) (hend : w.trimEnd = w)
    (hreach : ¬ vars.Reachable w n)
    (hr : vars.resolve (assigning n w) = .ok (.assigned name value)) :
    name = n ∧ value = w ∧ Assignable vars w := by
  obtain ⟨offset, hrun⟩ := run_assigning vars hn hk w
  have hs := vars.resolve_spec (assigning n w)
  rw [hr] at hs
  cases hs with
  | assigned htarget ha =>
    rw [hrun] at htarget
    cases htarget
    have htrim : Text.trimEnd (Text.trimStart (' ' :: w)) = w := by
      rw [show Text.trimStart (' ' :: w) = w.trimStart from rfl, hstart, hend]
    obtain ⟨-, hassignable, hvalue⟩ := assignment_ok hk ha
    rw [htrim] at hassignable hvalue
    have hfresh : n ∉ w.names := by
      intro hm
      have hm := mem_references.2 ⟨mem_names.1 hm, hk⟩
      exact hreach ⟨n, hm, hassignable.defined n hm, .refl⟩
    rw [substitute_of_not_mem hfresh] at hvalue
    exact ⟨rfl, hvalue, hassignable⟩

/-- A name is resolved as its text is, if its text does not ask for it. -/
theorem resolve_name {vars : Variables} {n w : Text} (hn : IsName n)
    (hk : Function.isKeyword n = false) (hv : vars.get? n = some w)
    (hasks : ¬ vars.Asks w n) : vars.resolve n = vars.resolve w := by
  have hread : read vars.contains false ([] ++ (n ++ [])) = readName vars.contains [] n [] :=
    read_name (List.forall_mem_nil _) hn rfl
  have hnone : Function.ofKeyword? n = none := by simpa [Function.isKeyword] using hk
  have hstep : (Pass.start n).step vars = .next ((Pass.start w).under n) := by
    rw [readName, hnone] at hread
    simp only [takeEquals?, trimStart, List.dropWhile_nil, contains_of_get? hv, if_true,
      List.nil_append, List.append_nil] at hread
    unfold Pass.step
    rw [show (Pass.start n).rest = n from rfl, hread]
    simp [Reading.plain, Pass.splice, Pass.start, Pass.under, Pass.enclosing, hv]
  have hrun : (Pass.start n).run vars = (Pass.start w).run vars :=
    ((Pass.loop vars).run_of_next hstep).trans
      (Pass.run_under hasks _ (Pass.asking_start vars w))
  rw [resolve, resolve, hrun]

end Variables

/-- In a session, reading a name right after it was assigned has the outcome that the assigned text
would have had before: the same value, or the same error in the same place, and it assigns
nothing. -/
theorem assigned_name_reads_as_text {σ : Type} [RandomSource σ] (lines : List Text) (source : σ)
    {n w : Text} (hn : IsName n) (hk : Function.isKeyword n = false)
    (hstart : w.trimStart = w) (hend : w.trimEnd = w)
    (hreach : ¬ (Variables.initial.afterLines lines).Reachable w n) :
    let s : Session σ := ⟨Variables.initial.afterLines lines, source⟩
    (s.evaluate (Variables.assigning n w)).1 = .ok .assigned →
      ((s.evaluate (Variables.assigning n w)).2.evaluate n).1 = (s.evaluate w).1 ∧
        ((s.evaluate (Variables.assigning n w)).2.evaluate n).2.source =
          (s.evaluate w).2.source ∧
        ((s.evaluate (Variables.assigning n w)).2.evaluate n).1 ≠ .ok .assigned := by
  intro s hline
  have hsound : (Variables.initial.afterLines lines).Sound :=
    Variables.sound_initial.afterLines lines
  have hafter : (s.evaluate (Variables.assigning n w)).2.vars.Sound := by
    rw [s.evaluate_vars]
    exact hsound.afterLine _
  have hreads : ((s.evaluate (Variables.assigning n w)).2.evaluate n).1 ≠ .ok .assigned :=
    Session.evaluate_ne_assigned hafter hn.equals_not_mem
  have hs := s.evaluate_spec (Variables.assigning n w)
  generalize s.evaluate (Variables.assigning n w) = result at hs hline hreads
  cases hs <;> cases hline
  next name value hr =>
  obtain ⟨rfl, rfl, hassignable⟩ := Variables.resolve_assigning hn hk hstart hend hreach hr
  have hasks : ¬ s.vars.Asks value name :=
    fun h => hreach (Variables.reachable_of_asks hsound hassignable h).2
  have hagree := Variables.agreesOn_assign hasks value
  -- The text neither asks for the new entry nor comes back to the name that it is read for.
  have hname : (s.vars.assign name value).resolve name = (s.vars.assign name value).resolve value :=
    Variables.resolve_name hn hk (by rw [Variables.get?_assign, if_pos rfl])
      fun h => hasks (hagree.asks h)
  have halike : s.vars.ActAlike σ (s.vars.assign name value) value := hagree.actAlike
  have heval : (Session.mk (s.vars.assign name value) source).evaluate name =
      (Session.mk (s.vars.assign name value) source).evaluate value := Session.evaluate_congr hname
  refine ⟨?_, ?_, hreads⟩
  · exact (congrArg Prod.fst heval).trans (halike.outcome_eq source)
  · exact (congrArg (fun r => r.2.source) heval).trans (halike.source_eq source)

theorem Variables.not_reachable_three :
    ¬ (initial.afterLines ["x = 3".toList]).Reachable "e + pi".toList "x".toList := by
  rw [afterLines_three]
  rintro ⟨m, hm, -, hpath⟩
  have hrefs : references "e + pi".toList = ["e".toList, "pi".toList] := by
    have he : IsName "e".toList := isName_singleton rfl
    have hpi : IsName "pi".toList := ⟨rfl, List.all_eq_true.1 rfl⟩
    change references ("e".toList ++ (" + ".toList ++ ("pi".toList ++ []))) = _
    rw [references_name_append he rfl rfl, references_chars_append (isNameStart_of_all rfl),
      references_name_append hpi rfl rfl, references_nil]
  rw [hrefs] at hm
  rcases Relation.ReflTransGen.cases_head hpath with rfl | ⟨b, ⟨-, value, hv, hb⟩, -⟩
  · exact absurd hm (by decide)
  · have hnumeral : references value = [] := by
      rcases List.mem_cons.1 hm with rfl | hm
      · cases hv
        exact references_chars (isNameStart_of_all rfl)
      · cases List.mem_singleton.1 hm
        cases hv
        exact references_chars (isNameStart_of_all rfl)
    rw [hnumeral] at hb
    cases hb

/-- A variable that is assigned anew, its old text being of no account. -/
theorem assigned_name_reads_as_text_of_three :
    let s : Session Seeded := ⟨Variables.initial.afterLines ["x = 3".toList], .ofSeed 0⟩
    let s' := (s.evaluate "x = e + pi".toList).2
    (IsName "x".toList ∧ Function.isKeyword "x".toList = false ∧
      Text.trimStart "e + pi".toList = "e + pi".toList ∧
      Text.trimEnd "e + pi".toList = "e + pi".toList ∧
      ¬ s.vars.Reachable "e + pi".toList "x".toList ∧
      (s.evaluate "x = e + pi".toList).1 = .ok .assigned) ∧
      (s'.evaluate "x".toList).1 = (s.evaluate "e + pi".toList).1 ∧
        (s'.evaluate "x".toList).2.source = (s.evaluate "e + pi".toList).2.source ∧
        (s'.evaluate "x".toList).1 ≠ .ok .assigned := by
  intro s s'
  have hn : IsName "x".toList := ⟨rfl, List.all_eq_true.1 rfl⟩
  have hk : Function.isKeyword "x".toList = false := rfl
  have hstart : Text.trimStart "e + pi".toList = "e + pi".toList := rfl
  have hend : Text.trimEnd "e + pi".toList = "e + pi".toList := rfl
  have hreach := Variables.not_reachable_three
  have hresolve : s.vars.resolve "x = e + pi".toList =
      .ok (.assigned "x".toList "e + pi".toList) := by
    change (Variables.initial.afterLines ["x = 3".toList]).resolve _ = _
    rw [Variables.afterLines_three]
    have htarget : (Pass.start "x = e + pi".toList).run
        (Variables.initial.assign "x".toList "3".toList) =
        .ok (.target "x".toList 3 " e + pi".toList) := (Pass.loop _).run_of_turns (n := 1) rfl
    exact Variables.resolve_of_assignment htarget ((SelfPass.loop _ _).run_of_turns (n := 4) rfl)
  have hline : (s.evaluate "x = e + pi".toList).1 = .ok .assigned := by
    rw [Session.evaluate, hresolve]
  have hreads :=
    assigned_name_reads_as_text ["x = 3".toList] (Seeded.ofSeed 0) hn hk hstart hend hreach
  have hassigning : Variables.assigning "x".toList "e + pi".toList = "x = e + pi".toList := rfl
  rw [hassigning] at hreads
  exact ⟨⟨hn, hk, hstart, hend, hreach, hline⟩, hreads hline⟩

end MatrixCalc
