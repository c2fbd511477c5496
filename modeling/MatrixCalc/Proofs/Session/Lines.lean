import MatrixCalc.Proofs.Session.Tables
import MatrixCalc.Proofs.Variables.Termination

/-!
# What a line does to a session

A line is resolved, and then stored or parsed and evaluated. Only storing changes the variables and
only evaluation draws from the source (`evaluate_spec`), so a line that fails leaves the variables
as they were, wherever it fails. That a line assigns can be seen in the line itself: no stored text
holds an equals sign, so none is spliced into it.
-/
namespace MatrixCalc

open Text

theorem equals_mem_of_takeEquals? {t behind rest : Text}
    (h : takeEquals? t = some (behind, rest)) : '=' ∈ behind := by
  unfold takeEquals? at h
  split at h
  · cases h
    exact List.mem_append_right _ (List.mem_singleton_self _)
  · cases h

/-- From a text without an equals sign the pass finds no assignment, if no stored text has one. -/
theorem Pass.run_ne_target {vars : Variables}
    (hvars : ∀ name text, vars.get? name = some text → '=' ∉ text) (p : Pass) :
    '=' ∉ p.rest → ∀ name offset rest, p.run vars ≠ .ok (.target name offset rest) := by
  refine run_induct (motive := fun p result => '=' ∉ p.rest →
    ∀ name offset rest, result ≠ .ok (.target name offset rest)) ?_ ?_ p
  · intro p result hs hp name offset rest hr
    rw [hr] at hs
    cases hs with
    | target ht he =>
      apply hp
      rw [ht.eq_append]
      have hbehind := equals_mem_of_takeEquals? he
      simp only [List.mem_append, hbehind, true_or, or_true]
  · intro p q result hs ih hp
    apply ih
    intro hq
    apply hp
    cases hs with
    | splice ht hv =>
      rw [ht.eq_append]
      rcases List.mem_append.1 hq with hvalue | hrest
      · exact absurd hvalue (hvars _ _ hv)
      · simp only [List.mem_append, hrest, or_true]
    | skip ht =>
      rw [ht.eq_append]
      exact List.mem_append_right _ hq

/-- With a sound table a line that assigns has an equals sign of its own. -/
theorem Variables.equals_mem_of_resolve {vars : Variables} (h : vars.Sound)
    {line name value : Text} (hr : vars.resolve line = .ok (.assigned name value)) :
    '=' ∈ line := by
  by_contra hline
  have hs := vars.resolve_spec line
  rw [hr] at hs
  cases hs with
  | assigned htarget =>
    have hvars : ∀ name text, vars.get? name = some text → '=' ∉ text :=
      fun name text hg => (h name text hg).noEquals
    exact (Pass.start line).run_ne_target hvars hline _ _ _ htarget

namespace Session

variable {σ : Type} [RandomSource σ]

inductive EvaluatesTo (s : Session σ) (line : Text) :
    Except LineError Outcome × Session σ → Prop
  | unresolved {e : ParseError} (hr : s.vars.resolve line = .error e) :
      EvaluatesTo s line (.error (.parse e), s)
  | assigned {name value : Text} (hr : s.vars.resolve line = .ok (.assigned name value)) :
      EvaluatesTo s line (.ok .assigned, { s with vars := s.vars.assign name value })
  | unparsed {t : Text} {e : ParseError} (hr : s.vars.resolve line = .ok (.expression t))
      (hp : Expr.parse s.vars.contains t = .error e) :
      EvaluatesTo s line (.error (.parse e), s)
  | failed {t : Text} {tree : Expr} {e : CalcError} {source : σ}
      (hr : s.vars.resolve line = .ok (.expression t))
      (hp : Expr.parse s.vars.contains t = .ok tree)
      (he : tree.eval.run s.source = (.error e, source)) :
      EvaluatesTo s line (.error (.calculation e), { s with source })
  | value {t : Text} {tree : Expr} {v : Value} {source : σ}
      (hr : s.vars.resolve line = .ok (.expression t))
      (hp : Expr.parse s.vars.contains t = .ok tree)
      (he : tree.eval.run s.source = (.ok v, source)) :
      EvaluatesTo s line (.ok (.value v), { s with source })

/-- Everything that a line can do to a session. -/
theorem evaluate_spec (s : Session σ) (line : Text) : EvaluatesTo s line (s.evaluate line) := by
  unfold evaluate
  cases hr : s.vars.resolve line with
  | error e => exact .unresolved hr
  | ok r =>
    cases r with
    | assigned name value => exact .assigned hr
    | expression t =>
      dsimp only
      unfold evaluateExpression
      cases hp : Expr.parse s.vars.contains t with
      | error e => exact .unparsed hr hp
      | ok tree =>
        rcases he : tree.eval.run s.source with ⟨result, source⟩
        dsimp only
        rw [he]
        cases result with
        | error e => exact .failed hr hp he
        | ok v => exact .value hr hp he

/-- The session after some lines, whatever came of them. -/
def after (s : Session σ) (lines : List Text) : Session σ :=
  lines.foldl (fun s line => (s.evaluate line).2) s

theorem vars_after (s : Session σ) (lines : List Text) :
    (s.after lines).vars = s.vars.afterLines lines := by
  induction lines generalizing s with
  | nil => rfl
  | cons line lines ih =>
    have hline := ih (s.evaluate line).2
    rw [s.evaluate_vars line] at hline
    exact hline

theorem sound_vars_after (source : σ) (lines : List Text) :
    ((start source).after lines).vars.Sound := by
  rw [vars_after]
  exact Variables.sound_initial.afterLines lines

/-- A line without an equals sign is an expression. -/
theorem evaluate_ne_assigned {s : Session σ} (hsound : s.vars.Sound) {line : Text}
    (hline : '=' ∉ line) : (s.evaluate line).1 ≠ .ok .assigned := by
  intro ha
  have hs := s.evaluate_spec line
  generalize s.evaluate line = result at hs ha
  cases hs <;> cases ha
  next name value hr => exact hline (Variables.equals_mem_of_resolve hsound hr)

end Session

/-- A line either assigns one variable and does nothing else, or leaves all variables alone. A line
that cannot be read leaves the whole session alone. In a session that began with the constants, a
line without an equals sign assigns nothing. -/
theorem evaluation_all_or_nothing {σ : Type} [RandomSource σ] (s : Session σ) (line : Text) :
    (∀ e, (s.evaluate line).1 = .error (.parse e) → (s.evaluate line).2 = s) ∧
      (∀ e, (s.evaluate line).1 = .error (.calculation e) →
        (s.evaluate line).2.vars = s.vars) ∧
      (∀ v, (s.evaluate line).1 = .ok (.value v) → (s.evaluate line).2.vars = s.vars) ∧
      ((s.evaluate line).1 = .ok .assigned →
        (s.evaluate line).2.source = s.source ∧ ∃ name, ∀ m, m ≠ name →
          (s.evaluate line).2.vars.get? m = s.vars.get? m) ∧
      ∀ (source : σ) (lines : List Text), '=' ∉ line →
        (((Session.start source).after lines).evaluate line).1 ≠ .ok .assigned := by
  have hs := s.evaluate_spec line
  generalize s.evaluate line = result at hs
  refine ⟨?_, ?_, ?_, ?_, ?_⟩
  · rintro e he
    cases hs <;> cases he <;> rfl
  · rintro e he
    cases hs <;> cases he
    rfl
  · rintro v hv
    cases hs <;> cases hv
    rfl
  · intro ha
    cases hs <;> cases ha
    next name value hr =>
    refine ⟨rfl, name, ?_⟩
    intro m hm
    rw [Variables.get?_assign, if_neg hm]
  · intro source lines hline
    exact Session.evaluate_ne_assigned (Session.sound_vars_after source lines) hline

/-- A stray equals sign is refused and nothing is stored; reading a stored variable stores
nothing. -/
theorem evaluation_all_or_nothing_of_stray :
    let s := Session.start (Seeded.ofSeed 0)
    ((s.evaluate "1 = 3".toList).1 = .error (.parse ⟨2, .strayCharacter '='⟩) ∧
      (s.evaluate "1 = 3".toList).2 = s) ∧
      '=' ∉ "x".toList ∧
        ((s.after ["x = 3".toList]).evaluate "x".toList).1 ≠ .ok .assigned := by
  intro s
  have hline : s.vars.resolve "1 = 3".toList = .error ⟨2, .strayCharacter '='⟩ :=
    Variables.resolve_of_run_error ((Pass.loop _).run_of_turns (n := 2) rfl)
  have herror : (s.evaluate "1 = 3".toList).1 = .error (.parse ⟨2, .strayCharacter '='⟩) := by
    rw [Session.evaluate, hline]
  obtain ⟨hparse, -⟩ := evaluation_all_or_nothing s "1 = 3".toList
  obtain ⟨-, -, -, -, hfree⟩ := evaluation_all_or_nothing s "x".toList
  have hx : '=' ∉ "x".toList := by decide
  exact ⟨⟨herror, hparse _ herror⟩, hx, hfree (Seeded.ofSeed 0) ["x = 3".toList] hx⟩

end MatrixCalc
