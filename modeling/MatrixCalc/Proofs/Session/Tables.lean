import MatrixCalc.Proofs.Variables.Assignment
import MatrixCalc.Session

/-!
# The tables of a session

Whatever lines are given, the table of a session is sound: each name is well formed and each text
can be spliced into a line. An assignment puts the old text of its variable into the new one, so
the clauses of soundness are kept together and none of them alone.
-/
namespace MatrixCalc

open Text

namespace Variables

/-- The table after a line, which is as before when the line cannot be resolved. -/
def afterLine (vars : Variables) (line : Text) : Variables :=
  match vars.resolve line with
  | .ok r => vars.after r
  | .error _ => vars

def afterLines (vars : Variables) (lines : List Text) : Variables :=
  lines.foldl afterLine vars

theorem afterLines_of_assigned {vars : Variables} {line name value : Text}
    (h : vars.resolve line = .ok (.assigned name value)) :
    vars.afterLines [line] = vars.assign name value := by
  rw [afterLines, List.foldl_cons, List.foldl_nil, afterLine, h]
  rfl

/-- The text may be stored under the name. -/
structure Storable (vars : Variables) (name text : Text) : Prop where
  isName : IsName name
  notKeyword : Function.isKeyword name = false
  trimmed : Trimmed text
  noEquals : '=' ∉ text
  closed : ∀ m ∈ text.names, Function.isKeyword m = true ∨ vars.contains m = true
  notOwn : name ∉ text.names

def Sound (vars : Variables) : Prop :=
  ∀ name text, vars.get? name = some text → vars.Storable name text

theorem Storable.mono {vars vars' : Variables} {name text : Text}
    (h : vars.Storable name text) (hsub : ∀ m, vars.contains m = true → vars'.contains m = true) :
    vars'.Storable name text :=
  { h with closed := fun m hm => (h.closed m hm).imp_right (hsub m) }

/-- A numeral refers to nothing and can be stored under any name. -/
theorem storable_numeral {vars : Variables} {name text : Text} (hn : IsName name)
    (hk : Function.isKeyword name = false) (hne : text ≠ [])
    (ht : ∀ c ∈ text, Decimal.isNumeralChar c = true) : vars.Storable name text := by
  have hnames : ∀ m, m ∉ text.names := by
    intro m hm
    rw [mem_names, pieces_chars (fun c hc => isNameStart_of_isNumeralChar (ht c hc))] at hm
    obtain ⟨c, -, hc⟩ := List.mem_map.1 hm
    cases hc
  have hblank : ∀ c ∈ text, isBlank c = false := by
    intro c hc
    by_contra hb
    have hnum := isNumeralChar_of_isBlank (Bool.of_not_eq_false hb)
    rw [ht c hc] at hnum
    cases hnum
  refine ⟨hn, hk, ⟨hne, ?_, ?_⟩, ?_, fun m hm => absurd hm (hnames m), hnames name⟩
  · intro c hc
    exact hblank c (List.mem_of_mem_head? hc)
  · intro c hc
    exact hblank c (List.mem_of_getLast? hc)
  · intro hm
    exact absurd (ht _ hm) (by decide)

theorem sound_initial : initial.Sound := by
  intro name text h
  unfold get? initial at h
  rw [List.lookup_cons] at h
  split at h
  · next hpi =>
    cases h
    rw [eq_of_beq hpi]
    exact storable_numeral ⟨rfl, List.all_eq_true.1 rfl⟩ rfl (by simp) (List.all_eq_true.1 rfl)
  · rw [List.lookup_cons] at h
    split at h
    · next he =>
      cases h
      rw [eq_of_beq he]
      exact storable_numeral ⟨rfl, List.all_eq_true.1 rfl⟩ rfl (by simp) (List.all_eq_true.1 rfl)
    · cases h

theorem contains_assign_of_contains {vars : Variables} {m : Text} (name value : Text)
    (h : vars.contains m = true) : (vars.assign name value).contains m = true := by
  rw [contains, get?_assign]
  split
  · rfl
  · exact h

/-- The text that an assignment stores, if the texts stored before it are sound. -/
theorem storable_assignment {vars : Variables} (h : vars.Sound) {name behind value : Text}
    {offset : Nat} (hn : IsName name) (hk : Function.isKeyword name = false)
    (ha : vars.assignment name offset behind = .ok value) : vars.Storable name value := by
  obtain ⟨htrim, hassign, rfl⟩ := assignment_ok hk ha
  generalize behind.trimStart.trimEnd = t at htrim hassign
  cases hg : vars.get? name with
  | none =>
    have hfresh : name ∉ t.names := by
      intro hm
      have hc := hassign.defined name (mem_references.2 ⟨mem_names.1 hm, hk⟩)
      rw [contains, hg] at hc
      cases hc
    rw [substitute_of_not_mem hfresh]
    exact ⟨hn, hk, htrim, hassign.noEquals, fun m hm => hassign.names hm, hfresh⟩
  | some old =>
    have hold := h name old hg
    rw [Option.getD_some]
    refine ⟨hn, hk, htrim.substitute hold.trimmed, ?_, ?_, ?_⟩
    · intro hm
      exact (mem_substitute hm).elim hassign.noEquals hold.noEquals
    · intro m hm
      rcases mem_names_substitute hm with ⟨-, hm⟩ | hm
      · exact hassign.names hm
      · exact hold.closed m hm
    · intro hm
      rcases mem_names_substitute hm with ⟨hne, -⟩ | hm
      · exact hne rfl
      · exact hold.notOwn hm

theorem Sound.assign {vars : Variables} (h : vars.Sound) {name value : Text}
    (hs : vars.Storable name value) : (vars.assign name value).Sound := by
  intro m text hm
  have hmono : ∀ k, vars.contains k = true → (vars.assign name value).contains k = true :=
    fun _ => contains_assign_of_contains name value
  rw [get?_assign] at hm
  by_cases he : m = name
  · rw [if_pos he] at hm
    cases hm
    rw [he]
    exact hs.mono hmono
  · rw [if_neg he] at hm
    exact (h m text hm).mono hmono

/-- One line keeps the table sound. -/
theorem Sound.afterLine {vars : Variables} (h : vars.Sound) (line : Text) :
    (vars.afterLine line).Sound := by
  have hs := vars.resolve_spec line
  unfold Variables.afterLine
  generalize vars.resolve line = r at hs
  cases hs with
  | fault => exact h
  | expression => exact h
  | refused => exact h
  | assigned hr ha =>
    obtain ⟨hn, hk⟩ := Pass.run_target vars _ _ _ _ hr
    exact h.assign (storable_assignment h hn hk ha)

theorem Sound.afterLines {vars : Variables} (h : vars.Sound) (lines : List Text) :
    (vars.afterLines lines).Sound := by
  induction lines generalizing vars with
  | nil => exact h
  | cons line lines ih => exact ih (h.afterLine line)

theorem contains_afterLine {vars : Variables} {m : Text} (h : vars.contains m = true)
    (line : Text) : (vars.afterLine line).contains m = true := by
  unfold afterLine
  split
  · next r _ =>
    cases r with
    | assigned name value => exact contains_assign_of_contains name value h
    | expression t => exact h
  · exact h

/-- No name is ever lost. -/
theorem contains_afterLines {vars : Variables} {m : Text} (h : vars.contains m = true)
    (lines : List Text) : (vars.afterLines lines).contains m = true := by
  induction lines generalizing vars with
  | nil => exact h
  | cons line lines ih => exact ih (contains_afterLine h line)

end Variables

/-- A line of a session leaves the table that resolving the line leaves. -/
theorem Session.evaluate_vars {σ : Type} [RandomSource σ] (s : Session σ) (line : Text) :
    (s.evaluate line).2.vars = s.vars.afterLine line := by
  unfold Session.evaluate Variables.afterLine
  cases s.vars.resolve line with
  | error e => rfl
  | ok r =>
    cases r with
    | assigned name value => rfl
    | expression t =>
      dsimp only
      unfold Session.evaluateExpression
      split
      · rfl
      · split <;> rfl

/-- Whatever lines a session is given, its table keeps every name and stays sound. -/
theorem tables_sound (lines : List Text) :
    let vars := Variables.initial.afterLines lines
    vars.contains "pi".toList = true ∧ vars.contains "e".toList = true ∧
      (∀ more m, vars.contains m = true → (vars.afterLines more).contains m = true) ∧
      ∀ name text, vars.get? name = some text → vars.Storable name text := by
  intro vars
  refine ⟨Variables.contains_afterLines rfl lines, Variables.contains_afterLines rfl lines, ?_,
    Variables.sound_initial.afterLines lines⟩
  intro more m hm
  exact Variables.contains_afterLines hm more

end MatrixCalc
