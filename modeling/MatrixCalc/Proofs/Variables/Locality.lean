import MatrixCalc.Proofs.Variables.Steps

/-!
# The variables that a line asks for

A line asks the table for the names in it and, in turn, for the names in the texts that it gets. A
table that answers these questions in the same way resolves the line in the same way: the pass
takes the same steps, for it never comes to read a name that was not asked for (`Pass.run_congr`).
-/
namespace MatrixCalc

open Text

theorem readName_congr {known known' : Text → Bool} {n : Text}
    (h : Function.isKeyword n = false → known' n = known n) (blanks rest : Text) :
    readName known' blanks n rest = readName known blanks n rest := by
  unfold readName
  cases hk : Function.ofKeyword? n with
  | some f => rfl
  | none => rw [h (by rw [Function.isKeyword, hk]; rfl)]

/-- A reading asks for names of the text only. -/
theorem read_congr {known known' : Text → Bool} {t : Text}
    (h : ∀ n ∈ t.references, known' n = known n) (fold : Bool) :
    read known' fold t = read known fold t := by
  have ht := t.blanks_append_trimStart
  unfold read
  cases htrim : t.trimStart with
  | nil => rfl
  | cons c tail =>
    dsimp only
    rw [htrim] at ht
    by_cases hc : isNameStart c = true
    · have hname := isName_takeWhile hc tail
      have hrest := continuesName_dropWhile tail
      have hpieces : t.pieces = t.blanks.pieces ++
          .name (c :: tail.takeWhile isNameChar) :: pieces (tail.dropWhile isNameChar) := by
        rw [← pieces_name hname hrest, List.cons_append, List.takeWhile_append_dropWhile,
          ← (leadingKept_of_isBlank (isBlank_blanks t) (c :: tail)).pieces_eq, ht]
      rw [readName_congr]
      intro hk
      refine h _ (mem_references.2 ⟨?_, hk⟩)
      rw [hpieces]
      exact List.mem_append_right _ (List.mem_cons_self ..)
    · rw [if_neg hc, if_neg hc]

theorem LeadingKept.mem_references {t s rest n : Text} (ht : LeadingKept t s rest)
    (hn : n ∈ rest.references) : n ∈ t.references := by
  obtain ⟨hn, hk⟩ := Text.mem_references.1 hn
  rw [Text.mem_references, ht.pieces_eq]
  exact ⟨List.mem_append_right _ hn, hk⟩

theorem LeadingName.mem_references {t blanks m rest n : Text} (ht : LeadingName t blanks m rest) :
    n ∈ m :: rest.references → n ∈ t.references := by
  intro hn
  refine ht.leadingKept.mem_references ?_
  rw [Text.mem_references, ht.pieces_name]
  rcases List.mem_cons.1 hn with rfl | hn
  · exact ⟨List.mem_cons_self .., ht.notKeyword⟩
  · obtain ⟨hn, hk⟩ := Text.mem_references.1 hn
    exact ⟨List.mem_cons_of_mem _ hn, hk⟩

/-- What stands behind the equals sign of an assignment. -/
theorem pieces_of_takeEquals? {t behind rest : Text} (h : takeEquals? t = some (behind, rest)) :
    behind = t.blanks ++ ['='] ∧
      t.pieces = t.blanks.map .char ++ .char '=' :: rest.pieces := by
  have ht := takeEquals?_eq_some h
  unfold takeEquals? at h
  split at h
  · cases h
    refine ⟨rfl, ?_⟩
    have hblanks : ∀ c ∈ t.blanks, isNameStart c = false :=
      fun c hc => isNameStart_of_isBlank (isBlank_blanks t c hc)
    rw [List.append_assoc, List.singleton_append] at ht
    have hpieces := pieces_chars_append hblanks ('=' :: rest)
    rwa [ht, pieces_char rfl] at hpieces
  · cases h

namespace Variables

/-- The names that the line asks the table for. -/
inductive Asks (vars : Variables) (line : Text) : Text → Prop
  | line {n : Text} (h : n ∈ line.references) : Asks vars line n
  | text {n value m : Text} (h : Asks vars line n) (hv : vars.get? n = some value)
      (hm : m ∈ value.references) : Asks vars line m

/-- Both tables answer in the same way what the line asks the first one for. -/
def AgreesOn (vars other : Variables) (line : Text) : Prop :=
  ∀ n, vars.Asks line n → other.get? n = vars.get? n

theorem contains_congr {vars other : Variables} {n : Text} (h : other.get? n = vars.get? n) :
    other.contains n = vars.contains n := by
  rw [contains, contains, h]

/-- The other table is then asked for nothing else. -/
theorem AgreesOn.asks {vars other : Variables} {line n : Text} (h : vars.AgreesOn other line)
    (hn : other.Asks line n) : vars.Asks line n := by
  induction hn with
  | line hn => exact .line hn
  | text _ hv hm ih => exact .text ih ((h _ ih).symm.trans hv) hm

theorem agreesOn_assign {vars : Variables} {line name : Text} (h : ¬ vars.Asks line name)
    (value : Text) : vars.AgreesOn (vars.assign name value) line := by
  intro n hn
  rw [get?_assign, if_neg]
  rintro rfl
  exact h hn

end Variables

namespace Pass

/-- The pass has still to read only names that the line asks for. -/
def Asking (vars : Variables) (line : Text) (p : Pass) : Prop :=
  ∀ n ∈ p.rest.references, vars.Asks line n

theorem asking_start (vars : Variables) (line : Text) : (start line).Asking vars line :=
  fun _ hn => .line hn

theorem Asking.next {vars : Variables} {line : Text} {p q : Pass} (h : p.Asking vars line)
    (hs : StepsTo vars p (.next q)) : q.Asking vars line := by
  intro m hm
  cases hs with
  | @splice blanks n value rest ht hv _ =>
    rcases (mem_references_append ht.ended).1 hm with hm | hm
    · exact .text (h n (ht.mem_references (List.mem_cons_self ..))) hv hm
    · exact h m (ht.mem_references (List.mem_cons_of_mem _ hm))
  | skip ht => exact h m (ht.mem_references hm)

theorem step_congr {vars other : Variables} {p : Pass}
    (h : ∀ n ∈ p.rest.references, other.get? n = vars.get? n) : p.step other = p.step vars := by
  have hr := read_spec vars.contains p.rest
  unfold step
  rw [read_congr fun n hn => Variables.contains_congr (h n hn)]
  generalize read vars.contains false p.rest = r at hr
  cases hr with
  | stop | target => rfl
  | fault ho => simp only [ho]
  | @kept _ _ _ token _ _ _ href =>
    cases token with
    | reference n => exact absurd rfl (href n)
    | _ => rfl
  | reference ht hv =>
    dsimp only
    rw [h _ (ht.mem_references (List.mem_cons_self ..))]

/-- Tables that agree on what the line asks for take the pass the same way. -/
theorem run_congr {vars other : Variables} {line : Text} (hagree : vars.AgreesOn other line)
    (p : Pass) : p.Asking vars line → p.run other = p.run vars := by
  refine (loop vars).run_induct (motive := fun p result => p.Asking vars line →
    p.run other = result) ?_ ?_ p
  · intro p result hturn hp
    have hsame := step_congr fun n hn => hagree n (hp n hn)
    exact (loop other).run_of_halt (hsame.trans hturn)
  · intro p q result hturn ih hp
    have hsame := step_congr fun n hn => hagree n (hp n hn)
    have hs := p.step_spec vars
    rw [show p.step vars = .next q from hturn] at hs
    exact ((loop other).run_of_next (hsame.trans hturn)).trans (ih (hp.next hs))

/-- Also the target of an assignment, and the names behind it, are asked for. -/
theorem asks_of_run_target {vars : Variables} {line : Text} (p : Pass) :
    p.Asking vars line → ∀ name offset behind, p.run vars = .ok (.target name offset behind) →
      vars.Asks line name ∧ ∀ n ∈ behind.references, vars.Asks line n := by
  refine run_induct (motive := fun p result => p.Asking vars line →
    ∀ name offset behind, result = .ok (.target name offset behind) →
      vars.Asks line name ∧ ∀ n ∈ behind.references, vars.Asks line n) ?_ ?_ p
  · intro p result hs hp name offset behind hr
    rw [hr] at hs
    cases hs with
    | target ht he =>
      refine ⟨hp name (ht.mem_references (List.mem_cons_self ..)), ?_⟩
      intro n hn
      apply hp n
      apply ht.mem_references
      obtain ⟨hn, hk⟩ := mem_references.1 hn
      refine List.mem_cons_of_mem _ (mem_references.2 ⟨?_, hk⟩)
      rw [(pieces_of_takeEquals? he).2]
      exact List.mem_append_right _ (List.mem_cons_of_mem _ hn)
  · intro p q result hs ih hp
    exact ih (hp.next hs)

end Pass

namespace SelfPass

theorem step_congr {vars other : Variables} {name : Text} {p : SelfPass}
    (hname : other.get? name = vars.get? name)
    (h : ∀ n ∈ p.rest.references, other.get? n = vars.get? n) :
    p.step other name = p.step vars name := by
  unfold step
  rw [read_congr fun n hn => Variables.contains_congr (h n hn), hname]

theorem run_congr {vars other : Variables} {name : Text}
    (hname : other.get? name = vars.get? name) (p : SelfPass) :
    (∀ n ∈ p.rest.references, other.get? n = vars.get? n) →
      (loop other name).run p = (loop vars name).run p := by
  refine (loop vars name).run_induct (motive := fun p result =>
    (∀ n ∈ p.rest.references, other.get? n = vars.get? n) →
      (loop other name).run p = result) ?_ ?_ p
  · intro p result hturn hp
    exact (loop other name).run_of_halt ((step_congr hname hp).trans hturn)
  · intro p q result hturn ih hp
    have hs := p.step_spec vars name
    rw [show p.step vars name = .next q from hturn] at hs
    refine ((loop other name).run_of_next ((step_congr hname hp).trans hturn)).trans (ih ?_)
    intro n hn
    apply hp n
    cases hs with
    | own ht | other ht => exact ht.mem_references (List.mem_cons_of_mem _ hn)
    | kept ht => exact ht.mem_references hn

end SelfPass

namespace Text

theorem continuesName_of_isBlank {t : Text} (ht : ∀ c ∈ t, isBlank c = true) :
    continuesName t = false := by
  cases t with
  | nil => rfl
  | cons c t => exact isNameChar_of_isBlank (ht c (List.mem_cons_self ..))

theorem exists_trimEnd_append (t : Text) :
    ∃ blanks, (∀ c ∈ blanks, isBlank c = true) ∧ t = t.trimEnd ++ blanks := by
  refine ⟨(t.reverse.takeWhile isBlank).reverse, ?_, ?_⟩
  · intro c hc
    exact List.all_eq_true.1 List.all_takeWhile c (List.mem_reverse.1 hc)
  · rw [trimEnd, ← List.reverse_append, List.takeWhile_append_dropWhile, List.reverse_reverse]

theorem references_trimStart (t : Text) : t.trimStart.references = t.references := by
  have h := references_chars_append
    (fun c hc => isNameStart_of_isBlank (isBlank_blanks t c hc)) t.trimStart
  rw [← h, blanks_append_trimStart]

/-- Blanks cut off the ends take no name with them. -/
theorem mem_references_trim {n t : Text} :
    n ∈ t.trimStart.trimEnd.references ↔ n ∈ t.references := by
  obtain ⟨behind, hbehind, htrim⟩ := t.trimStart.exists_trimEnd_append
  have hnone : references behind = [] :=
    references_chars fun c hc => isNameStart_of_isBlank (hbehind c hc)
  have hend := mem_references_append (n := n) (s := t.trimStart.trimEnd)
    (continuesName_of_isBlank hbehind)
  rw [← htrim, hnone, references_trimStart] at hend
  rw [hend]
  simp only [List.not_mem_nil, or_false]

end Text

namespace Variables

theorem resolve_congr {vars other : Variables} {line : Text} (hagree : vars.AgreesOn other line) :
    other.resolve line = vars.resolve line := by
  have hrun := Pass.run_congr hagree _ (Pass.asking_start vars line)
  unfold resolve
  rw [hrun]
  cases hr : (Pass.start line).run vars with
  | error e => rfl
  | ok verdict =>
    cases verdict with
    | expression t => rfl
    | target name offset behind =>
      obtain ⟨hname, hbehind⟩ :=
        Pass.asks_of_run_target _ (Pass.asking_start vars line) name offset behind hr
      have hself : other.assignment name offset behind = vars.assignment name offset behind := by
        unfold assignment
        dsimp only
        split
        · rfl
        · refine SelfPass.run_congr (hagree name hname) _ fun n hn => ?_
          apply hagree n
          apply hbehind n
          exact mem_references_trim.1 hn
      change other.assignment name offset behind >>= _ = vars.assignment name offset behind >>= _
      rw [hself]

end Variables
end MatrixCalc
