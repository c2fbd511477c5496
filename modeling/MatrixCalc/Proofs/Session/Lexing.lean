import MatrixCalc.Proofs.Session.Tables
import MatrixCalc.Proofs.Variables.Fusion
import MatrixCalc.Proofs.Variables.Termination

/-!
# Stored texts and the lexer

A stored text is made of what was typed and of older stored texts, which are not read again. It
can always be taken apart into lexemes that read by themselves, but numerals of both parts may
have become one, and this numeral may hold two points.
-/
namespace MatrixCalc

open Text

/-- The text is made of blanks and of lexemes that read by themselves, numerals with a digit. -/
inductive Lexable (known : Text → Bool) : Text → Prop
  | blank {t : Text} (ht : ∀ c ∈ t, isBlank c = true) : Lexable known t
  | cons {blanks lexeme rest : Text} {outcome : Except Fault Token}
      (hb : ∀ c ∈ blanks, isBlank c = true) (h : Takes known lexeme outcome rest)
      (hdigit : startsNumeral lexeme = true → lexeme.any Char.isDigit = true)
      (hrest : Lexable known rest) : Lexable known (blanks ++ (lexeme ++ rest))

theorem Takes.mono {known known' : Text → Bool} {lexeme rest : Text}
    {outcome : Except Fault Token} (h : Takes known lexeme outcome rest)
    (hsub : ∀ n, known n = true → known' n = true) : Takes known' lexeme outcome rest := by
  cases h with
  | numeral hne hrun => exact .numeral hne hrun
  | keyword hn hf hr => exact .keyword hn hf hr
  | reference hn hf hv hr => exact .reference hn hf (hsub _ hv) hr
  | symbol hs => exact .symbol hs

theorem Takes.before {known : Text → Bool} {lexeme rest u : Text}
    {outcome : Except Fault Token} (h : Takes known lexeme outcome rest)
    (hu : continuesName rest = false → continuesName u = false) : Takes known lexeme outcome u := by
  cases h with
  | numeral hne hrun => exact .numeral hne hrun
  | keyword hn hf hr => exact .keyword hn hf (hu hr)
  | reference hn hf hv hr => exact .reference hn hf hv (hu hr)
  | symbol hs => exact .symbol hs

namespace Lexable

variable {known : Text → Bool}

theorem mono {known' : Text → Bool} {t : Text} (h : Lexable known t)
    (hsub : ∀ n, known n = true → known' n = true) : Lexable known' t := by
  induction h with
  | blank ht => exact .blank ht
  | cons hb h hdigit _ ih => exact .cons hb (h.mono hsub) hdigit ih

theorem blanks_append {blanks t : Text} (hb : ∀ c ∈ blanks, isBlank c = true)
    (h : Lexable known t) : Lexable known (blanks ++ t) := by
  cases h with
  | blank ht =>
    refine .blank fun c hc => ?_
    exact (List.mem_append.1 hc).elim (hb c) (ht c)
  | cons hb' h hdigit hrest =>
    rw [← List.append_assoc]
    refine .cons (fun c hc => ?_) h hdigit hrest
    exact (List.mem_append.1 hc).elim (hb c) (hb' c)

theorem numeral {run : Text} (hne : run ≠ [])
    (hrun : ∀ c ∈ run, Decimal.isNumeralChar c = true) (hdigit : run.any Char.isDigit = true) :
    Lexable known run := by
  have h : Lexable known ([] ++ (run ++ [])) :=
    .cons (List.forall_mem_nil _) (.numeral hne hrun) (fun _ => hdigit)
      (.blank (List.forall_mem_nil _))
  rwa [List.nil_append, List.append_nil] at h

/-- Texts may be put together where no name goes on. -/
theorem append {s t : Text} (hs : Lexable known s) (ht : Lexable known t)
    (hname : continuesName t = false) : Lexable known (s ++ t) := by
  induction hs with
  | blank hb => exact ht.blanks_append hb
  | cons hb h hdigit _ ih =>
    rw [List.append_assoc, List.append_assoc]
    exact .cons hb (h.before fun hr => continuesName_append hr hname) hdigit ih

/-- No such text begins with an equals sign. -/
theorem takeEquals?_eq_none {t : Text} (h : Lexable known t) : takeEquals? t = none := by
  cases h with
  | blank ht =>
    rw [takeEquals?, trimStart, List.dropWhile_eq_nil_iff.2 ht]
  | cons hb h =>
    obtain ⟨c, tail, rfl, hblank, hequals⟩ := h.exists_head
    rw [takeEquals?, List.cons_append, trimStart_append hb hblank]
    split
    · next he => exact absurd (List.cons.inj he).1 hequals
    · rfl

end Lexable

namespace Decimal

/-- Behind the first point there is none exactly when there is at most one. -/
theorem not_mem_fraction_iff (t : Text) : '.' ∉ (splitPoint t).2 ↔ t.count '.' ≤ 1 := by
  unfold splitPoint
  induction t with
  | nil => simp
  | cons c t ih =>
    by_cases hc : c = '.'
    · subst hc
      rw [List.dropWhile_cons_of_neg (by decide), List.drop_one, List.tail_cons,
        List.count_cons_self, ← List.count_eq_zero, Nat.succ_le_succ_iff, Nat.le_zero]
    · rw [List.dropWhile_cons_of_pos (by simpa using hc), List.count_cons_of_ne hc]
      exact ih

/-- A run of digits and points has a value when it has a digit and at most one point. -/
theorem exists_value?_iff {run : Text} (hrun : ∀ c ∈ run, isNumeralChar c = true) :
    (∃ x, value? run = some x) ↔ run.any Char.isDigit = true ∧ run.count '.' ≤ 1 := by
  have hunsigned : value? run = unsignedValue? run := by
    unfold value?
    split
    · exact absurd (hrun _ (List.mem_cons_self ..)) (by decide)
    · exact absurd (hrun _ (List.mem_cons_self ..)) (by decide)
    · rfl
  rw [hunsigned, ← not_mem_fraction_iff, unsignedValue?, List.all_eq_true.2 hrun]
  by_cases hpoint : '.' ∈ (splitPoint run).2
  · simp [hpoint]
  · simp [hpoint]

end Decimal

theorem exists_token_readNumeral_iff {blanks run rest : Text} :
    (∃ token, (readNumeral blanks run rest).outcome = .ok token) ↔
      ∃ x, Decimal.value? run = some x := by
  unfold readNumeral
  cases Decimal.value? run with
  | none => simp [Reading.plain]
  | some x => simp [Reading.plain]

/-- A token, or a numeral with a digit; only a second point makes the numeral a fault. -/
inductive Lexeme.Sound : Lexeme → Prop
  | numeral {start : Nat} {run : Text} (hrun : ∀ c ∈ run, Decimal.isNumeralChar c = true)
      (hdigit : run.any Char.isDigit = true) :
      Sound ⟨start, run, (readNumeral [] run []).outcome⟩
  | other {start : Nat} {text : Text} {token : Token} (hn : startsNumeral text = false) :
      Sound ⟨start, text, .ok token⟩

theorem Lexeme.Sound.attach {l : Lexeme} {ls : List Lexeme} (hl : l.Sound)
    (hls : ∀ m ∈ ls, m.Sound) : ∀ m ∈ l.attach ls, m.Sound := by
  cases ls with
  | nil => exact List.forall_mem_singleton.2 hl
  | cons m ls =>
    obtain ⟨hm, hls⟩ := List.forall_mem_cons.1 hls
    rw [Lexeme.attach]
    split
    · next hmeets =>
      simp only [meets, Bool.and_eq_true] at hmeets
      obtain ⟨⟨hlnum, hmnum⟩, -⟩ := hmeets
      refine List.forall_mem_cons.2 ⟨?_, hls⟩
      cases hl with
      | other hn => exact absurd hlnum (by simp [isNumeral, hn])
      | numeral hrun hdigit =>
        cases hm with
        | other hn => exact absurd hmnum (by simp [isNumeral, hn])
        | numeral hrun' _ =>
          refine .numeral (fun c hc => ?_) ?_
          · exact (List.mem_append.1 hc).elim (hrun c) (hrun' c)
          · rw [List.any_append, hdigit, Bool.true_or]
    · exact List.forall_mem_cons.2 ⟨hl, List.forall_mem_cons.2 ⟨hm, hls⟩⟩

theorem Takes.sound {known : Text → Bool} {lexeme rest : Text} {outcome : Except Fault Token}
    (h : Takes known lexeme outcome rest)
    (hdigit : startsNumeral lexeme = true → lexeme.any Char.isDigit = true) (offset : Nat) :
    Lexeme.Sound ⟨offset, lexeme, outcome⟩ := by
  cases h with
  | numeral hne hrun => exact .numeral hrun (hdigit (startsNumeral_of_all hne hrun))
  | keyword hn | reference hn => exact .other hn.startsNumeral
  | symbol hs => exact .other (symbol?_plain hs).2.1

theorem Lexable.sound {known : Text → Bool} {t : Text} (h : Lexable known t) (offset : Nat) :
    ∀ l ∈ lexemes known offset t, l.Sound := by
  induction h generalizing offset with
  | blank ht =>
    rw [lexemes_of_trimStart (List.dropWhile_eq_nil_iff.2 ht)]
    exact List.forall_mem_nil _
  | cons hb h hdigit hrest ih =>
    rw [lexemes_blanks_append hb, h.lexemes_append id fun _ _ => hrest.takeEquals?_eq_none]
    exact (h.sound hdigit _).attach (ih _)

/-- A sound lexeme is a token unless it is a numeral with two points. -/
theorem Lexeme.Sound.exists_token_iff {l : Lexeme} (h : l.Sound) :
    (∃ token, l.outcome = .ok token) ↔ (l.isNumeral = true → l.text.count '.' ≤ 1) := by
  cases h with
  | other hn =>
    refine ⟨fun _ hnum => ?_, fun _ => ⟨_, rfl⟩⟩
    rw [isNumeral, hn] at hnum
    cases hnum
  | @numeral start run hrun hdigit =>
    have hne : run ≠ [] := by
      rintro rfl
      cases hdigit
    have hnum : isNumeral ⟨start, run, (readNumeral [] run []).outcome⟩ = true :=
      startsNumeral_of_all hne hrun
    simp only [hnum, forall_const]
    rw [exists_token_readNumeral_iff, Decimal.exists_value?_iff hrun, and_iff_right hdigit]

/-- The tokens of a lexable text can be read to the end unless a numeral has two points. -/
theorem Lexable.exists_tokens_iff {known : Text → Bool} {t : Text} (h : Lexable known t) :
    (∃ ts, (Scanner.startingAt t 0).tokens known = .ok ts) ↔
      ∀ l ∈ lexemes known 0 t, l.isNumeral = true → l.text.count '.' ≤ 1 := by
  rw [Scanner.tokens_startingAt, exists_mapM_eq_ok_iff]
  exact forall₂_congr fun l hl => l.exists_result_iff.trans (h.sound 0 l hl).exists_token_iff

/-- A numeral that has a value holds a digit. -/
theorem Takes.any_isDigit {known : Text → Bool} {lexeme rest : Text} {token : Token}
    (h : Takes known lexeme (.ok token) rest) (hnum : startsNumeral lexeme = true) :
    lexeme.any Char.isDigit = true := by
  generalize ho : (Except.ok token : Except Fault Token) = outcome at h
  cases h with
  | numeral hne hrun =>
    have htoken := exists_token_readNumeral_iff.1 ⟨token, ho.symm⟩
    exact ((Decimal.exists_value?_iff hrun).1 htoken).1
  | keyword hn | reference hn =>
    rw [hn.startsNumeral] at hnum
    cases hnum
  | symbol hs =>
    rw [show startsNumeral [_] = false from (symbol?_plain hs).2.1] at hnum
    cases hnum

namespace SelfPass

/-- What a step of the pass through an assigned text leaves. -/
inductive Leaves (vars : Variables) (name : Text) (p : SelfPass) :
    Turn SelfPass (Except ParseError Text) → Prop
  | finish (hr : ∀ c ∈ p.rest, isBlank c = true) : Leaves vars name p (.halt (.ok p.text))
  | fault {e : ParseError} : Leaves vars name p (.halt (.error e))
  | own {blanks value rest : Text} {cursor : Nat} (ht : p.rest = blanks ++ (name ++ rest))
      (hb : ∀ c ∈ blanks, isBlank c = true) (hn : IsName name)
      (hr : continuesName rest = false) (hv : vars.get? name = some value) :
      Leaves vars name p (.next ⟨cursor, (blanks ++ value).reverse ++ p.done, rest⟩)
  | keep {blanks lexeme rest : Text} {token : Token} {cursor : Nat}
      (ht : p.rest = blanks ++ (lexeme ++ rest)) (hb : ∀ c ∈ blanks, isBlank c = true)
      (h : Takes vars.contains lexeme (.ok token) rest) :
      Leaves vars name p (.next ⟨cursor, (blanks ++ lexeme).reverse ++ p.done, rest⟩)

theorem leaves_step (vars : Variables) (name : Text) (p : SelfPass) :
    Leaves vars name p (p.step vars name) := by
  have hfinds := read_finds vars.contains p.rest
  unfold step
  generalize read vars.contains false p.rest = r at hfinds
  cases hfinds with
  | stop ht => exact .finish ht
  | @taken lexeme rest outcome ht h =>
    cases outcome with
    | error f => exact .fault
    | ok token =>
      cases token with
      | stop => exact absurd rfl h.ne_stop
      | target n => exact .fault
      | reference n =>
        obtain ⟨rfl, hn, -, hv, hr⟩ := h.reference_inv
        by_cases hname : lexeme = name
        · subst hname
          obtain ⟨value, hvalue⟩ := Variables.exists_get?_of_contains hv
          simp only [Reading.plain, keep, if_true, hvalue, Option.getD_some]
          exact .own ht (isBlank_blanks _) hn hr hvalue
        · have hne : Token.reference lexeme ≠ .reference name :=
            fun he => hname (Token.reference.inj he)
          simp only [Reading.plain, keep, if_neg hne]
          exact .keep ht (isBlank_blanks _) h
      | _ =>
        simp only [Reading.plain, keep, reduceCtorEq, if_false]
        exact .keep ht (isBlank_blanks _) h
  | refused hn ho =>
    cases hout : r.outcome with
    | error f =>
      simp only [hout]
      exact .fault
    | ok token =>
      obtain ⟨n, rfl⟩ := ho token hout
      simp only [hout]
      exact .fault

/-- What the pass returns can be taken apart, if the old text of the name can. -/
theorem run_lexable {vars : Variables} {name : Text}
    (hold : ∀ old, vars.get? name = some old → Lexable vars.contains old) (p : SelfPass) :
    ∀ v, (loop vars name).run p = .ok v →
      ∃ u, v = p.done.reverse ++ u ∧ (continuesName p.rest = false → continuesName u = false) ∧
        Lexable vars.contains u := by
  refine (loop vars name).run_induct (motive := fun p result => ∀ v, result = .ok v →
    ∃ u, v = p.done.reverse ++ u ∧ (continuesName p.rest = false → continuesName u = false) ∧
      Lexable vars.contains u) ?_ ?_ p
  · intro p result hturn v hv
    have hleaves := p.leaves_step vars name
    rw [show p.step vars name = .halt result from hturn] at hleaves
    cases hleaves with
    | finish hr =>
      cases hv
      exact ⟨p.rest, rfl, id, .blank hr⟩
    | fault => cases hv
  · intro p q result hturn ih v hv
    obtain ⟨u, htext, hname, hu⟩ := ih v hv
    have hleaves := p.leaves_step vars name
    rw [show p.step vars name = .next q from hturn] at hleaves
    cases hleaves with
    | @own blanks value rest cursor hrest hb hn hr hvalue =>
      refine ⟨blanks ++ (value ++ u), ?_, ?_, ?_⟩
      · rw [htext, List.reverse_append, List.reverse_reverse, List.append_assoc, List.append_assoc]
      · intro hp
        have hne : blanks ≠ [] := by
          rintro rfl
          rw [hrest, List.nil_append, hn.continuesName_append] at hp
          cases hp
        rwa [hrest, continuesName_append_congr hne _ (value ++ u)] at hp
      · exact ((hold value hvalue).append hu (hname hr)).blanks_append hb
    | @keep blanks lexeme rest token cursor hrest hb h =>
      refine ⟨blanks ++ (lexeme ++ u), ?_, ?_, ?_⟩
      · rw [htext, List.reverse_append, List.reverse_reverse, List.append_assoc, List.append_assoc]
      · intro hp
        have hne : blanks ++ lexeme ≠ [] := List.append_ne_nil_of_right_ne_nil _ h.ne_nil
        rwa [hrest, ← List.append_assoc, continuesName_append_congr hne _ u,
          List.append_assoc] at hp
      · exact .cons hb (h.before hname) h.any_isDigit hu

end SelfPass

namespace Variables

/-- Every stored text can be taken apart. -/
def Clean (vars : Variables) : Prop :=
  ∀ name text, vars.get? name = some text → Lexable vars.contains text

theorem clean_initial : initial.Clean := by
  intro name text h
  unfold get? initial at h
  rw [List.lookup_cons] at h
  split at h
  · cases h
    exact .numeral (by simp) (List.all_eq_true.1 rfl) rfl
  · rw [List.lookup_cons] at h
    split at h
    · cases h
      exact .numeral (by simp) (List.all_eq_true.1 rfl) rfl
    · cases h

/-- What an assignment stores can be taken apart. -/
theorem lexable_assignment {vars : Variables} (h : vars.Clean) {name behind value : Text}
    {offset : Nat} (ha : vars.assignment name offset behind = .ok value) :
    Lexable vars.contains value := by
  unfold assignment at ha
  dsimp only at ha
  split at ha
  · cases ha
  · obtain ⟨u, rfl, -, hu⟩ := SelfPass.run_lexable (h name) _ value ha
    exact hu

theorem Clean.assign {vars : Variables} (h : vars.Clean) {name value : Text}
    (hv : Lexable vars.contains value) : (vars.assign name value).Clean := by
  intro m text hm
  have hsub : ∀ k, vars.contains k = true → (vars.assign name value).contains k = true :=
    fun _ => contains_assign_of_contains name value
  rw [get?_assign] at hm
  split at hm
  · cases hm
    exact hv.mono hsub
  · exact (h m text hm).mono hsub

theorem Clean.afterLine {vars : Variables} (h : vars.Clean) (line : Text) :
    (vars.afterLine line).Clean := by
  have hs := vars.resolve_spec line
  unfold Variables.afterLine
  generalize vars.resolve line = r at hs
  cases hs with
  | fault => exact h
  | expression => exact h
  | refused => exact h
  | assigned _ ha => exact h.assign (lexable_assignment h ha)

theorem Clean.afterLines {vars : Variables} (h : vars.Clean) (lines : List Text) :
    (vars.afterLines lines).Clean := by
  induction lines generalizing vars with
  | nil => exact h
  | cons line lines ih => exact ih (h.afterLine line)

theorem afterLines_three :
    initial.afterLines ["x = 3".toList] = initial.assign "x".toList "3".toList := by
  have htarget : (Pass.start "x = 3".toList).run initial =
      .ok (.target "x".toList 3 " 3".toList) := (Pass.loop _).run_of_turns (n := 1) rfl
  refine afterLines_of_assigned (resolve_of_assignment htarget ?_)
  exact (SelfPass.loop _ _).run_of_turns (n := 2) rfl

theorem resolve_two_behind_three :
    (initial.afterLines ["x = 3".toList]).resolve "2x".toList = .ok (.expression "23".toList) := by
  rw [afterLines_three]
  exact resolve_of_run ((Pass.loop _).run_of_turns (n := 4) rfl)

theorem afterLines_half :
    initial.afterLines ["x = .5".toList] = initial.assign "x".toList ".5".toList := by
  have htarget : (Pass.start "x = .5".toList).run initial =
      .ok (.target "x".toList 3 " .5".toList) := (Pass.loop _).run_of_turns (n := 1) rfl
  refine afterLines_of_assigned (resolve_of_assignment htarget ?_)
  exact (SelfPass.loop _ _).run_of_turns (n := 2) rfl

theorem resolve_point_behind_half :
    (initial.afterLines ["x = .5".toList]).resolve "x = 1.x".toList =
      .ok (.assigned "x".toList "1..5".toList) := by
  rw [afterLines_half]
  have htarget : (Pass.start "x = 1.x".toList).run (initial.assign "x".toList ".5".toList) =
      .ok (.target "x".toList 3 " 1.x".toList) := (Pass.loop _).run_of_turns (n := 1) rfl
  refine resolve_of_assignment htarget ?_
  exact (SelfPass.loop _ _).run_of_turns (n := 3) rfl

end Variables

/-- In a session the parser sees the tokens that the pass leaves in place, with numerals that meet
made one, and so the same tokens exactly when none meet. A stored text can be read to its end
exactly when no numeral in it has two points. -/
theorem splicing_keeps_tokens_iff_apart (lines : List Text) (line : Text) :
    let vars := Variables.initial.afterLines lines
    (∀ t, vars.resolve line = .ok (.expression t) →
      (Scanner.startingAt t 0).tokens vars.contains =
          (fuse ((Pass.start line).kept vars)).mapM Lexeme.result ∧
        ((Scanner.startingAt t 0).tokens vars.contains =
            ((Pass.start line).kept vars).mapM Lexeme.result ↔
          Apart ((Pass.start line).kept vars))) ∧
      ∀ name value, vars.resolve line = .ok (.assigned name value) →
        (vars.afterLine line).get? name = some value ∧
          ((∃ ts, (Scanner.startingAt value 0).tokens (vars.afterLine line).contains = .ok ts) ↔
            ∀ l ∈ lexemes (vars.afterLine line).contains 0 value,
              l.isNumeral = true → l.text.count '.' ≤ 1) := by
  intro vars
  refine ⟨fun t ht => Variables.tokens_of_resolve ht, fun name value hassigned => ?_⟩
  have hafter : vars.afterLine line = vars.assign name value :=
    Variables.afterLines_of_assigned hassigned
  have hs := vars.resolve_spec line
  rw [hassigned] at hs
  cases hs with
  | assigned _ ha =>
    have hclean : vars.Clean := Variables.clean_initial.afterLines lines
    have hvalue : Lexable (vars.assign name value).contains value :=
      (Variables.lexable_assignment hclean ha).mono fun _ =>
        Variables.contains_assign_of_contains name value
    rw [hafter, Variables.get?_assign, if_pos rfl]
    exact ⟨rfl, hvalue.exists_tokens_iff⟩

/-- The theorem where a spliced text touches a numeral, in a line and in an assignment. -/
theorem splicing_keeps_tokens_iff_apart_of_touching :
    let vars := Variables.initial.afterLines ["x = 3".toList]
    let vars' := Variables.initial.afterLines ["x = .5".toList]
    (vars.resolve "2x".toList = .ok (.expression "23".toList) ∧
      (Scanner.startingAt "23".toList 0).tokens vars.contains =
        (fuse ((Pass.start "2x".toList).kept vars)).mapM Lexeme.result) ∧
      vars'.resolve "x = 1.x".toList = .ok (.assigned "x".toList "1..5".toList) ∧
        (vars'.afterLine "x = 1.x".toList).get? "x".toList = some "1..5".toList := by
  intro vars vars'
  obtain ⟨hexpression, -⟩ := splicing_keeps_tokens_iff_apart ["x = 3".toList] "2x".toList
  obtain ⟨-, hassigned⟩ := splicing_keeps_tokens_iff_apart ["x = .5".toList] "x = 1.x".toList
  have hline := Variables.resolve_two_behind_three
  have hvalue := Variables.resolve_point_behind_half
  exact ⟨⟨hline, (hexpression _ hline).1⟩, hvalue, (hassigned _ _ hvalue).1⟩

/-- Neither boundary is kept: `2x` becomes `23` where `x` is `3`, and `1.x` becomes `1..5`, which
cannot be read, where `x` is `.5`. -/
theorem splicing_joins_numerals :
    let vars := Variables.initial.afterLines ["x = 3".toList]
    let vars' := Variables.initial.afterLines ["x = .5".toList]
    (vars.resolve "2x".toList = .ok (.expression "23".toList) ∧
      (Scanner.startingAt "23".toList 0).tokens vars.contains ≠
        ((Pass.start "2x".toList).kept vars).mapM Lexeme.result) ∧
      vars'.resolve "x = 1.x".toList = .ok (.assigned "x".toList "1..5".toList) ∧
        (Scanner.startingAt "1..5".toList 0).tokens
            (vars'.afterLine "x = 1.x".toList).contains =
          .error ⟨0, .badNumeral "1..5".toList⟩ := by
  intro vars vars'
  have hline := Variables.resolve_two_behind_three
  refine ⟨⟨hline, ?_⟩, Variables.resolve_point_behind_half, ?_⟩
  · rw [Ne, (Variables.tokens_of_resolve hline).2, Variables.afterLines_three,
      Pass.kept_of_next rfl, Pass.kept_of_next rfl, Pass.kept_of_next rfl, Pass.kept_of_halt rfl]
    intro hapart
    exact absurd (List.isChain_cons_cons.1 hapart).1 (by decide)
  · have hnext : (Scanner.startingAt "1..5".toList 0).next
        (vars'.afterLine "x = 1.x".toList).contains false =
          (.error ⟨0, .badNumeral "1..5".toList⟩, ⟨[], 4, 0, 4, false⟩) := rfl
    exact Scanner.tokens_of_error hnext

end MatrixCalc
