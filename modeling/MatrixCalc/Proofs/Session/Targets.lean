import MatrixCalc.Proofs.Session.Lexing
import MatrixCalc.Proofs.Variables.Cycles
import MatrixCalc.Proofs.Variables.Locality

/-!
# Which name a line assigns, and what it stores

The pass comes to an assignment in a text that it has changed on the way, but no stored text holds
an equals sign. So the sign that it finds is the first one of the line, and the name in front of it
is the one that was typed there: a name at the end of a spliced text cannot come to stand in front
of the sign, for then the name that it was spliced for stood there.
-/
namespace MatrixCalc

open Text

theorem Text.mem_of_char_mem_pieces {c : Char} {t : Text} (h : .char c ∈ t.pieces) : c ∈ t := by
  have hmem : c ∈ ofPieces t.pieces := List.mem_flatMap.2 ⟨_, h, List.mem_singleton_self c⟩
  rwa [ofPieces_pieces] at hmem

theorem Text.ofPieces_map_char (t : Text) : ofPieces (t.map .char) = t := by
  induction t with
  | nil => rfl
  | cons c t ih =>
    rw [List.map_cons, ofPieces_cons, ih]
    rfl

theorem takeEquals?_append {blanks : Text} (hb : ∀ c ∈ blanks, isBlank c = true) (t : Text) :
    takeEquals? (blanks ++ '=' :: t) = some (blanks ++ ['='], t) := by
  have htrim : trimStart (blanks ++ '=' :: t) = '=' :: t := trimStart_append hb rfl t
  have hblanks : Text.blanks (blanks ++ '=' :: t) = blanks := blanks_append hb rfl t
  simp only [takeEquals?, htrim, hblanks]

/-- The first equals sign stands directly behind the name, blanks aside, and before `behind`. -/
inductive FirstTarget (name behind : Text) : List Piece → Prop
  | intro {ps : List Piece} {blanks : Text} (hps : .char '=' ∉ ps)
      (hb : ∀ c ∈ blanks, isBlank c = true) :
      FirstTarget name behind
        (ps ++ .name name :: (blanks.map .char ++ .char '=' :: behind.pieces))

namespace FirstTarget

variable {name behind : Text}

theorem append {ps qs : List Piece} (h : FirstTarget name behind qs) (hps : .char '=' ∉ ps) :
    FirstTarget name behind (ps ++ qs) := by
  cases h with
  | intro hqs hb =>
    rw [← List.append_assoc]
    refine .intro ?_ hb
    rw [List.mem_append]
    exact not_or.2 ⟨hps, hqs⟩

theorem exists_append {line : Text} (h : FirstTarget name behind line.pieces) :
    ∃ before blanks, line = before ++ (name ++ (blanks ++ '=' :: behind)) ∧ '=' ∉ before ∧
      ∀ c ∈ blanks, isBlank c = true := by
  generalize hline : line.pieces = pieces at h
  cases h with
  | @intro ps blanks hps hb =>
    refine ⟨ofPieces ps, blanks, ?_, ?_, hb⟩
    · rw [← ofPieces_pieces line, hline]
      simp only [ofPieces_append, ofPieces_cons, ofPieces_map_char, ofPieces_pieces, Piece.text,
        List.singleton_append]
    · intro hm
      obtain ⟨q, hq, hc⟩ := List.mem_flatMap.1 hm
      cases q with
      | char c =>
        cases List.mem_singleton.1 hc
        exact hps hq
      | name n =>
        have hn : .name n ∈ line.pieces := hline ▸ List.mem_append_left _ hq
        exact (isName_of_mem_pieces hn).equals_not_mem hc

/-- The target is not found in a text without an equals sign, and not across its end either, when
no equals sign follows directly behind. -/
theorem of_append {value rest : Text} (hvalue : '=' ∉ value) (hrest : takeEquals? rest = none)
    (h : FirstTarget name behind (value.pieces ++ rest.pieces)) :
    FirstTarget name behind rest.pieces := by
  have hvalue' : .char '=' ∉ value.pieces := fun hm => hvalue (mem_of_char_mem_pieces hm)
  generalize hps : value.pieces ++ rest.pieces = pieces at h
  cases h with
  | @intro ps blanks heq hb =>
    rcases split_append hps with ⟨rs, hrs, hbehind⟩ | ⟨rs, hrs⟩
    · -- The name stands in the text, so only blanks are left of it and in front of the sign.
      exfalso
      have hrs' : .char '=' ∉ rs := fun hm =>
        hvalue' (hrs ▸ List.mem_append_right _ (List.mem_cons_of_mem _ hm))
      rcases List.append_eq_append_iff.1 hbehind with ⟨cs, hcs, hsign⟩ | ⟨cs, hcs, hsign⟩
      · cases cs with
        | nil =>
          rw [List.nil_append] at hsign
          have htext := congrArg ofPieces hsign
          rw [ofPieces_pieces, ofPieces_cons, ofPieces_pieces] at htext
          have hnone : takeEquals? rest = some ([] ++ ['='], behind) := by
            rw [← htext]
            exact takeEquals?_append (List.forall_mem_nil _) behind
          rw [hrest] at hnone
          cases hnone
        | cons c cs =>
          have hc : .char '=' = c := (List.cons.inj hsign).1
          exact hrs' (hcs ▸ List.mem_append_right _ (hc ▸ List.mem_cons_self ..))
      · have htext := congrArg ofPieces hsign
        obtain ⟨before, after, rfl, -, rfl⟩ := List.map_eq_append_iff.1 hcs
        rw [ofPieces_pieces, ofPieces_append, ofPieces_cons, ofPieces_pieces,
          ofPieces_map_char] at htext
        have hnone : takeEquals? rest = some (after ++ ['='], behind) := by
          rw [htext]
          exact takeEquals?_append (fun c hc => hb c (List.mem_append_right _ hc)) behind
        rw [hrest] at hnone
        cases hnone
    · rw [hrs]
      refine .intro ?_ hb
      rw [hrs, ← List.append_assoc] at hps
      intro hm
      exact heq (List.append_cancel_right hps ▸ List.mem_append_right _ hm)

end FirstTarget

namespace Pass

/-- A name that is read as a reference has no equals sign behind it. -/
theorem takeEquals?_of_next {vars : Variables} {p q : Pass} {blanks n rest : Text}
    (h : p.step vars = .next q) (ht : LeadingName p.rest blanks n rest) :
    takeEquals? rest = none := by
  cases he : takeEquals? rest with
  | none => rfl
  | some b =>
    obtain ⟨behind, rest'⟩ := b
    have hread : read vars.contains false (blanks ++ (n ++ rest)) =
        readName vars.contains blanks n rest := read_name ht.blank ht.isName ht.ended
    have hnone : Function.ofKeyword? n = none := by
      simpa [Function.isKeyword] using ht.notKeyword
    rw [readName, hnone, he] at hread
    unfold step at h
    rw [ht.eq_append, hread] at h
    cases h

/-- Where no stored text holds an equals sign, the target that the pass finds is the name in front
of the first equals sign of what it reads. -/
theorem firstTarget_of_run {vars : Variables}
    (hvars : ∀ name text, vars.get? name = some text → '=' ∉ text) (p : Pass) :
    ∀ name offset behind, p.run vars = .ok (.target name offset behind) →
      FirstTarget name behind p.rest.pieces := by
  refine (loop vars).run_induct (motive := fun p result =>
    ∀ name offset behind, result = .ok (.target name offset behind) →
      FirstTarget name behind p.rest.pieces) ?_ ?_ p
  · intro p result hturn name offset behind hr
    have hs := p.step_spec vars
    rw [show p.step vars = .halt result from hturn, hr] at hs
    cases hs with
    | @target blanks n behind' rest _ ht he =>
      obtain ⟨-, hpieces⟩ := pieces_of_takeEquals? he
      rw [ht.pieces_eq, hpieces]
      have hblanks : .char '=' ∉ blanks.pieces := fun hm =>
        equals_not_mem_of_isBlank ht.blank (mem_of_char_mem_pieces hm)
      exact .intro hblanks (isBlank_blanks _)
  · intro p q result hturn ih name offset behind hr
    have hq := ih name offset behind hr
    have hs := p.step_spec vars
    rw [show p.step vars = .next q from hturn] at hs
    cases hs with
    | @splice blanks n value rest ht hv ha =>
      have hrest := takeEquals?_of_next hturn ht
      rw [show (Pass.rest _).pieces = (value ++ rest).pieces from rfl,
        pieces_append value ht.ended] at hq
      have htarget := hq.of_append (hvars n value hv) hrest
      rw [ht.pieces_eq, ← List.singleton_append, ← List.append_assoc]
      refine htarget.append ?_
      simp only [List.mem_append, List.mem_singleton, reduceCtorEq, or_false]
      exact fun hm => equals_not_mem_of_isBlank ht.blank (mem_of_char_mem_pieces hm)
    | @skip s rest ht =>
      rw [ht.pieces_eq]
      exact hq.append fun hm => ht.noEquals (mem_of_char_mem_pieces hm)

end Pass

theorem Text.mem_trim {c : Char} {t : Text} (hc : isBlank c = false) (h : c ∈ t) :
    c ∈ t.trimStart.trimEnd := by
  obtain ⟨behind, hbehind, htrim⟩ := t.trimStart.exists_trimEnd_append
  have hstart : c ∈ t.trimStart := by
    rw [← t.blanks_append_trimStart, List.mem_append] at h
    refine h.resolve_left fun hm => ?_
    rw [isBlank_of_mem_blanks hm] at hc
    cases hc
  rw [htrim, List.mem_append] at hstart
  refine hstart.resolve_right fun hm => ?_
  rw [hbehind c hm] at hc
  cases hc

/-- In a session, a line that assigns has its first equals sign directly behind the name, blanks
aside, and no other. What is stored is the text behind the sign, trimmed, with the text that the
name had so far in the place of the name, and nothing else in the table changes. -/
theorem assignment_stores_substitution (lines : List Text) {line name value : Text}
    (h : (Variables.initial.afterLines lines).resolve line = .ok (.assigned name value)) :
    let vars := Variables.initial.afterLines lines
    ∃ before blanks behind : Text, line = before ++ (name ++ (blanks ++ '=' :: behind)) ∧
      FirstTarget name behind line.pieces ∧ '=' ∉ before ∧ (∀ c ∈ blanks, isBlank c = true) ∧
      '=' ∉ behind ∧ (∀ m ∈ behind.references, vars.contains m = true) ∧
      value = substitute name ((vars.get? name).getD []) behind.trimStart.trimEnd ∧
      ∀ m, (vars.afterLine line).get? m = if m = name then some value else vars.get? m := by
  intro vars
  have hsound : vars.Sound := Variables.sound_initial.afterLines lines
  have hafter : vars.afterLine line = vars.assign name value := Variables.afterLines_of_assigned h
  have hs := vars.resolve_spec line
  rw [show vars.resolve line = _ from h] at hs
  cases hs with
  | @assigned name behind value offset hr ha =>
    obtain ⟨-, hk⟩ := Pass.run_target vars _ _ _ _ hr
    have htarget : FirstTarget name behind line.pieces :=
      Pass.firstTarget_of_run (fun n t hg => (hsound n t hg).noEquals) _ _ _ _ hr
    obtain ⟨before, blanks, hline, hbefore, hblanks⟩ := htarget.exists_append
    obtain ⟨-, hassignable, hvalue⟩ := Variables.assignment_ok hk ha
    refine ⟨before, blanks, behind, hline, htarget, hbefore, hblanks, ?_, ?_, hvalue, ?_⟩
    · exact fun hm => hassignable.noEquals (mem_trim rfl hm)
    · exact fun m hm => hassignable.defined m (mem_references_trim.2 hm)
    · intro m
      rw [hafter, Variables.get?_assign]

/-- The target stands behind the name itself, which is spliced there, and refers to it. -/
theorem assignment_stores_substitution_of_three :
    let vars := Variables.initial.afterLines ["x = 3".toList]
    vars.resolve "x x = x + e".toList = .ok (.assigned "x".toList "3 + e".toList) ∧
      ∃ before blanks behind : Text,
        "x x = x + e".toList = before ++ ("x".toList ++ (blanks ++ '=' :: behind)) ∧
        FirstTarget "x".toList behind (Text.pieces "x x = x + e".toList) ∧ '=' ∉ before ∧
        (∀ c ∈ blanks, isBlank c = true) ∧ '=' ∉ behind ∧
        (∀ m ∈ behind.references, vars.contains m = true) ∧
        "3 + e".toList =
          substitute "x".toList ((vars.get? "x".toList).getD []) behind.trimStart.trimEnd ∧
        ∀ m, (vars.afterLine "x x = x + e".toList).get? m =
          if m = "x".toList then some "3 + e".toList else vars.get? m := by
  intro vars
  have hresolve : vars.resolve "x x = x + e".toList =
      .ok (.assigned "x".toList "3 + e".toList) := by
    change (Variables.initial.afterLines ["x = 3".toList]).resolve _ = _
    rw [Variables.afterLines_three]
    have htarget : (Pass.start "x x = x + e".toList).run
        (Variables.initial.assign "x".toList "3".toList) =
        .ok (.target "x".toList 5 " x + e".toList) := (Pass.loop _).run_of_turns (n := 3) rfl
    exact Variables.resolve_of_assignment htarget ((SelfPass.loop _ _).run_of_turns (n := 4) rfl)
  exact ⟨hresolve, assignment_stores_substitution _ hresolve⟩

end MatrixCalc
