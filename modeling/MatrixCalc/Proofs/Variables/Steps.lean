import MatrixCalc.Proofs.Token.Reads
import MatrixCalc.Variables.Resolution

/-!
# The steps of the passes, said in pieces

Either pass reads a token and goes on or halts. What a step does to the text that is still to be
read is said here once, apart from how tokens are read.
-/
namespace MatrixCalc

namespace Variables

theorem exists_get?_of_contains {vars : Variables} {name : Text}
    (h : vars.contains name = true) : ∃ value, vars.get? name = some value :=
  Option.isSome_iff_exists.1 h

theorem contains_of_get? {vars : Variables} {name value : Text}
    (h : vars.get? name = some value) : vars.contains name = true :=
  Option.isSome_iff_exists.2 ⟨value, h⟩

end Variables

namespace Pass

/-- The names whose texts the reader is in when `left` characters are unread. -/
def inside (p : Pass) (left : Nat) : List Text := (enclosing left p.active).map (·.1)

inductive StepsTo (vars : Variables) (p : Pass) : Turn Pass (Except ParseError Verdict) → Prop
  | fault {offset : Nat} {f : Fault} (hf : ∀ n, f ≠ .cyclic n) :
      StepsTo vars p (.halt (.error ⟨offset, f⟩))
  | finish (hr : ∀ c ∈ p.rest, Text.isBlank c = true) :
      StepsTo vars p (.halt (.ok (.expression p.text)))
  | target {blanks n behind rest : Text} {offset : Nat}
      (ht : LeadingName p.rest blanks n (behind ++ rest))
      (he : takeEquals? (behind ++ rest) = some (behind, rest)) :
      StepsTo vars p (.halt (.ok (.target n offset rest)))
  | cyclic {blanks n rest : Text} {offset : Nat} (ht : LeadingName p.rest blanks n rest)
      (hv : vars.contains n = true) (ha : n ∈ p.inside (n.length + rest.length)) :
      StepsTo vars p (.halt (.error ⟨offset, .cyclic n⟩))
  | splice {blanks n value rest : Text} (ht : LeadingName p.rest blanks n rest)
      (hv : vars.get? n = some value) (ha : n ∉ p.inside (n.length + rest.length)) :
      StepsTo vars p (.next ⟨blanks.reverse ++ p.done, value ++ rest,
        (n, rest.length) :: enclosing (n.length + rest.length) p.active⟩)
  | skip {s rest : Text} (ht : LeadingKept p.rest s rest) :
      StepsTo vars p (.next ⟨s.reverse ++ p.done, rest, p.active⟩)

theorem any_enclosing (p : Pass) (left : Nat) (n : Text) :
    (enclosing left p.active).any (·.1 == n) = true ↔ n ∈ p.inside left := by
  unfold inside
  rw [List.any_eq_true, List.mem_map]
  simp only [beq_iff_eq]

/-- Everything that a step of the pass through a line can do. -/
theorem step_spec (vars : Variables) (p : Pass) : StepsTo vars p (p.step vars) := by
  have hr := read_spec vars.contains p.rest
  unfold step
  generalize read vars.contains false p.rest = r at hr
  cases hr with
  | stop ht => exact .finish ht
  | fault ho hf =>
    simp only [ho]
    exact .fault hf
  | target ht he => exact .target ht he
  | @reference blanks n rest ht hv =>
    obtain ⟨value, hg⟩ := Variables.exists_get?_of_contains hv
    have hany := p.any_enclosing (n.length + rest.length) n
    dsimp only
    by_cases ha : n ∈ p.inside (n.length + rest.length)
    · rw [if_pos (hany.2 ha)]
      exact .cyclic ht hv ha
    · rw [if_neg (fun h => ha (hany.1 h)), hg]
      exact .splice ht hg ha
  | @kept blanks lexeme rest token ht hstop htarget href =>
    have hskip : p.skip ⟨blanks, lexeme, [], rest, .ok token⟩ =
        ⟨(blanks ++ lexeme).reverse ++ p.done, rest, p.active⟩ := by
      simp only [skip, List.append_nil]
    cases token with
    | stop => exact absurd rfl hstop
    | target n => exact absurd rfl (htarget n)
    | reference n => exact absurd rfl (href n)
    | _ =>
      dsimp only
      rw [hskip]
      exact .skip ht

theorem run_induct {vars : Variables} {motive : Pass → Except ParseError Verdict → Prop}
    (halt : ∀ p result, StepsTo vars p (.halt result) → motive p result)
    (next : ∀ p q result, StepsTo vars p (.next q) → motive q result → motive p result)
    (p : Pass) : motive p (p.run vars) := by
  refine (loop vars).run_induct ?_ ?_ p
  · intro p result hturn
    have hs := p.step_spec vars
    rw [show p.step vars = .halt result from hturn] at hs
    exact halt p result hs
  · intro p q result hturn ih
    have hs := p.step_spec vars
    rw [show p.step vars = .next q from hturn] at hs
    exact next p q result hs ih

end Pass

namespace SelfPass

inductive StepsTo (vars : Variables) (name : Text) (p : SelfPass) :
    Turn SelfPass (Except ParseError Text) → Prop
  | fault {e : ParseError} (hf : ∀ n, e.fault ≠ .cyclic n) :
      StepsTo vars name p (.halt (.error e))
  | finish (hr : ∀ c ∈ p.rest, Text.isBlank c = true) :
      StepsTo vars name p (.halt (.ok p.text))
  | own {blanks value rest : Text} {cursor : Nat} (ht : LeadingName p.rest blanks name rest)
      (hv : vars.get? name = some value) :
      StepsTo vars name p (.next ⟨cursor, (blanks ++ value).reverse ++ p.done, rest⟩)
  | other {blanks n rest : Text} {cursor : Nat} (ht : LeadingName p.rest blanks n rest)
      (hv : vars.contains n = true) (hn : n ≠ name) :
      StepsTo vars name p (.next ⟨cursor, (blanks ++ n).reverse ++ p.done, rest⟩)
  | kept {s rest : Text} {cursor : Nat} (ht : LeadingKept p.rest s rest) :
      StepsTo vars name p (.next ⟨cursor, s.reverse ++ p.done, rest⟩)

/-- Everything that a step of the pass through an assigned text can do. -/
theorem step_spec (vars : Variables) (name : Text) (p : SelfPass) :
    StepsTo vars name p (p.step vars name) := by
  have hr := read_spec vars.contains p.rest
  unfold step
  generalize read vars.contains false p.rest = r at hr
  cases hr with
  | stop ht => exact .finish ht
  | fault ho hf =>
    simp only [ho]
    exact .fault hf
  | target ht he => exact .fault (by simp)
  | @reference blanks n rest ht hv =>
    obtain ⟨value, hg⟩ := Variables.exists_get?_of_contains hv
    dsimp only
    by_cases hn : n = name
    · subst hn
      rw [if_pos rfl, hg]
      exact .own ht hg
    · rw [if_neg (by simpa using hn)]
      exact .other ht hv hn
  | @kept blanks lexeme rest token ht hstop htarget href =>
    have hname : token ≠ .reference name := href name
    cases token with
    | stop => exact absurd rfl hstop
    | target n => exact absurd rfl (htarget n)
    | reference n => exact absurd rfl (href n)
    | _ =>
      dsimp only
      rw [if_neg hname]
      exact .kept ht

theorem run_induct {vars : Variables} {name : Text}
    {motive : SelfPass → Except ParseError Text → Prop}
    (halt : ∀ p result, StepsTo vars name p (.halt result) → motive p result)
    (next : ∀ p q result, StepsTo vars name p (.next q) → motive q result → motive p result)
    (p : SelfPass) : motive p ((loop vars name).run p) := by
  refine (loop vars name).run_induct ?_ ?_ p
  · intro p result hturn
    have hs := p.step_spec vars name
    rw [show p.step vars name = .halt result from hturn] at hs
    exact halt p result hs
  · intro p q result hturn ih
    have hs := p.step_spec vars name
    rw [show p.step vars name = .next q from hturn] at hs
    exact next p q result hs ih

end SelfPass

namespace Variables

inductive ResolvesTo (vars : Variables) (line : Text) : Except ParseError Resolution → Prop
  | fault {e : ParseError} (hr : (Pass.start line).run vars = .error e) :
      ResolvesTo vars line (.error e)
  | expression {t : Text} (hr : (Pass.start line).run vars = .ok (.expression t)) :
      ResolvesTo vars line (.ok (.expression t))
  | refused {name behind : Text} {offset : Nat} {e : ParseError}
      (hr : (Pass.start line).run vars = .ok (.target name offset behind))
      (ha : vars.assignment name offset behind = .error e) : ResolvesTo vars line (.error e)
  | assigned {name behind value : Text} {offset : Nat}
      (hr : (Pass.start line).run vars = .ok (.target name offset behind))
      (ha : vars.assignment name offset behind = .ok value) :
      ResolvesTo vars line (.ok (.assigned name value))

/-- Everything that a line can be resolved to. -/
theorem resolve_spec (vars : Variables) (line : Text) :
    ResolvesTo vars line (vars.resolve line) := by
  unfold resolve
  cases hr : (Pass.start line).run vars with
  | error e => exact .fault hr
  | ok verdict =>
    cases verdict with
    | expression t => exact .expression hr
    | target name offset behind =>
      change ResolvesTo vars line (vars.assignment name offset behind >>= _)
      cases ha : vars.assignment name offset behind with
      | error e => exact .refused hr ha
      | ok value => exact .assigned hr ha

theorem resolve_of_run {vars : Variables} {line t : Text}
    (hr : (Pass.start line).run vars = .ok (.expression t)) :
    vars.resolve line = .ok (.expression t) := by
  rw [resolve, hr]
  rfl

theorem resolve_of_run_error {vars : Variables} {line : Text} {e : ParseError}
    (hr : (Pass.start line).run vars = .error e) : vars.resolve line = .error e := by
  rw [resolve, hr]
  rfl

theorem resolve_of_assignment {vars : Variables} {line name behind value : Text} {offset : Nat}
    (hr : (Pass.start line).run vars = .ok (.target name offset behind))
    (ha : vars.assignment name offset behind = .ok value) :
    vars.resolve line = .ok (.assigned name value) := by
  rw [resolve, hr]
  change vars.assignment name offset behind >>= _ = _
  rw [ha]
  rfl

end Variables
end MatrixCalc
