import MatrixCalc.Proofs.Except
import MatrixCalc.Proofs.Token.Lexemes
import MatrixCalc.Proofs.Variables.Steps
import Mathlib.Data.List.Chain
import Mathlib.Data.List.TakeWhile

/-!
# What the parser sees of a resolved line

The pass reads the tokens of a line one by one and leaves all but the references in place. The
parser reads the resolved text anew. It finds the same tokens, but for numerals that have come to
stand directly behind each other: they are one numeral to it.
-/
namespace MatrixCalc

open Text

/-- The states of a run, from the first one to the one that halts. -/
def Loop.states {σ ρ : Type} (l : Loop σ ρ) (s : σ) : List σ :=
  match _h : l.turn s with
  | .halt _ => [s]
  | .next s' => s :: states l s'
termination_by l.left s
decreasing_by exact l.left_lt _h

theorem Loop.states_of_halt {σ ρ : Type} (l : Loop σ ρ) {s : σ} {result : ρ}
    (h : l.turn s = .halt result) : l.states s = [s] := by
  rw [states]
  split
  · rfl
  · next h' => cases h.symm.trans h'

theorem Loop.states_of_next {σ ρ : Type} (l : Loop σ ρ) {s s' : σ} (h : l.turn s = .next s') :
    l.states s = s :: l.states s' := by
  rw [states]
  split
  · next h' => cases h.symm.trans h'
  · next h' =>
    cases h.symm.trans h'
    rfl

theorem length_attach (l : Lexeme) (m : Lexeme) (ls : List Lexeme) :
    (l.attach (m :: ls)).length = if l.meets m then ls.length + 1 else ls.length + 2 := by
  rw [Lexeme.attach]
  split <;> rfl

theorem length_fuse_le (ls : List Lexeme) : (fuse ls).length ≤ ls.length := by
  induction ls with
  | nil => exact Nat.le_refl 0
  | cons l ls ih =>
    rw [fuse_cons]
    cases h : fuse ls with
    | nil => simp [Lexeme.attach]
    | cons m rest =>
      rw [h, List.length_cons] at ih
      rw [length_attach, List.length_cons]
      split <;> omega

/-- No numeral goes on with the one in front of it. -/
def Apart (ls : List Lexeme) : Prop := ls.IsChain fun l m => l.meets m = false

theorem fuse_of_apart {ls : List Lexeme} (h : Apart ls) : fuse ls = ls := by
  induction ls with
  | nil => rfl
  | cons l ls ih =>
    rw [fuse_cons]
    cases ls with
    | nil => rfl
    | cons m ls =>
      obtain ⟨hmeets, hls⟩ := List.isChain_cons_cons.1 h
      rw [ih hls, Lexeme.attach, hmeets]
      rfl

theorem apart_of_length_fuse {ls : List Lexeme} (h : (fuse ls).length = ls.length) : Apart ls := by
  induction ls with
  | nil => exact .nil
  | cons l ls ih =>
    have hle := length_fuse_le ls
    rw [fuse_cons] at h
    cases ls with
    | nil => exact .singleton l
    | cons m ls =>
      cases hfuse : fuse (m :: ls) with
      | nil =>
        rw [hfuse] at h
        simp [Lexeme.attach] at h
      | cons m' rest =>
        rw [hfuse] at h hle
        rw [length_attach] at h
        simp only [List.length_cons] at h hle
        split at h
        · omega
        · next hmeets =>
          have hls : Apart (m :: ls) := by
            refine ih ?_
            rw [hfuse, List.length_cons, List.length_cons]
            omega
          rw [fuse_of_apart hls] at hfuse
          cases hfuse
          exact List.isChain_cons_cons.2 ⟨Bool.eq_false_iff.2 hmeets, hls⟩

namespace Pass

/-- The token that the next step leaves in place, with its place in the resolved text. -/
def kept? (vars : Variables) (p : Pass) : Option Lexeme :=
  let r := read vars.contains false p.rest
  match r.outcome with
  | .error _ | .ok .stop | .ok (.target _) | .ok (.reference _) => none
  | .ok token => some ⟨r.start p.offset, r.lexeme, .ok token⟩

/-- The tokens that the pass leaves in place, in order. -/
def kept (vars : Variables) (p : Pass) : List Lexeme :=
  ((loop vars).states p).filterMap (kept? vars)

/-- What a step does to the text, and the token that it leaves in place. -/
inductive Leaves (vars : Variables) (p : Pass) :
    Turn Pass (Except ParseError Verdict) → Option Lexeme → Prop
  | finish (hr : p.rest.trimStart = []) : Leaves vars p (.halt (.ok (.expression p.text))) none
  | halt {result : Except ParseError Verdict} (h : ∀ t, result ≠ .ok (.expression t)) :
      Leaves vars p (.halt result) none
  | splice {blanks n value rest : Text} {active : List (Text × Nat)}
      (ht : p.rest = blanks ++ (n ++ rest)) (hb : ∀ c ∈ blanks, isBlank c = true) (hn : IsName n) :
      Leaves vars p (.next ⟨blanks.reverse ++ p.done, value ++ rest, active⟩) none
  | keep {blanks lexeme rest : Text} {token : Token} (ht : p.rest = blanks ++ (lexeme ++ rest))
      (hb : ∀ c ∈ blanks, isBlank c = true)
      (h : Takes vars.contains lexeme (.ok token) rest) (href : ∀ n, token ≠ .reference n) :
      Leaves vars p (.next ⟨(blanks ++ lexeme).reverse ++ p.done, rest, p.active⟩)
        (some ⟨p.offset + blanks.size, lexeme, .ok token⟩)

theorem leaves_keep {vars : Variables} {p : Pass} {lexeme rest : Text} {token : Token}
    (ht : p.rest = p.rest.blanks ++ (lexeme ++ rest))
    (h : Takes vars.contains lexeme (.ok token) rest) (href : ∀ n, token ≠ .reference n) :
    Leaves vars p (.next (p.skip (.plain p.rest.blanks lexeme rest (.ok token))))
      (some ⟨p.offset + p.rest.blanks.size, lexeme, .ok token⟩) := by
  have hskip : p.skip (.plain p.rest.blanks lexeme rest (.ok token)) =
      ⟨(p.rest.blanks ++ lexeme).reverse ++ p.done, rest, p.active⟩ := by
    simp only [skip, Reading.plain, List.append_nil]
  rw [hskip]
  exact .keep ht (isBlank_blanks _) h href

theorem leaves_step (vars : Variables) (p : Pass) :
    Leaves vars p (p.step vars) (p.kept? vars) := by
  have hfinds := read_finds vars.contains p.rest
  unfold step kept?
  generalize read vars.contains false p.rest = r at hfinds
  cases hfinds with
  | stop ht => exact .finish (List.dropWhile_eq_nil_iff.2 ht)
  | @taken lexeme rest outcome ht h =>
    cases outcome with
    | error f => exact .halt nofun
    | ok token =>
      cases token with
      | stop => exact absurd rfl h.ne_stop
      | target n => exact .halt nofun
      | reference n =>
        obtain ⟨rfl, hn, -⟩ := h.reference_inv
        dsimp only [Reading.plain]
        by_cases hactive : (enclosing (lexeme.length + rest.length) p.active).any (·.1 == lexeme)
        · rw [if_pos hactive]
          exact .halt nofun
        · rw [if_neg hactive]
          exact .splice ht (isBlank_blanks _) hn
      | _ => exact leaves_keep ht h nofun
  | refused hn ho =>
    cases hout : r.outcome with
    | error f =>
      simp only [hout]
      exact .halt nofun
    | ok token =>
      obtain ⟨n, rfl⟩ := ho token hout
      simp only [hout]
      exact .halt nofun

theorem kept_of_halt {vars : Variables} {p : Pass} {result : Except ParseError Verdict}
    (h : p.step vars = .halt result) : p.kept vars = (p.kept? vars).toList := by
  rw [kept, (loop vars).states_of_halt h]
  cases hk : p.kept? vars <;> simp [hk]

theorem kept_of_next {vars : Variables} {p q : Pass} (h : p.step vars = .next q) :
    p.kept vars = (p.kept? vars).toList ++ q.kept vars := by
  rw [kept, (loop vars).states_of_next h, kept]
  cases hk : p.kept? vars <;> simp [hk]

/-- From any state on, the text that the pass leaves has the lexemes of the tokens that it leaves
in place, but for numerals that meet. -/
theorem run_fuses (vars : Variables) (p : Pass) :
    ∀ t, p.run vars = .ok (.expression t) →
      ∃ u, t = p.done.reverse ++ u ∧ (continuesName p.rest = false → continuesName u = false) ∧
        lexemes vars.contains p.offset u = fuse (p.kept vars) := by
  refine (loop vars).run_induct (motive := fun p result => ∀ t, result = .ok (.expression t) →
    ∃ u, t = p.done.reverse ++ u ∧ (continuesName p.rest = false → continuesName u = false) ∧
      lexemes vars.contains p.offset u = fuse (p.kept vars)) ?_ ?_ p
  -- The clause on names is for the lexeme in front: a name that was left in place must still end
  -- where it did, although the text behind it may have been spliced in since.
  · intro p result hturn t ht
    have hkept := kept_of_halt hturn
    have hleaves := p.leaves_step vars
    rw [show p.step vars = .halt result from hturn] at hleaves
    generalize p.kept? vars = k at hkept hleaves
    cases hleaves with
    | finish hr =>
      cases ht
      refine ⟨p.rest, rfl, id, ?_⟩
      rw [hkept, lexemes_of_trimStart hr]
      rfl
    | halt h => exact absurd ht (h t)
  · intro p q result hturn ih t ht
    obtain ⟨u, htext, hname, hu⟩ := ih t ht
    have hkept := kept_of_next hturn
    have hleaves := p.leaves_step vars
    rw [show p.step vars = .next q from hturn] at hleaves
    generalize p.kept? vars = k at hkept hleaves
    cases hleaves with
    | @splice blanks n value rest active hrest hb hn =>
      refine ⟨blanks ++ u, ?_, ?_, ?_⟩
      · rw [htext, List.reverse_append, List.reverse_reverse, List.append_assoc]
      · intro hp
        have hne : blanks ≠ [] := by
          rintro rfl
          rw [hrest, List.nil_append, hn.continuesName_append] at hp
          cases hp
        rwa [hrest, continuesName_append_congr hne _ u] at hp
      · rw [lexemes_blanks_append hb, hkept, Option.toList_none, List.nil_append, ← hu]
        simp only [offset, size_append, size_reverse, Nat.add_comm]
    | @keep blanks lexeme rest token hrest hb h href =>
      have heq : ∀ n, (Except.ok token : Except Fault Token) = .ok (.reference n) →
          takeEquals? u = none := fun n he => absurd (Except.ok.inj he) (href n)
      refine ⟨blanks ++ (lexeme ++ u), ?_, ?_, ?_⟩
      · rw [htext, List.reverse_append, List.reverse_reverse, List.append_assoc, List.append_assoc]
      · intro hp
        have hne : blanks ++ lexeme ≠ [] := List.append_ne_nil_of_right_ne_nil _ h.ne_nil
        rwa [hrest, ← List.append_assoc, continuesName_append_congr hne _ u,
          List.append_assoc] at hp
      · have hoffset : offset ⟨(blanks ++ lexeme).reverse ++ p.done, rest, p.active⟩ =
            p.offset + blanks.size + lexeme.size := by
          simp only [offset, size_append, size_reverse]
          omega
        rw [hoffset] at hu
        rw [hkept, Option.toList_some, List.singleton_append, fuse_cons, ← hu,
          lexemes_blanks_append hb, h.lexemes_append hname heq]

/-- The resolved text of a line has the lexemes of the tokens that the pass leaves in place, but
for numerals that meet. -/
theorem lexemes_of_run {vars : Variables} {line t : Text}
    (h : (start line).run vars = .ok (.expression t)) :
    lexemes vars.contains 0 t = fuse ((start line).kept vars) := by
  obtain ⟨u, rfl, -, hu⟩ := run_fuses vars (start line) t h
  exact hu

/-- What is left in place is a token that neither assigns nor reads a variable. -/
theorem outcome_of_mem_kept {vars : Variables} {p : Pass} {l : Lexeme} (hl : l ∈ p.kept vars) :
    ∃ token, l.outcome = .ok token ∧ (∀ n, token ≠ .target n) ∧ ∀ n, token ≠ .reference n := by
  obtain ⟨q, -, hq⟩ := List.mem_filterMap.1 hl
  unfold kept? at hq
  dsimp only at hq
  split at hq
  · cases hq
  · cases hq
  · cases hq
  · cases hq
  · next token _ htarget href _ =>
    cases hq
    exact ⟨token, rfl, fun n hn => htarget n hn, fun n hn => href n hn⟩

theorem exists_tokens_kept (vars : Variables) (p : Pass) :
    ∃ ts, (p.kept vars).mapM Lexeme.result = .ok ts := by
  rw [exists_mapM_eq_ok_iff]
  intro l hl
  obtain ⟨token, ho, -, -⟩ := outcome_of_mem_kept hl
  exact l.exists_result_iff.2 ⟨token, ho⟩

end Pass

/-- The parser sees the tokens that the pass leaves in place, with numerals that meet made one;
so it sees the same tokens exactly when none meet. -/
theorem Variables.tokens_of_resolve {vars : Variables} {line t : Text}
    (h : vars.resolve line = .ok (.expression t)) :
    (Scanner.startingAt t 0).tokens vars.contains =
        (fuse ((Pass.start line).kept vars)).mapM Lexeme.result ∧
      ((Scanner.startingAt t 0).tokens vars.contains =
          ((Pass.start line).kept vars).mapM Lexeme.result ↔
        Apart ((Pass.start line).kept vars)) := by
  have htokens : (Scanner.startingAt t 0).tokens vars.contains =
      (fuse ((Pass.start line).kept vars)).mapM Lexeme.result := by
    have hs := vars.resolve_spec line
    rw [h] at hs
    cases hs with
    | expression hr =>
      rw [← Pass.lexemes_of_run hr, Scanner.tokens_startingAt]
  refine ⟨htokens, ?_⟩
  rw [htokens]
  constructor
  · intro hsame
    obtain ⟨ts, hts⟩ := (Pass.start line).exists_tokens_kept vars
    refine apart_of_length_fuse ?_
    rw [← length_of_mapM_eq_ok hts, ← length_of_mapM_eq_ok (hsame.trans hts)]
  · intro hapart
    rw [fuse_of_apart hapart]

end MatrixCalc
