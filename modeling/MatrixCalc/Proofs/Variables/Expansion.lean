import MatrixCalc.Proofs.Variables.Steps
import MatrixCalc.Proofs.Variables.Termination

/-!
# Resolution is full substitution

A text expands to the text in which every reference is replaced by the expansion of the text of
its variable. The pass through a line works in place, on one text that changes under it; what
it has read is final and what it has still to read expands by itself (`run_expands`).
-/
namespace MatrixCalc

open Text

inductive Expands (vars : Variables) : List Piece → Text → Prop
  | nil : Expands vars [] []
  | char {c : Char} {ps : List Piece} {t : Text} (h : Expands vars ps t) :
      Expands vars (.char c :: ps) (c :: t)
  | keyword {n : Text} {ps : List Piece} {t : Text} (hk : Function.isKeyword n = true)
      (h : Expands vars ps t) : Expands vars (.name n :: ps) (n ++ t)
  | reference {n value : Text} {ps : List Piece} {u t : Text}
      (hk : Function.isKeyword n = false) (hv : vars.get? n = some value)
      (hu : Expands vars value.pieces u) (h : Expands vars ps t) :
      Expands vars (.name n :: ps) (u ++ t)

namespace Expands

variable {vars : Variables}

/-- The expansion is the only one. -/
theorem unique {ps : List Piece} {t u : Text} (h : Expands vars ps t) (h' : Expands vars ps u) :
    t = u := by
  induction h generalizing u with
  | nil =>
    cases h'
    rfl
  | char h ih =>
    cases h' with
    | char h' => rw [ih h']
  | keyword hk h ih =>
    cases h' with
    | keyword hk' h' => rw [ih h']
    | reference hk' =>
      rw [hk] at hk'
      cases hk'
  | reference hk hv hu h ihu ih =>
    cases h' with
    | keyword hk' =>
      rw [hk] at hk'
      cases hk'
    | reference hk' hv' hu' h' =>
      rw [hv] at hv'
      cases hv'
      rw [ihu hu', ih h']

/-- Pieces that are no references stand for themselves. -/
theorem kept_append {ps qs : List Piece} {t : Text} (hp : ∀ q ∈ ps, q.isKept = true)
    (h : Expands vars qs t) : Expands vars (ps ++ qs) (ofPieces ps ++ t) := by
  induction ps with
  | nil => exact h
  | cons p ps ih =>
    have hps := ih (fun q hq => hp q (List.mem_cons_of_mem _ hq))
    have hk := hp p (List.mem_cons_self ..)
    rw [ofPieces_cons, List.append_assoc]
    cases p with
    | char c => exact .char hps
    | name n => exact .keyword hk hps

/-- Two texts side by side expand one after the other. -/
theorem append_inv {ps qs : List Piece} {t : Text} (h : Expands vars (ps ++ qs) t) :
    ∃ u v, t = u ++ v ∧ Expands vars ps u ∧ Expands vars qs v := by
  induction ps generalizing t with
  | nil => exact ⟨[], t, rfl, .nil, h⟩
  | cons p ps ih =>
    cases h with
    | char h =>
      obtain ⟨u, v, rfl, hu, hv⟩ := ih h
      exact ⟨_ :: u, v, rfl, .char hu, hv⟩
    | keyword hk h =>
      obtain ⟨u, v, rfl, hu, hv⟩ := ih h
      exact ⟨_, v, (List.append_assoc ..).symm, .keyword hk hu, hv⟩
    | reference hk hg hw h =>
      obtain ⟨u, v, rfl, hu, hv⟩ := ih h
      exact ⟨_, v, (List.append_assoc ..).symm, .reference hk hg hw hu, hv⟩

/-- A kept beginning of a text stays in front of the expansion of the rest. -/
theorem leadingKept {t s rest u : Text} (ht : LeadingKept t s rest)
    (h : Expands vars rest.pieces u) : Expands vars t.pieces (s ++ u) := by
  rw [ht.pieces_eq]
  have hs := kept_append ht.kept h
  rwa [ofPieces_pieces] at hs

theorem leadingName {t blanks n rest value u v : Text} (ht : LeadingName t blanks n rest)
    (hg : vars.get? n = some value) (hu : Expands vars value.pieces u)
    (hv : Expands vars rest.pieces v) : Expands vars t.pieces (blanks ++ (u ++ v)) := by
  refine leadingKept ht.leadingKept ?_
  rw [ht.pieces_name]
  exact .reference ht.notKeyword hg hu hv

theorem of_isBlank {t : Text} (ht : ∀ c ∈ t, isBlank c = true) : Expands vars t.pieces t := by
  have hnil : Expands vars (pieces []) [] := by
    rw [pieces_nil]
    exact .nil
  have h := leadingKept (leadingKept_self ht) hnil
  rwa [List.append_nil] at h

end Expands

/-- What the pass returns is what it has read and the expansion of what it has still to read. -/
theorem Pass.run_expands (vars : Variables) (p : Pass) :
    ∀ t, p.run vars = .ok (.expression t) →
      ∃ u, t = p.done.reverse ++ u ∧ Expands vars p.rest.pieces u := by
  refine run_induct (motive := fun p result => ∀ t, result = .ok (.expression t) →
    ∃ u, t = p.done.reverse ++ u ∧ Expands vars p.rest.pieces u) ?_ ?_ p
  · intro p result hs t hr
    rw [hr] at hs
    cases hs with
    | finish hb => exact ⟨p.rest, rfl, .of_isBlank hb⟩
  · intro p q result hs ih t hr
    obtain ⟨u, rfl, hu⟩ := ih t hr
    cases hs with
    | @splice blanks n value rest ht hg _ =>
      -- The name ends where the rest begins, so the spliced text cannot run into it.
      rw [pieces_append value ht.ended] at hu
      obtain ⟨v, w, rfl, hv, hw⟩ := hu.append_inv
      refine ⟨blanks ++ (v ++ w), ?_, .leadingName ht hg hv hw⟩
      rw [List.reverse_append, List.reverse_reverse, List.append_assoc]
    | @skip s rest ht =>
      refine ⟨s ++ u, ?_, .leadingKept ht hu⟩
      rw [List.reverse_append, List.reverse_reverse, List.append_assoc]

theorem Variables.expands_of_resolve {vars : Variables} {line t : Text}
    (h : vars.resolve line = .ok (.expression t)) : Expands vars line.pieces t := by
  have hs := vars.resolve_spec line
  rw [h] at hs
  cases hs with
  | expression hr =>
    obtain ⟨u, hu, he⟩ := (Pass.start line).run_expands vars t hr
    rwa [show t = u from hu]

/-- An expression is resolved to the full expansion of the line, character for character. -/
theorem resolve_expression_eq_expansion {vars : Variables} {line t : Text}
    (h : vars.resolve line = .ok (.expression t)) :
    Expands vars line.pieces t ∧ ∀ u, Expands vars line.pieces u → u = t := by
  have he := Variables.expands_of_resolve h
  exact ⟨he, fun u hu => hu.unique he⟩

/-- A table in which `x` leads to a numeral by way of `y`. -/
def Variables.relayed : Variables := ⟨[("x".toList, "y".toList), ("y".toList, "1".toList)]⟩

/-- A spliced text may touch a numeral on either side. -/
theorem resolve_expression_eq_expansion_of_relayed :
    Variables.relayed.resolve "2x.5 * x".toList = .ok (.expression "21.5 * 1".toList) ∧
      Expands Variables.relayed (pieces "2x.5 * x".toList) "21.5 * 1".toList ∧
      ∀ u, Expands Variables.relayed (pieces "2x.5 * x".toList) u → u = "21.5 * 1".toList := by
  have hr : Variables.relayed.resolve "2x.5 * x".toList =
      .ok (.expression "21.5 * 1".toList) :=
    Variables.resolve_of_run ((Pass.loop Variables.relayed).run_of_turns (n := 10) rfl)
  exact ⟨hr, resolve_expression_eq_expansion hr⟩

end MatrixCalc
