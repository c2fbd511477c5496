import MatrixCalc.Proofs.Substitution
import MatrixCalc.Proofs.Variables.Steps

/-!
# What an assignment stores

The stored text is the text behind the equals sign, trimmed, with the old text of the variable in
the place of its name. The old text is not read again: what is known of it is known from the
assignment that stored it.
-/
namespace MatrixCalc

open Text

/-- The text makes no assignment and refers to variables of the table only. -/
structure Assignable (vars : Variables) (t : Text) : Prop where
  noEquals : '=' ∉ t
  defined : ∀ m ∈ t.references, vars.contains m = true

namespace Assignable

variable {vars : Variables}

theorem names {t m : Text} (h : Assignable vars t) (hm : m ∈ t.names) :
    Function.isKeyword m = true ∨ vars.contains m = true := by
  cases hk : Function.isKeyword m with
  | true => exact .inl rfl
  | false => exact .inr (h.defined m (mem_references.2 ⟨mem_names.1 hm, hk⟩))

theorem leadingKept {t s rest : Text} (h : Assignable vars rest) (ht : LeadingKept t s rest) :
    Assignable vars t := by
  refine ⟨?_, ?_⟩
  · rw [ht.eq_append, List.mem_append]
    exact fun hm => hm.elim ht.noEquals h.noEquals
  · intro m hm
    obtain ⟨hm, hk⟩ := mem_references.1 hm
    rw [ht.pieces_eq] at hm
    rcases List.mem_append.1 hm with hm | hm
    · rw [show Function.isKeyword m = true from ht.kept _ hm] at hk
      cases hk
    · exact h.defined m (mem_references.2 ⟨hm, hk⟩)

theorem leadingName {t blanks n rest : Text} (h : Assignable vars rest)
    (ht : LeadingName t blanks n rest) (hn : vars.contains n = true) : Assignable vars t := by
  refine leadingKept ⟨?_, ?_⟩ ht.leadingKept
  · rw [List.mem_append]
    exact fun hm => hm.elim ht.isName.equals_not_mem h.noEquals
  · intro m hm
    obtain ⟨hm, hk⟩ := mem_references.1 hm
    rw [ht.pieces_name] at hm
    rcases List.mem_cons.1 hm with he | hm
    · cases he
      exact hn
    · exact h.defined m (mem_references.2 ⟨hm, hk⟩)

theorem of_isBlank {t : Text} (ht : ∀ c ∈ t, isBlank c = true) : Assignable vars t := by
  have hnil : Assignable vars [] := by
    refine ⟨List.not_mem_nil, ?_⟩
    intro m hm
    obtain ⟨hm, -⟩ := mem_references.1 hm
    rw [pieces_nil] at hm
    cases hm
  exact hnil.leadingKept (leadingKept_self ht)

end Assignable

theorem LeadingKept.substitute_eq {n old t s rest : Text} (hk : Function.isKeyword n = false)
    (ht : LeadingKept t s rest) : substitute n old t = s ++ substitute n old rest := by
  have hn : .name n ∉ s.pieces := by
    intro hm
    rw [show Function.isKeyword n = true from ht.kept _ hm] at hk
    cases hk
  rw [substitute, ht.pieces_eq, List.flatMap_append, flatMap_image_of_not_mem hn, ofPieces_pieces]
  rfl

theorem LeadingName.substitute_eq {n old t blanks m rest : Text}
    (hk : Function.isKeyword n = false) (ht : LeadingName t blanks m rest) :
    substitute n old t = blanks ++ ((Piece.name m).image n old ++ substitute n old rest) := by
  rw [ht.leadingKept.substitute_eq hk, substitute_name ht.isName ht.ended]

theorem substitute_of_isBlank {n old t : Text} (hk : Function.isKeyword n = false)
    (ht : ∀ c ∈ t, isBlank c = true) : substitute n old t = t := by
  rw [(leadingKept_self ht).substitute_eq hk, substitute_nil, List.append_nil]

/-- What the pass returns is what it has read and what it has still to read, with the old text in
the place of the name. -/
theorem SelfPass.run_substitutes {vars : Variables} {name : Text}
    (hk : Function.isKeyword name = false) (p : SelfPass) :
    ∀ u, (SelfPass.loop vars name).run p = .ok u →
      u = p.done.reverse ++ substitute name ((vars.get? name).getD []) p.rest ∧
        Assignable vars p.rest := by
  refine run_induct (motive := fun p result => ∀ u, result = .ok u →
    u = p.done.reverse ++ substitute name ((vars.get? name).getD []) p.rest ∧
      Assignable vars p.rest) ?_ ?_ p
  · intro p result hs u hr
    rw [hr] at hs
    cases hs with
    | finish hb =>
      refine ⟨?_, .of_isBlank hb⟩
      rw [substitute_of_isBlank hk hb]
      rfl
  · intro p q result hs ih u hr
    obtain ⟨rfl, hrest⟩ := ih u hr
    cases hs with
    | own ht hv =>
      refine ⟨?_, hrest.leadingName ht (Variables.contains_of_get? hv)⟩
      rw [ht.substitute_eq hk, Piece.image, if_pos rfl, hv, Option.getD_some,
        List.reverse_append, List.reverse_reverse, List.append_assoc, List.append_assoc]
    | other ht hv hn =>
      refine ⟨?_, hrest.leadingName ht hv⟩
      have hn' : ¬ Piece.name _ = .name name := fun he => hn (Piece.name.inj he)
      rw [ht.substitute_eq hk, Piece.image, if_neg hn', Piece.text, List.reverse_append,
        List.reverse_reverse, List.append_assoc, List.append_assoc]
    | kept ht =>
      refine ⟨?_, hrest.leadingKept ht⟩
      rw [ht.substitute_eq hk, List.reverse_append, List.reverse_reverse, List.append_assoc]

namespace Variables

/-- The text behind the equals sign of an assignment that succeeds, and what is stored of it. -/
theorem assignment_ok {vars : Variables} {name behind value : Text} {offset : Nat}
    (hk : Function.isKeyword name = false)
    (h : vars.assignment name offset behind = .ok value) :
    Trimmed behind.trimStart.trimEnd ∧ Assignable vars behind.trimStart.trimEnd ∧
      value = substitute name ((vars.get? name).getD []) behind.trimStart.trimEnd := by
  unfold assignment at h
  dsimp only at h
  split at h
  · cases h
  · next hne =>
    obtain ⟨hvalue, ht⟩ := SelfPass.run_substitutes hk _ value h
    exact ⟨trimmed_of_ne_nil hne, ht, hvalue⟩

end Variables

/-- The target of an assignment is a name and no keyword. -/
theorem Pass.run_target (vars : Variables) (p : Pass) :
    ∀ name offset behind, p.run vars = .ok (.target name offset behind) →
      IsName name ∧ Function.isKeyword name = false := by
  refine run_induct (motive := fun _ result =>
    ∀ name offset behind, result = .ok (.target name offset behind) →
      IsName name ∧ Function.isKeyword name = false) ?_ ?_ p
  · intro p result hs name offset behind hr
    rw [hr] at hs
    cases hs with
    | target ht _ => exact ⟨ht.isName, ht.notKeyword⟩
  · intro p q result hs ih
    exact ih

end MatrixCalc
