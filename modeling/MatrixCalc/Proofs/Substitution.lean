import MatrixCalc.Proofs.Names
import Mathlib.Data.List.Basic

/-!
# Putting a text in the place of a name

The text may be any text: where a name ends, what follows does not go on with it, so the new text
neither runs into what follows nor is run into (`pieces_substitute`).
-/
namespace MatrixCalc

/-- What stands for the piece when `old` is put in the place of the name `n`. -/
def Piece.image (n old : Text) (p : Piece) : Text := if p = .name n then old else p.text

theorem Piece.image_induct {P : Text → Prop} {n old : Text} {p : Piece}
    (hold : P old) (hp : P p.text) : P (p.image n old) := by
  unfold image
  split
  · exact hold
  · exact hp

namespace Text

/-- Neither empty nor with a blank at an end. -/
structure Trimmed (t : Text) : Prop where
  ne_nil : t ≠ []
  head : ∀ c, t.head? = some c → isBlank c = false
  last : ∀ c, t.getLast? = some c → isBlank c = false

theorem isBlank_of_head?_trimStart {t : Text} {c : Char} (h : t.trimStart.head? = some c) :
    isBlank c = false := by
  obtain ⟨r, hr⟩ := List.head?_eq_some_iff.1 h
  exact isBlank_of_trimStart_eq_cons hr

/-- Cutting the blanks off both ends of a text that does not consist of blanks. -/
theorem trimmed_of_ne_nil {t : Text} (h : t.trimStart.trimEnd ≠ []) :
    Trimmed t.trimStart.trimEnd := by
  refine ⟨h, ?_, ?_⟩
  · intro c hc
    obtain ⟨s, hs⟩ : t.trimStart.trimEnd <+: t.trimStart := by
      have hsuffix := List.dropWhile_suffix isBlank (l := t.trimStart.reverse)
      rwa [← List.reverse_prefix, List.reverse_reverse] at hsuffix
    rw [← List.head?_append_of_ne_nil _ h, hs] at hc
    exact isBlank_of_head?_trimStart hc
  · intro c hc
    rw [trimEnd, List.getLast?_reverse] at hc
    exact isBlank_of_head?_trimStart hc

def substitute (n old t : Text) : Text := t.pieces.flatMap (Piece.image n old)

theorem substitute_nil (n old : Text) : substitute n old [] = [] := by
  rw [substitute, pieces_nil, List.flatMap_nil]

theorem substitute_char {c : Char} (hc : isNameStart c = false) (n old t : Text) :
    substitute n old (c :: t) = c :: substitute n old t := by
  rw [substitute, pieces_char hc, List.flatMap_cons]
  rfl

theorem substitute_name {m t : Text} (hm : IsName m) (ht : continuesName t = false)
    (n old : Text) :
    substitute n old (m ++ t) = (Piece.name m).image n old ++ substitute n old t := by
  rw [substitute, pieces_name hm ht, List.flatMap_cons]
  rfl

theorem flatMap_image_of_not_mem {n : Text} {ps : List Piece} (h : .name n ∉ ps) (old : Text) :
    ps.flatMap (Piece.image n old) = ofPieces ps := by
  refine List.flatMap_congr ?_
  intro p hp
  refine if_neg ?_
  rintro rfl
  exact h hp

theorem substitute_of_not_mem {n t : Text} (h : n ∉ t.names) (old : Text) :
    substitute n old t = t := by
  rw [substitute, flatMap_image_of_not_mem (fun hm => h (mem_names.2 hm)), ofPieces_pieces]

theorem continuesName_substitute {t : Text} (ht : continuesName t = false) (n old : Text) :
    continuesName (substitute n old t) = false := by
  induction t using piece_induct with
  | nil => rw [substitute_nil, ht]
  | char c t hc _ =>
    rw [substitute_char hc]
    exact ht
  | name m t hm _ _ =>
    cases m with
    | nil => exact hm.elim
    | cons c m =>
      have hc := isNameChar_of_isNameStart hm.1
      rw [show isNameChar c = false from ht] at hc
      cases hc

/-- The pieces of the new text stand where the name stood. -/
theorem pieces_substitute (n old t : Text) :
    pieces (substitute n old t) =
      t.pieces.flatMap fun p => if p = .name n then old.pieces else [p] := by
  induction t using piece_induct with
  | nil => rw [substitute_nil, pieces_nil, List.flatMap_nil]
  | char c t hc ih =>
    rw [substitute_char hc, pieces_char hc, pieces_char hc, List.flatMap_cons, ih]
    rfl
  | name m t hm ht ih =>
    have ht' := continuesName_substitute ht n old
    rw [substitute_name hm ht, pieces_name hm ht, List.flatMap_cons, pieces_append _ ht', ih,
      Piece.image]
    by_cases he : Piece.name m = .name n
    · rw [if_pos he, if_pos he]
    · rw [if_neg he, if_neg he, show (Piece.name m).text = m from rfl, pieces_of_isName hm]

theorem mem_names_substitute {m n old t : Text} (h : m ∈ (substitute n old t).names) :
    (m ≠ n ∧ m ∈ t.names) ∨ m ∈ old.names := by
  rw [mem_names, pieces_substitute, List.mem_flatMap] at h
  obtain ⟨p, hp, hm⟩ := h
  split at hm
  · exact .inr (mem_names.2 hm)
  · next hne =>
    rw [← List.mem_singleton.1 hm] at hp hne
    refine .inl ⟨?_, mem_names.2 hp⟩
    intro he
    exact hne (congrArg Piece.name he)

theorem mem_substitute {c : Char} {n old t : Text} (h : c ∈ substitute n old t) :
    c ∈ t ∨ c ∈ old := by
  obtain ⟨p, hp, hc⟩ := List.mem_flatMap.1 h
  unfold Piece.image at hc
  split at hc
  · exact .inr hc
  · have ht : c ∈ ofPieces t.pieces := List.mem_flatMap.2 ⟨p, hp, hc⟩
    rw [ofPieces_pieces] at ht
    exact .inl ht

theorem text_ne_nil_of_mem_pieces {p : Piece} {t : Text} (h : p ∈ t.pieces) : p.text ≠ [] := by
  cases p with
  | char c => exact List.cons_ne_nil _ _
  | name n => exact (isName_of_mem_pieces h).ne_nil

theorem pieces_ne_nil {t : Text} (ht : t ≠ []) : t.pieces ≠ [] := by
  intro h
  have htext := ofPieces_pieces t
  rw [h] at htext
  exact ht htext.symm

theorem exists_first_piece {t : Text} (ht : t ≠ []) :
    ∃ p ps, t.pieces = p :: ps ∧ p.text.head? = t.head? := by
  obtain ⟨p, ps, hps⟩ := List.exists_cons_of_ne_nil (pieces_ne_nil ht)
  have hp : p.text ≠ [] := text_ne_nil_of_mem_pieces (hps ▸ List.mem_cons_self ..)
  have htext := ofPieces_pieces t
  rw [hps, ofPieces_cons] at htext
  refine ⟨p, ps, hps, ?_⟩
  rw [← htext, List.head?_append_of_ne_nil _ hp]

theorem exists_last_piece {t : Text} (ht : t ≠ []) :
    ∃ ps p, t.pieces = ps ++ [p] ∧ p.text.getLast? = t.getLast? := by
  obtain ⟨ps, p, hps⟩ := (List.eq_nil_or_concat' t.pieces).resolve_left (pieces_ne_nil ht)
  have hp : p.text ≠ [] :=
    text_ne_nil_of_mem_pieces (hps ▸ List.mem_append_right _ (List.mem_singleton_self _))
  have htext := ofPieces_pieces t
  rw [hps, ofPieces_append, ofPieces_cons, ofPieces_nil, List.append_nil] at htext
  refine ⟨ps, p, hps, ?_⟩
  rw [← htext, List.getLast?_append_of_ne_nil _ hp]

/-- A text keeps its ends free of blanks when the new text has them free. -/
theorem Trimmed.substitute {n old t : Text} (ht : Trimmed t) (hold : Trimmed old) :
    Trimmed (substitute n old t) := by
  have hne : ∀ p ∈ t.pieces, p.image n old ≠ [] := by
    intro p hp
    exact Piece.image_induct (P := (· ≠ [])) hold.ne_nil (text_ne_nil_of_mem_pieces hp)
  obtain ⟨p, ps, hps, hhead⟩ := exists_first_piece ht.ne_nil
  obtain ⟨qs, q, hqs, hlast⟩ := exists_last_piece ht.ne_nil
  have hp := hne p (hps ▸ List.mem_cons_self ..)
  have hq := hne q (hqs ▸ List.mem_append_right _ (List.mem_singleton_self _))
  unfold Text.substitute
  refine ⟨?_, ?_, ?_⟩
  · rw [hps, List.flatMap_cons]
    exact List.append_ne_nil_of_left_ne_nil hp _
  · intro c hc
    rw [hps, List.flatMap_cons, List.head?_append_of_ne_nil _ hp] at hc
    exact Piece.image_induct (P := fun s => ∀ c, s.head? = some c → isBlank c = false)
      hold.head (hhead ▸ ht.head) c hc
  · intro c hc
    rw [hqs, List.flatMap_append, List.flatMap_singleton,
      List.getLast?_append_of_ne_nil _ hq] at hc
    exact Piece.image_induct (P := fun s => ∀ c, s.getLast? = some c → isBlank c = false)
      hold.last (hlast ▸ ht.last) c hc

end Text
end MatrixCalc
