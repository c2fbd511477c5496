import MatrixCalc.Token.Reading

/-!
# The names in a text

A text falls apart into names and the characters between them. A name is taken as long as it
can be, so the pieces of two texts are the pieces of both together unless the second one goes
on with a name of the first (`pieces_append`).
-/
namespace MatrixCalc

inductive Piece where
  | char (c : Char)
  | name (n : Text)
  deriving DecidableEq

namespace Piece

def text : Piece → Text
  | char c => [c]
  | name n => n

def name? : Piece → Option Text
  | char _ => none
  | name n => some n

/-- Whether the piece is no reference to a variable. -/
def isKept : Piece → Bool
  | char _ => true
  | name n => Function.isKeyword n

end Piece

/-- The shape of a name: a letter or an underscore, then letters, digits and underscores. -/
def IsName : Text → Prop
  | [] => False
  | c :: t => isNameStart c = true ∧ ∀ d ∈ t, isNameChar d = true

instance decidableIsName : (t : Text) → Decidable (IsName t)
  | [] => instDecidableFalse
  | c :: t => decidable_of_iff ((isNameStart c && t.all isNameChar) = true)
      (by rw [Bool.and_eq_true_iff, List.all_eq_true, IsName])

/-- Whether the text would go on with a name that stands in front of it. -/
def continuesName : Text → Bool
  | [] => false
  | c :: _ => isNameChar c

theorem isNameChar_of_isNameStart {c : Char} (h : isNameStart c = true) :
    isNameChar c = true := by
  simp only [isNameStart, isNameChar, Char.isAlphanum, Bool.or_eq_true] at h ⊢
  exact h.elim (fun ha => .inl (.inl ha)) .inr

theorem IsName.ne_nil {n : Text} (h : IsName n) : n ≠ [] := by
  intro hn
  rw [hn] at h
  exact h

theorem IsName.isNameChar {n : Text} (h : IsName n) : ∀ c ∈ n, isNameChar c = true := by
  cases n with
  | nil => exact h.elim
  | cons c t =>
    intro d hd
    rcases List.mem_cons.1 hd with rfl | hd
    · exact isNameChar_of_isNameStart h.1
    · exact h.2 d hd

theorem isName_singleton {c : Char} (h : isNameStart c = true) : IsName [c] :=
  ⟨h, List.forall_mem_nil _⟩

theorem isName_takeWhile {c : Char} (h : isNameStart c = true) (t : Text) :
    IsName (c :: t.takeWhile isNameChar) := by
  refine ⟨h, ?_⟩
  intro d hd
  have hall := List.all_takeWhile (p := isNameChar) (l := t)
  exact List.all_eq_true.1 hall d hd

theorem continuesName_dropWhile (t : Text) :
    continuesName (t.dropWhile isNameChar) = false := by
  induction t with
  | nil => rfl
  | cons c t ih =>
    by_cases hc : isNameChar c = true
    · rwa [List.dropWhile_cons_of_pos hc]
    · rw [List.dropWhile_cons_of_neg hc]
      exact Bool.not_eq_true _ ▸ hc

theorem takeWhile_name_append {n t : Text} (hn : ∀ c ∈ n, isNameChar c = true)
    (ht : continuesName t = false) : (n ++ t).takeWhile isNameChar = n := by
  rw [List.takeWhile_append_of_pos hn]
  cases t with
  | nil => simp
  | cons c r =>
    rw [List.takeWhile_cons_of_neg (by simpa [continuesName] using ht), List.append_nil]

theorem dropWhile_name_append {n t : Text} (hn : ∀ c ∈ n, isNameChar c = true)
    (ht : continuesName t = false) : (n ++ t).dropWhile isNameChar = t := by
  rw [List.dropWhile_append_of_pos hn]
  cases t with
  | nil => rfl
  | cons c r => rw [List.dropWhile_cons_of_neg (by simpa [continuesName] using ht)]

namespace Text

def pieces : Text → List Piece
  | [] => []
  | c :: t =>
    if isNameStart c then .name (c :: t.takeWhile isNameChar) :: pieces (t.dropWhile isNameChar)
    else .char c :: pieces t
termination_by t => t.length
decreasing_by
  · exact Nat.lt_succ_of_le (List.dropWhile_suffix _).length_le
  · exact Nat.lt_succ_self _

def names (t : Text) : List Text := t.pieces.filterMap Piece.name?

/-- The names that are no keywords. -/
def references (t : Text) : List Text := t.names.filter fun n => !Function.isKeyword n

def ofPieces (ps : List Piece) : Text := ps.flatMap Piece.text

@[simp] theorem ofPieces_nil : ofPieces [] = [] := rfl

@[simp] theorem ofPieces_cons (p : Piece) (ps : List Piece) :
    ofPieces (p :: ps) = p.text ++ ofPieces ps := List.flatMap_cons

@[simp] theorem ofPieces_append (ps qs : List Piece) :
    ofPieces (ps ++ qs) = ofPieces ps ++ ofPieces qs := List.flatMap_append

@[simp] theorem pieces_nil : pieces [] = [] := by rw [pieces]

theorem pieces_char {c : Char} (h : isNameStart c = false) (t : Text) :
    pieces (c :: t) = .char c :: pieces t := by
  rw [pieces, if_neg (by simp [h])]

theorem pieces_name {n : Text} (hn : IsName n) {t : Text} (ht : continuesName t = false) :
    pieces (n ++ t) = .name n :: pieces t := by
  cases n with
  | nil => exact hn.elim
  | cons c n =>
    rw [List.cons_append, pieces, if_pos hn.1, takeWhile_name_append hn.2 ht,
      dropWhile_name_append hn.2 ht]

theorem pieces_of_isName {n : Text} (hn : IsName n) : pieces n = [.name n] := by
  have h := pieces_name hn (t := []) rfl
  rwa [List.append_nil, pieces_nil] at h

/-- Characters that begin no name are pieces of their own. -/
theorem pieces_chars_append {s : Text} (hs : ∀ c ∈ s, isNameStart c = false) (t : Text) :
    pieces (s ++ t) = s.map .char ++ pieces t := by
  induction s with
  | nil => rfl
  | cons c s ih =>
    rw [List.cons_append, pieces_char (hs c (List.mem_cons_self ..)),
      ih (fun d hd => hs d (List.mem_cons_of_mem _ hd)), List.map_cons, List.cons_append]

theorem pieces_chars {s : Text} (hs : ∀ c ∈ s, isNameStart c = false) :
    pieces s = s.map .char := by
  have h := pieces_chars_append hs []
  rwa [List.append_nil, pieces_nil, List.append_nil] at h

/-- Every text is empty, or begins with a character that begins no name, or with a whole name. -/
theorem piece_induct {motive : Text → Prop} (nil : motive [])
    (char : ∀ c t, isNameStart c = false → motive t → motive (c :: t))
    (name : ∀ n t, IsName n → continuesName t = false → motive t → motive (n ++ t)) (t : Text) :
    motive t := by
  fun_induction pieces t with
  | case1 => exact nil
  | case2 c t hc ih =>
    have h := name _ _ (isName_takeWhile hc t) (continuesName_dropWhile t) ih
    rwa [List.cons_append, List.takeWhile_append_dropWhile] at h
  | case3 c t hc ih => exact char c t (Bool.not_eq_true _ ▸ hc) ih

theorem ofPieces_pieces (t : Text) : ofPieces t.pieces = t := by
  induction t using piece_induct with
  | nil => rw [pieces_nil, ofPieces_nil]
  | char c t hc ih =>
    rw [pieces_char hc, ofPieces_cons, ih]
    rfl
  | name n t hn ht ih =>
    rw [pieces_name hn ht, ofPieces_cons, ih]
    rfl

theorem isName_of_mem_pieces {n t : Text} (h : .name n ∈ t.pieces) : IsName n := by
  induction t using piece_induct with
  | nil =>
    rw [pieces_nil] at h
    cases h
  | char c t hc ih =>
    rw [pieces_char hc] at h
    rcases List.mem_cons.1 h with he | h
    · cases he
    · exact ih h
  | name m t hm ht ih =>
    rw [pieces_name hm ht] at h
    rcases List.mem_cons.1 h with he | h
    · cases he
      exact hm
    · exact ih h

theorem continuesName_append {s t : Text} (hs : continuesName s = false)
    (ht : continuesName t = false) : continuesName (s ++ t) = false := by
  cases s with
  | nil => exact ht
  | cons c s => exact hs

/-- The pieces of two texts side by side, when the second does not go on with a name. -/
theorem pieces_append (s : Text) {t : Text} (ht : continuesName t = false) :
    pieces (s ++ t) = s.pieces ++ t.pieces := by
  induction s using piece_induct with
  | nil => rw [pieces_nil, List.nil_append, List.nil_append]
  | char c s hc ih => rw [List.cons_append, pieces_char hc, pieces_char hc, ih, List.cons_append]
  | name n s hn hs ih =>
    rw [List.append_assoc, pieces_name hn (continuesName_append hs ht), pieces_name hn hs, ih,
      List.cons_append]

theorem mem_names {n t : Text} : n ∈ t.names ↔ .name n ∈ t.pieces := by
  unfold names
  rw [List.mem_filterMap]
  constructor
  · rintro ⟨p, hp, hn⟩
    cases p with
    | char c => cases hn
    | name m =>
      cases hn
      exact hp
  · intro h
    exact ⟨.name n, h, rfl⟩

theorem mem_references {n t : Text} :
    n ∈ t.references ↔ .name n ∈ t.pieces ∧ Function.isKeyword n = false := by
  unfold references
  rw [List.mem_filter, mem_names, Bool.not_eq_true']

theorem mem_references_append {n s t : Text} (ht : continuesName t = false) :
    n ∈ (s ++ t).references ↔ n ∈ s.references ∨ n ∈ t.references := by
  simp only [mem_references, pieces_append s ht, List.mem_append, or_and_right]

@[simp] theorem references_nil : references [] = [] := by
  rw [references, names, pieces_nil]
  rfl

theorem references_chars_append {s : Text} (hs : ∀ c ∈ s, isNameStart c = false) (t : Text) :
    references (s ++ t) = references t := by
  have hnone : (s.map Piece.char).filterMap Piece.name? = [] := by
    rw [List.filterMap_map]
    exact List.filterMap_eq_nil_iff.2 fun _ _ => rfl
  rw [references, names, pieces_chars_append hs, List.filterMap_append, hnone]
  rfl

theorem references_chars {s : Text} (hs : ∀ c ∈ s, isNameStart c = false) : references s = [] := by
  have h := references_chars_append hs []
  rwa [List.append_nil, references_nil] at h

theorem references_name_append {n t : Text} (hn : IsName n) (hk : Function.isKeyword n = false)
    (ht : continuesName t = false) : references (n ++ t) = n :: references t := by
  have hkept : (!Function.isKeyword n) = true := by rw [hk, Bool.not_false]
  rw [references, names, pieces_name hn ht]
  exact List.filter_cons_of_pos hkept

end Text
end MatrixCalc
