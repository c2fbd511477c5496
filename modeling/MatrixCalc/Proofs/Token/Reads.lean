import MatrixCalc.Proofs.Names

/-!
# What a reading takes off a text

With signs kept apart, a reading ends the text, reports a fault, finds the target of an
assignment, finds a reference to a variable, or takes pieces that are no references. In the last
three cases the pieces of the text are those taken and those of the rest (`read_spec`).
-/
namespace MatrixCalc

open Text

theorem isNameChar_of_isBlank {c : Char} (h : isBlank c = true) : isNameChar c = false := by
  simp only [isBlank, Bool.or_eq_true, beq_iff_eq] at h
  rcases h with ((((rfl | rfl) | rfl) | rfl) | rfl) | rfl <;> rfl

theorem isNameStart_of_isNameChar_eq_false {c : Char} (h : isNameChar c = false) :
    isNameStart c = false := by
  cases hs : isNameStart c with
  | false => rfl
  | true =>
    rw [isNameChar_of_isNameStart hs] at h
    cases h

theorem isNameStart_of_isBlank {c : Char} (h : isBlank c = true) : isNameStart c = false :=
  isNameStart_of_isNameChar_eq_false (isNameChar_of_isBlank h)

theorem isNumeralChar_of_isBlank {c : Char} (h : isBlank c = true) :
    Decimal.isNumeralChar c = false := by
  simp only [isBlank, Bool.or_eq_true, beq_iff_eq] at h
  rcases h with ((((rfl | rfl) | rfl) | rfl) | rfl) | rfl <;> rfl

theorem equals_not_mem_of_isBlank {t : Text} (h : ∀ c ∈ t, isBlank c = true) : '=' ∉ t := by
  intro hm
  exact absurd (h _ hm) (by decide)

theorem IsName.equals_not_mem {n : Text} (h : IsName n) : '=' ∉ n := by
  intro hm
  exact absurd (h.isNameChar _ hm) (by decide)

theorem isNameStart_of_isNumeralChar {c : Char} (h : Decimal.isNumeralChar c = true) :
    isNameStart c = false := by
  simp only [Decimal.isNumeralChar, Bool.or_eq_true, beq_iff_eq] at h
  rcases h with hdigit | rfl
  · refine Bool.eq_false_iff.2 ?_
    intro hs
    rcases Bool.or_eq_true_iff.1 hs with hletter | hunderscore
    · exact not_isAlpha_of_isDigit hdigit hletter
    · rw [eq_of_beq hunderscore] at hdigit
      exact absurd hdigit (by decide)
  · rfl

/-- The characters of a token that is no name. -/
theorem all_kept_of_chars {s : Text} (hs : ∀ c ∈ s, isNameStart c = false) :
    ∀ q ∈ pieces s, q.isKept = true := by
  rw [pieces_chars hs]
  intro q hq
  obtain ⟨c, -, rfl⟩ := List.mem_map.1 hq
  rfl

theorem symbol?_ne {c : Char} {token : Token} (h : symbol? c = some token) :
    c ≠ '=' ∧ token ≠ .stop ∧ (∀ n, token ≠ .target n) ∧ ∀ n, token ≠ .reference n := by
  refine ⟨?_, ?_⟩
  · rintro rfl
    have hn : symbol? '=' = none := by decide
    rw [hn] at h
    cases h
  · unfold symbol? at h
    split at h
    · cases h
      simp
    · split at h <;> cases h <;> simp

/-- The text begins with blanks and a name that is no keyword. -/
structure LeadingName (t blanks n rest : Text) : Prop where
  blank : ∀ c ∈ blanks, isBlank c = true
  isName : IsName n
  notKeyword : Function.isKeyword n = false
  eq_append : t = blanks ++ (n ++ rest)
  ended : continuesName rest = false

/-- The text begins with pieces that are no references. -/
structure LeadingKept (t s rest : Text) : Prop where
  eq_append : t = s ++ rest
  pieces_eq : pieces t = pieces s ++ pieces rest
  kept : ∀ q ∈ pieces s, q.isKept = true
  noEquals : '=' ∉ s

theorem leadingKept_of_chars {s : Text} (hs : ∀ c ∈ s, isNameStart c = false) (he : '=' ∉ s)
    (rest : Text) : LeadingKept (s ++ rest) s rest := by
  refine ⟨rfl, ?_, all_kept_of_chars hs, he⟩
  rw [pieces_chars hs, pieces_chars_append hs]

theorem leadingKept_of_isBlank {s : Text} (hs : ∀ c ∈ s, isBlank c = true) (rest : Text) :
    LeadingKept (s ++ rest) s rest :=
  leadingKept_of_chars (fun c hc => isNameStart_of_isBlank (hs c hc))
    (equals_not_mem_of_isBlank hs) rest

theorem leadingKept_self {t : Text} (ht : ∀ c ∈ t, isBlank c = true) : LeadingKept t t [] := by
  have h := leadingKept_of_isBlank ht []
  rwa [List.append_nil] at h

theorem leadingKept_of_keyword {n rest : Text} (hn : IsName n) (hk : Function.isKeyword n = true)
    (hr : continuesName rest = false) : LeadingKept (n ++ rest) n rest := by
  refine ⟨rfl, ?_, ?_, hn.equals_not_mem⟩
  · rw [pieces_name hn hr, pieces_of_isName hn, List.singleton_append]
  · rw [pieces_of_isName hn]
    intro q hq
    rw [List.mem_singleton.1 hq]
    exact hk

theorem LeadingKept.after_blanks {blanks t s rest : Text} (h : LeadingKept t s rest)
    (hb : ∀ c ∈ blanks, isBlank c = true) :
    LeadingKept (blanks ++ t) (blanks ++ s) rest := by
  have hblanks := leadingKept_of_isBlank hb
  refine ⟨?_, ?_, ?_, ?_⟩
  · rw [h.eq_append, List.append_assoc]
  · rw [(hblanks t).pieces_eq, h.pieces_eq, (hblanks s).pieces_eq, List.append_assoc]
  · rw [(hblanks s).pieces_eq]
    intro q hq
    rcases List.mem_append.1 hq with hq | hq
    · exact (hblanks s).kept q hq
    · exact h.kept q hq
  · intro hm
    rcases List.mem_append.1 hm with hm | hm
    · exact (hblanks s).noEquals hm
    · exact h.noEquals hm

theorem LeadingName.leadingKept {t blanks n rest : Text} (h : LeadingName t blanks n rest) :
    LeadingKept t blanks (n ++ rest) := by
  rw [h.eq_append]
  exact leadingKept_of_isBlank h.blank _

theorem LeadingName.pieces_name {t blanks n rest : Text} (h : LeadingName t blanks n rest) :
    pieces (n ++ rest) = .name n :: pieces rest :=
  Text.pieces_name h.isName h.ended

theorem LeadingName.pieces_eq {t blanks n rest : Text} (h : LeadingName t blanks n rest) :
    pieces t = pieces blanks ++ .name n :: pieces rest := by
  rw [h.leadingKept.pieces_eq, h.pieces_name]

inductive Reads (known : Text → Bool) (t : Text) : Reading → Prop
  | stop (ht : ∀ c ∈ t, isBlank c = true) : Reads known t ⟨t, [], [], [], .ok .stop⟩
  | fault {r : Reading} {f : Fault} (ho : r.outcome = .error f) (hf : ∀ n, f ≠ .cyclic n) :
      Reads known t r
  | kept {blanks lexeme rest : Text} {token : Token}
      (ht : LeadingKept t (blanks ++ lexeme) rest) (hstop : token ≠ .stop)
      (htarget : ∀ n, token ≠ .target n) (href : ∀ n, token ≠ .reference n) :
      Reads known t ⟨blanks, lexeme, [], rest, .ok token⟩
  | target {blanks n behind rest : Text} (ht : LeadingName t blanks n (behind ++ rest))
      (he : takeEquals? (behind ++ rest) = some (behind, rest)) :
      Reads known t ⟨blanks, n, behind, rest, .ok (.target n)⟩
  | reference {blanks n rest : Text} (ht : LeadingName t blanks n rest) (hv : known n = true) :
      Reads known t ⟨blanks, n, [], rest, .ok (.reference n)⟩

theorem isBlank_blanks (t : Text) : ∀ c ∈ t.blanks, isBlank c = true :=
  fun _ hc => isBlank_of_mem_blanks hc

theorem reads_kept {known : Text → Bool} {t lexeme rest : Text} {token : Token}
    (ht : t = t.blanks ++ (lexeme ++ rest)) (hkept : LeadingKept (lexeme ++ rest) lexeme rest)
    (hstop : token ≠ .stop) (htarget : ∀ n, token ≠ .target n)
    (href : ∀ n, token ≠ .reference n) :
    Reads known t (.plain t.blanks lexeme rest (.ok token)) := by
  have h := hkept.after_blanks (isBlank_blanks t)
  rw [← ht] at h
  exact .kept h hstop htarget href

theorem reads_name {known : Text → Bool} {t n rest : Text} (ht : t = t.blanks ++ (n ++ rest))
    (hn : IsName n) (hr : continuesName rest = false) :
    Reads known t (readName known t.blanks n rest) := by
  unfold readName
  cases hk : Function.ofKeyword? n with
  | some f =>
    have hk' : Function.isKeyword n = true := by rw [Function.isKeyword, hk]; rfl
    exact reads_kept ht (leadingKept_of_keyword hn hk' hr) (by simp) (by simp) (by simp)
  | none =>
    have hk' : Function.isKeyword n = false := by rw [Function.isKeyword, hk]; rfl
    cases he : takeEquals? rest with
    | some b =>
      obtain ⟨behind, rest'⟩ := b
      have hrest := takeEquals?_eq_some he
      subst hrest
      exact .target ⟨isBlank_blanks t, hn, hk', ht, hr⟩ he
    | none =>
      cases hv : known n with
      | true => exact .reference ⟨isBlank_blanks t, hn, hk', ht, hr⟩ hv
      | false => exact .fault rfl (by simp)

/-- Everything that a reading with signs apart can be. -/
theorem read_spec (known : Text → Bool) (t : Text) : Reads known t (read known false t) := by
  have hb := t.blanks_append_trimStart
  unfold read
  cases h : t.trimStart with
  | nil =>
    rw [h, List.append_nil] at hb
    change Reads known t ⟨t.blanks, [], [], [], .ok .stop⟩
    have ht := isBlank_blanks t
    rw [hb] at ht ⊢
    exact .stop ht
  | cons c tail =>
    rw [h] at hb
    simp only [Bool.false_and, Bool.false_eq_true, if_false]
    split
    · next hc =>
      have ht : t = t.blanks ++ ((c :: tail.takeWhile Decimal.isNumeralChar) ++
          tail.dropWhile Decimal.isNumeralChar) := by
        rw [List.cons_append, List.takeWhile_append_dropWhile, hb]
      have hl : ∀ d ∈ c :: tail.takeWhile Decimal.isNumeralChar,
          Decimal.isNumeralChar d = true := by
        intro d hd
        rcases List.mem_cons.1 hd with rfl | hd
        · exact hc
        · exact List.all_eq_true.1 List.all_takeWhile d hd
      unfold readNumeral
      split
      · have he : '=' ∉ c :: tail.takeWhile Decimal.isNumeralChar := by
          intro hm
          exact absurd (hl _ hm) (by decide)
        have hstart := fun d hd => isNameStart_of_isNumeralChar (hl d hd)
        exact reads_kept ht (leadingKept_of_chars hstart he _) (by simp) (by simp) (by simp)
      · exact .fault rfl (by simp)
    · split
      · next hc =>
        refine reads_name ?_ (isName_takeWhile hc tail) (continuesName_dropWhile tail)
        rw [List.cons_append, List.takeWhile_append_dropWhile, hb]
      · next hc =>
        unfold readSymbol
        cases hs : symbol? c with
        | some token =>
          obtain ⟨he, hstop, htarget, href⟩ := symbol?_ne hs
          have hstart : ∀ d ∈ [c], isNameStart d = false := by
            intro d hd
            rw [List.mem_singleton.1 hd]
            exact Bool.not_eq_true _ ▸ hc
          have he' : '=' ∉ [c] := fun hm => he (List.mem_singleton.1 hm).symm
          exact reads_kept hb.symm (leadingKept_of_chars hstart he' _) hstop htarget href
        | none => exact .fault rfl (by simp)

end MatrixCalc
