import MatrixCalc.Proofs.Expr.Simulation
import MatrixCalc.Proofs.Expr.Spelling
import MatrixCalc.Proofs.Token.Keywords

/-!
# Layout

Blanks that are put between the lexemes of a text keep its lexemes, and part some signs from the
numerals behind them (`Loosens.spelled`). So the text is parsed as before, except that a parted sign
is an operator of its own and needs an open level.
-/
namespace MatrixCalc

open Text

/-- The second text is the first with blanks put between its lexemes. -/
inductive Loosens : Text → Text → Prop
  | blanks {b b' : Text} (hb' : ∀ c ∈ b', isBlank c = true) (hsub : b.Sublist b') : Loosens b b'
  | lexeme {b b' lexeme rest rest' : Text} (hb' : ∀ c ∈ b', isBlank c = true)
      (hsub : b.Sublist b') (hl : IsLexeme lexeme rest) (h : Loosens rest rest') :
      Loosens (b ++ (lexeme ++ rest)) (b' ++ (lexeme ++ rest'))

namespace Loosens

theorem refl (t : Text) : Loosens t t := by
  rcases exists_isLexeme t with hb | ⟨lexeme, rest, ht, hl⟩
  · exact .blanks hb (.refl t)
  · have hlt : rest.length < t.length := by
      have hpos := List.length_pos_iff.2 hl.ne_nil
      rw [ht, List.length_append, List.length_append]
      omega
    rw [ht]
    exact .lexeme (isBlank_blanks t) (.refl _) hl (refl rest)
termination_by t.length

/-- What is no blank in front of the second text stands in front of the first. -/
theorem head? {s s' : Text} (h : Loosens s s') {c : Char} (hc : c ∈ s'.head?)
    (hblank : isBlank c = false) : c ∈ s.head? := by
  have hnil : ∀ {b t : Text}, (∀ c ∈ b, isBlank c = true) → c ∈ (b ++ t).head? → b = [] := by
    intro b t hb hhead
    cases b with
    | nil => rfl
    | cons d b =>
      cases hhead
      rw [hb c (List.mem_cons_self ..)] at hblank
      cases hblank
  cases h with
  | blanks hb' hsub =>
    obtain rfl := hnil (t := []) hb' (by rwa [List.append_nil])
    cases hc
  | lexeme hb' hsub hl h =>
    obtain ⟨d, lexeme, rfl, -⟩ := hl.exists_cons
    obtain rfl := hnil hb' hc
    obtain rfl := List.sublist_nil.1 hsub
    exact hc

theorem any_head? {s s' : Text} (h : Loosens s s') {p : Char → Bool}
    (hp : ∀ c, p c = true → isBlank c = false) (hs : s.head?.any p = false) :
    s'.head?.any p = false := by
  rw [Option.any_eq_false] at hs ⊢
  intro c hc
  refine Bool.eq_false_iff.2 fun hpc => ?_
  exact Bool.eq_false_iff.1 (hs c (h.head? hc (hp c hpc))) hpc

theorem breaks {s s' : Text} (h : Loosens s s') : Breaks s s' := by
  constructor
  · simp only [startsNumeral_eq_any]
    exact h.any_head? fun _ => isNumeralChar_not_blank
  · simp only [continuesName_eq_any]
    exact h.any_head? fun _ => isNameChar_not_blank

/-- A numeral in front keeps its place behind the blanks that are put there. -/
theorem numeral {s s' : Text} (h : Loosens s s') (hs : startsNumeral s = true) :
    ∃ b' run rest rest', s = run ++ rest ∧ s' = b' ++ (run ++ rest') ∧
      (∀ c ∈ b', isBlank c = true) ∧ run ≠ [] ∧ (∀ c ∈ run, Decimal.isNumeralChar c = true) ∧
      startsNumeral rest = false ∧ Loosens rest rest' := by
  have hstarts : ∀ {b t : Text}, (∀ c ∈ b, isBlank c = true) → startsNumeral (b ++ t) = true →
      b = [] := by
    intro b t hb hbt
    cases b with
    | nil => rfl
    | cons c b =>
      have hc : Decimal.isNumeralChar c = true := hbt
      rw [isNumeralChar_of_isBlank (hb c (List.mem_cons_self ..))] at hc
      cases hc
  cases h with
  | blanks hb' hsub =>
    obtain rfl := hstarts (t := []) (fun c hc => hb' c (hsub.subset hc)) (by rwa [List.append_nil])
    cases hs
  | @lexeme b b' lexeme rest rest' hb' hsub hl h =>
    obtain rfl := hstarts (fun c hc => hb' c (hsub.subset hc)) hs
    cases hl with
    | numeral hne hrun hr =>
      exact ⟨b', lexeme, rest, rest', rfl, rfl, hb', hne, hrun, hr, h⟩
    | name hn =>
      obtain ⟨c, tail, rfl⟩ := List.exists_cons_of_ne_nil hn.ne_nil
      exact absurd (hn.startsNumeral.symm.trans hs) nofun
    | char _ hnumeral => exact absurd (hnumeral.symm.trans hs) nofun

end Loosens

/-- What a text and the same with further blanks have in front. -/
inductive Matched (known : Text → Bool) (fold : Bool) (s s' : Text) : Prop
  | stop (hs : s.trimStart = []) (hs' : s'.trimStart = [])
  | same {b b' lexeme rest rest' : Text} {outcome : Except Fault Token}
      (hs : read known fold s = .plain b lexeme rest outcome)
      (hs' : read known fold s' = .plain b' lexeme rest' outcome) (hstop : outcome ≠ .ok .stop)
      (h : Loosens rest rest') (hk : rest.OnlyKeywords)
  | apart {negative : Bool} {b b' b'' run rest rest' : Text} (hfold : fold = true)
      (hrun : ∀ c ∈ run, Decimal.isNumeralChar c = true)
      (hs : read known fold s = readNumeral b ((signOperator negative).symbol :: run) rest)
      (hsign : read known fold s' = .plain b' [(signOperator negative).symbol]
        (b'' ++ (run ++ rest')) (.ok (.operator (signOperator negative))))
      (hnumber : ∀ fold, read known fold (b'' ++ (run ++ rest')) = readNumeral b'' run rest')
      (h : Loosens rest rest') (hk : rest.OnlyKeywords)

theorem Loosens.matched {s s' : Text} (h : Loosens s s') (hk : s.OnlyKeywords)
    (known : Text → Bool) (fold : Bool) : Matched known fold s s' := by
  cases h with
  | blanks hb' hsub =>
    refine .stop (List.dropWhile_eq_nil_iff.2 fun c hc => ?_) (List.dropWhile_eq_nil_iff.2 hb')
    exact hb' c (hsub.subset hc)
  | @lexeme b b' lexeme rest rest' hb' hsub hl h =>
    have hb : ∀ c ∈ b, isBlank c = true := fun c hc => hb' c (hsub.subset hc)
    have hk' := hk.of_blanks hb
    rcases hl.reads hk' known fold with ⟨outcome, hstop, hreads⟩ | ⟨rfl, hstarts, negative, rfl⟩
    · exact .same (hreads b rest hb ⟨id, id⟩) (hreads b' rest' hb' h.breaks) hstop h
        (hl.onlyKeywords hk')
    · obtain ⟨b'', run, rest, rest', rfl, rfl, hb'', hne, hrun, hr, htail⟩ :=
        h.numeral hstarts
      have hread := read_sign_numeral known negative hb hne hrun hr
      have hk := (IsLexeme.numeral hne hrun hr).onlyKeywords (hl.onlyKeywords hk')
      cases b'' with
      | nil =>
        have hread' := read_sign_numeral known negative hb' hne hrun (htail.breaks.numeral hr)
        exact .same hread hread' (readNumeral_ne_stop [] _ []) htail hk
      | cons d b'' =>
        obtain ⟨hblank, hnumeral, hname⟩ := symbol?_plain (symbol?_sign negative)
        have happart : startsNumeral (d :: b'' ++ (run ++ rest')) = false :=
          isNumeralChar_of_isBlank (hb'' d (List.mem_cons_self ..))
        have hread' : read known true (b' ++ _ :: (d :: b'' ++ (run ++ rest'))) = _ :=
          read_char hb' hblank hnumeral hname (by rw [happart, Bool.and_false])
        rw [readSymbol, symbol?_sign] at hread'
        refine .apart rfl hrun hread hread' (fun fold => ?_) htail hk
        exact read_numeral hb'' hne hrun (htail.breaks.numeral hr)

theorem readNumeral_eq_ok_iff {b lexeme rest : Text} {token : Token} :
    (readNumeral b lexeme rest).outcome = .ok token ↔
      ∃ x, Decimal.value? lexeme = some x ∧ .number x = token := by
  cases hx : Decimal.value? lexeme with
  | none => simp [readNumeral_of_none hx, Reading.plain]
  | some x => simp [readNumeral_of_some hx, Reading.plain]

namespace Loosens

variable {known : Text → Bool}

/-- With further blanks a text spells the same tokens, but for the signs that are parted from their
numerals. -/
theorem spelled {s s' : Text} (h : Loosens s s') (hk : s.OnlyKeywords) {fold : Bool}
    {ts : List Token} (hs : Spelled known s (flagged fold ts)) :
    ∃ ts', Spelled known s' (flagged fold ts') ∧ Loosened fold ts ts' := by
  induction ts generalizing s s' fold with
  | nil =>
    cases h.matched hk known fold with
    | stop _ hs' => exact ⟨[], hs', .nil fold⟩
    | same hread _ hstop => exact absurd hs (not_spelled_nil hread hstop)
    | apart _ _ hread => exact absurd hs (not_spelled_nil hread (readNumeral_ne_stop _ _ _))
  | cons token ts ih =>
    cases h.matched hk known fold with
    | stop hend => exact absurd hs (not_spelled_cons hend)
    | same hread hread' _ h hk =>
      obtain ⟨ho, hne, hs⟩ := (spelled_cons_iff hread).1 hs
      obtain ⟨ts', hs', hloose⟩ := ih h hk hs
      exact ⟨token :: ts', (spelled_cons_iff hread').2 ⟨ho, hne, hs'⟩, .same fold token hloose⟩
    | @apart negative _ _ _ _ _ _ hfold hrun hread hsign hnumber h hk =>
      subst hfold
      obtain ⟨ho, hne, hs⟩ := (spelled_cons_iff hread).1 hs
      obtain ⟨y, hy, rfl⟩ := readNumeral_eq_ok_iff.1 ho
      rw [value?_signed negative hrun, Option.map_eq_some_iff] at hy
      obtain ⟨x, hx, rfl⟩ := hy
      obtain ⟨ts', hs', hloose⟩ := ih h hk hs
      refine ⟨.operator (signOperator negative) :: .number x :: ts', ?_, .apart negative x hloose⟩
      refine (spelled_cons_iff hsign).2 ⟨rfl, nofun, ?_⟩
      refine (spelled_cons_iff (hnumber _)).2 ⟨?_, nofun, hs'⟩
      exact readNumeral_eq_ok_iff.2 ⟨x, hx, rfl⟩

/-- What a text spells with further blanks, it spells without them, but for the signs that join
their numerals. -/
theorem spelled_without {s s' : Text} (h : Loosens s s') (hk : s.OnlyKeywords) {fold : Bool}
    {ts' : List Token} (hs' : Spelled known s' (flagged fold ts')) :
    ∃ ts, Spelled known s (flagged fold ts) ∧ Loosened fold ts ts' := by
  match ts' with
  | [] =>
    cases h.matched hk known fold with
    | stop hs => exact ⟨[], hs, .nil fold⟩
    | same _ hread' hstop => exact absurd hs' (not_spelled_nil hread' hstop)
    | apart _ _ _ hsign => exact absurd hs' (not_spelled_nil hsign nofun)
  | token :: ts' =>
    cases h.matched hk known fold with
    | stop _ hend => exact absurd hs' (not_spelled_cons hend)
    | same hread hread' _ h hk =>
      obtain ⟨ho, hne, hs'⟩ := (spelled_cons_iff hread').1 hs'
      obtain ⟨ts, hs, hloose⟩ := spelled_without h hk hs'
      exact ⟨token :: ts, (spelled_cons_iff hread).2 ⟨ho, hne, hs⟩, .same fold token hloose⟩
    | @apart negative _ _ _ _ _ _ hfold hrun hread hsign hnumber h hk =>
      subst hfold
      obtain ⟨ho, -, hs'⟩ := (spelled_cons_iff hsign).1 hs'
      cases ho
      cases ts' with
      | nil => exact absurd hs' (not_spelled_nil (hnumber _) (readNumeral_ne_stop _ _ _))
      | cons token ts' =>
        obtain ⟨ho, -, hs'⟩ := (spelled_cons_iff (hnumber _)).1 hs'
        obtain ⟨x, hx, rfl⟩ := readNumeral_eq_ok_iff.1 ho
        obtain ⟨ts, hs, hloose⟩ := spelled_without h hk hs'
        refine ⟨.number (signed negative x) :: ts, ?_, .apart negative x hloose⟩
        refine (spelled_cons_iff hread).2 ⟨readNumeral_eq_ok_iff.2 ⟨_, ?_, rfl⟩, nofun, hs⟩
        rw [value?_signed negative hrun, hx, Option.map_some]
termination_by ts'.length

theorem alike_start : Parser.start.Alike Parser.start := .operand 0 .nil

section Parse

variable {s s' : Text} (h : Loosens s s') (hk : s.OnlyKeywords)

include h hk

theorem parse_without {tree' : Expr} (hs' : Expr.parse known s' = .ok tree') :
    ∃ tree, Expr.parse known s = .ok tree := by
  obtain ⟨⟨e, hending⟩, hfinish⟩ := (parse_eq_ok_iff_run known s' tree').1 hs'
  obtain ⟨r', hrun', htree'⟩ := Option.bind_eq_some_iff.1 hfinish
  obtain ⟨ts, hs, hloose⟩ := h.spelled_without hk
    ((spelled_flagged_iff known 0 true s' _).2 ⟨rfl, e, hending⟩)
  obtain ⟨htokens, hending⟩ := (spelled_flagged_iff known 0 true s ts).1 hs
  obtain ⟨r, hrun, hr⟩ := hloose.run alike_start (fun _ => rfl) hrun'
  obtain ⟨tree, htree, -⟩ := Parser.exists_of_rel hr.finish htree'
  refine ⟨tree, (parse_eq_ok_iff_run known s tree).2 ⟨hending, ?_⟩⟩
  rw [Stream.ofText, htokens, hrun, Option.bind_some, htree]

theorem parse_ensures {tree : Expr} (hs : Expr.parse known s = .ok tree) :
    Ensures tree.Unfolds (fun e => e.fault = .tooDeep) (Expr.parse known s') := by
  obtain ⟨⟨e, hending⟩, hfinish⟩ := (parse_eq_ok_iff_run known s tree).1 hs
  obtain ⟨r, hrun, htree⟩ := Option.bind_eq_some_iff.1 hfinish
  obtain ⟨ts', hs', hloose⟩ := h.spelled hk
    ((spelled_flagged_iff known 0 true s _).2 ⟨rfl, e, hending⟩)
  obtain ⟨htokens', e', hending'⟩ := (spelled_flagged_iff known 0 true s' ts').1 hs'
  refine (hloose.foldlM_feed alike_start (fun _ => rfl) hrun htokens').bind fun r' hr => ?_
  have htree' := hr.finish
  rw [htree, ← Parser.toOption_finish r' e'] at htree'
  rw [Stream.ofText, hending']
  change Ensures _ _ (r'.finish e')
  cases hfinish' : r'.finish e' with
  | error e =>
    rw [hfinish'] at htree'
    cases htree'
  | ok tree' =>
    rw [hfinish'] at htree'
    cases htree' with
    | some hunfolds => exact hunfolds

end Parse

end Loosens

/-- Blanks between the lexemes of a text, also between a sign and a numeral, do not matter to what
it means, and only matter to whether it is parsed where a parted sign needs a level too many. -/
theorem layout_invisible (known : Text → Bool) {s s' : Text} (h : Loosens s s')
    (hk : s.OnlyKeywords) :
    ((∃ tree', Expr.parse known s' = .ok tree') → ∃ tree, Expr.parse known s = .ok tree) ∧
    (∀ tree, Expr.parse known s = .ok tree → (∃ tree', Expr.parse known s' = .ok tree') ∨
      ∃ e, Expr.parse known s' = .error e ∧ e.fault = .tooDeep) ∧
    ∀ tree tree', Expr.parse known s = .ok tree → Expr.parse known s' = .ok tree' →
      tree.Unfolds tree' ∧
      ∀ (σ : Type) [RandomSource σ], (tree.eval : Calc σ Value) = tree'.eval := by
  refine ⟨fun ⟨tree', hs'⟩ => h.parse_without hk hs', fun tree hs => ?_, ?_⟩
  · have hensures := h.parse_ensures hk hs
    cases hs' : Expr.parse known s' with
    | ok tree' => exact .inl ⟨tree', rfl⟩
    | error e => exact .inr ⟨e, rfl, hensures.of_error hs'⟩
  · intro tree tree' hs hs'
    have hunfolds := (h.parse_ensures hk hs).of_ok hs'
    exact ⟨hunfolds, fun σ _ => hunfolds.eval_eq⟩

/-- A sign binds tighter than a power, whether it belongs to the numeral or stands apart. -/
theorem layout_invisible_of_parted_sign :
    Expr.parse (fun _ => false) "-2^2".toList = .ok (.binary .pow (.number (-2)) (.number 2)) ∧
      Expr.parse (fun _ => false) "- 2^2".toList =
        .ok (.binary .pow (.negate (.number 2)) (.number 2)) ∧
      ∀ (σ : Type) [RandomSource σ],
        ((Expr.binary .pow (.number (-2)) (.number 2)).eval : Calc σ Value) =
          (Expr.binary .pow (.negate (.number 2)) (.number 2)).eval := by
  have htwo : IsLexeme ['2'] ['^', '2'] := .numeral nofun (List.forall_mem_singleton.2 rfl) rfl
  have hloosens : Loosens "-2^2".toList "- 2^2".toList :=
    .lexeme (List.forall_mem_nil _) .slnil (.char rfl rfl rfl)
      (.lexeme (List.forall_mem_singleton.2 rfl) (List.nil_sublist [' ']) htwo (.refl _))
  have hk : Text.OnlyKeywords "-2^2".toList := Text.onlyKeywords_of_any rfl
  have hfolded : Expr.parse (fun _ => false) "-2^2".toList =
      .ok (.binary .pow (.number (-2)) (.number 2)) := by
    refine parse_of_spelled [.number (-2), .operator .pow, .number 2] ?_ rfl
    exact ⟨by decide, nofun, rfl, nofun, by decide, nofun, rfl⟩
  have hparted : Expr.parse (fun _ => false) "- 2^2".toList =
      .ok (.binary .pow (.negate (.number 2)) (.number 2)) := by
    refine parse_of_spelled [.operator .sub, .number 2, .operator .pow, .number 2] ?_ rfl
    exact ⟨rfl, nofun, by decide, nofun, rfl, nofun, by decide, nofun, rfl⟩
  exact ⟨hfolded, hparted, ((layout_invisible _ hloosens hk).2.2 _ _ hfolded hparted).2⟩

end MatrixCalc
