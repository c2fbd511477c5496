import MatrixCalc.Proofs.Except
import MatrixCalc.Proofs.Token.Tiles

/-!
# Signs apart and signs folded

A reading that folds signs differs from one that keeps them apart only at a sign directly in front
of a numeral: there it takes both, and the value is that of the numeral with the sign
(`read_fold_of_foldsAt`). So a text can be read to its end with signs apart exactly when it can
with any choice of signs to fold, and the tokens differ only in the folded pairs.
-/
namespace MatrixCalc

open Text

/-- The value of a numeral behind a sign. -/
def signed (negative : Bool) (x : Float) : Float := if negative then -x else x

def signOperator (negative : Bool) : Operator := if negative then .sub else .add

theorem exists_sign {c : Char} (h : isSign c = true) :
    ∃ negative, c = (signOperator negative).symbol := by
  rcases Bool.or_eq_true_iff.1 h with h | h
  · exact ⟨false, eq_of_beq h⟩
  · exact ⟨true, eq_of_beq h⟩

theorem isSign_signOperator (negative : Bool) :
    isSign (signOperator negative).symbol = true := by
  cases negative <;> rfl

theorem value?_of_numeral {run : Text} (h : ∀ c ∈ run, Decimal.isNumeralChar c = true) :
    Decimal.value? run = Decimal.unsignedValue? run := by
  unfold Decimal.value?
  split
  · exact absurd (h _ (List.mem_cons_self ..)) (by decide)
  · exact absurd (h _ (List.mem_cons_self ..)) (by decide)
  · rfl

/-- A sign in front of a numeral changes its value, and not whether it has one. -/
theorem value?_signed (negative : Bool) {run : Text}
    (h : ∀ c ∈ run, Decimal.isNumeralChar c = true) :
    Decimal.value? ((signOperator negative).symbol :: run) =
      (Decimal.value? run).map (signed negative) := by
  rw [value?_of_numeral h]
  cases negative with
  | false =>
    change Decimal.unsignedValue? run = _
    cases Decimal.unsignedValue? run <;> rfl
  | true => rfl

theorem symbol?_sign (negative : Bool) :
    symbol? (signOperator negative).symbol = some (.operator (signOperator negative)) := by
  cases negative <;> rfl

theorem read_sign_numeral (known : Text → Bool) (negative : Bool) {blanks run rest : Text}
    (hb : ∀ c ∈ blanks, isBlank c = true) (hne : run ≠ [])
    (hrun : ∀ c ∈ run, Decimal.isNumeralChar c = true) (hr : startsNumeral rest = false) :
    read known true (blanks ++ (signOperator negative).symbol :: (run ++ rest)) =
      readNumeral blanks ((signOperator negative).symbol :: run) rest := by
  obtain ⟨hblank, hnumeral, hname⟩ := symbol?_plain (symbol?_sign negative)
  have hstarts : startsNumeral (run ++ rest) = true :=
    startsNumeral_append (startsNumeral_of_all hne hrun) rest
  unfold read
  rw [trimStart_append hb hblank, blanks_append hb hblank]
  simp only [hnumeral, hname, isSign_signOperator, hstarts, Bool.and_self, Bool.false_eq_true,
    if_false, if_true]
  rw [takeWhile_numeral_append hrun hr, dropWhile_numeral_append hrun hr]

theorem readNumeral_of_none {lexeme : Text} (h : Decimal.value? lexeme = none)
    (blanks rest : Text) :
    readNumeral blanks lexeme rest = .plain blanks lexeme rest (.error (.badNumeral lexeme)) := by
  rw [readNumeral, h]

theorem readNumeral_of_some {lexeme : Text} {x : Float} (h : Decimal.value? lexeme = some x)
    (blanks rest : Text) :
    readNumeral blanks lexeme rest = .plain blanks lexeme rest (.ok (.number x)) := by
  rw [readNumeral, h]

theorem readNumeral_ne_operator (blanks lexeme rest : Text) (op : Operator) :
    (readNumeral blanks lexeme rest).outcome ≠ .ok (.operator op) := by
  unfold readNumeral
  split <;> nofun

theorem symbol?_ne_number (c : Char) (x : Float) : symbol? c ≠ some (.number x) := by
  unfold symbol?
  split
  · nofun
  · split <;> nofun

/-- An operator is read off its symbol. -/
theorem read_operator {known : Text → Bool} {t : Text} {op : Operator}
    (h : (read known false t).outcome = .ok (.operator op)) :
    read known false t = .plain t.blanks [op.symbol] (read known false t).rest
        (.ok (.operator op)) ∧
      t = t.blanks ++ op.symbol :: (read known false t).rest := by
  have hfinds := read_finds known t
  generalize read known false t = r at h hfinds ⊢
  cases hfinds with
  | stop => cases h
  | refused _ ho =>
    obtain ⟨n, hn⟩ := ho _ h
    cases hn
  | @taken lexeme rest outcome ht htakes =>
    have ho : outcome = .ok (.operator op) := h
    cases htakes with
    | numeral => exact absurd ho (readNumeral_ne_operator _ _ _ _)
    | keyword | reference => cases ho
    | @symbol c token _ hs =>
      cases ho
      have hc : op.symbol = c := by
        unfold symbol? at hs
        split at hs
        · next op' hop =>
          cases hs
          simpa using List.find?_some hop
        · split at hs <;> cases hs
      rw [hc]
      exact ⟨rfl, ht⟩

/-- A number is read off a numeral. -/
theorem startsNumeral_of_read {known : Text → Bool} {t : Text} {x : Float}
    (h : (read known false t).outcome = .ok (.number x)) (hb : t.blanks = []) :
    startsNumeral t = true := by
  have hfinds := read_finds known t
  generalize read known false t = r at h hfinds
  cases hfinds with
  | stop => cases h
  | refused _ ho =>
    obtain ⟨n, hn⟩ := ho _ h
    cases hn
  | @taken lexeme rest outcome ht htakes =>
    have ho : outcome = .ok (.number x) := h
    cases htakes with
    | numeral hne hrun =>
      rw [ht, hb, List.nil_append]
      exact startsNumeral_append (startsNumeral_of_all hne hrun) rest
    | keyword | reference => cases ho
    | symbol hs =>
      cases ho
      exact absurd hs (symbol?_ne_number _ _)

/-- The first token is a sign, and a numeral stands directly behind it. -/
def FoldsAt (known : Text → Bool) (t : Text) (negative : Bool) : Prop :=
  (read known false t).outcome = .ok (.operator (signOperator negative)) ∧
    startsNumeral (read known false t).rest = true

/-- Where no sign stands in front of a numeral, there is nothing to fold. -/
theorem read_fold_of_not_foldsAt {known : Text → Bool} {t : Text}
    (h : ∀ negative, ¬ FoldsAt known t negative) (fold : Bool) :
    read known fold t = read known false t := by
  cases htrim : t.trimStart with
  | nil =>
    unfold read
    rw [htrim]
  | cons c tail =>
    have hsign : (isSign c && startsNumeral tail) = false := by
      refine Bool.eq_false_iff.2 fun hsign => ?_
      obtain ⟨hc, htail⟩ := Bool.and_eq_true_iff.1 hsign
      obtain ⟨negative, rfl⟩ := exists_sign hc
      have hread := read_trimStart known false t
      rw [htrim, read_symbol (symbol?_sign negative)] at hread
      have hrest : tail = (read known false t).rest := congrArg Reading.rest hread
      exact h negative ⟨(congrArg Reading.outcome hread).symm, hrest ▸ htail⟩
    unfold read
    rw [htrim]
    simp only [Bool.and_assoc, hsign, Bool.and_false]

/-- A sign that is folded takes the numeral behind it, and the sign changes the value. -/
theorem read_fold_of_foldsAt {known : Text → Bool} {t : Text} {negative : Bool}
    (h : FoldsAt known t negative) :
    ∃ run rest, read known true t =
        readNumeral t.blanks ((signOperator negative).symbol :: run) rest ∧
      read known false t = .plain t.blanks [(signOperator negative).symbol] (run ++ rest)
        (.ok (.operator (signOperator negative))) ∧
      (∀ fold, read known fold (run ++ rest) = readNumeral [] run rest) ∧
      Decimal.value? ((signOperator negative).symbol :: run) =
        (Decimal.value? run).map (signed negative) := by
  obtain ⟨hread, ht⟩ := read_operator h.1
  obtain ⟨run, rest, hrest, hne, hrun, hr⟩ := exists_numeral h.2
  rw [hrest] at hread ht
  refine ⟨run, rest, ?_, hread, ?_, value?_signed negative hrun⟩
  · have hfolded := read_sign_numeral known negative (isBlank_blanks t) hne hrun hr
    rwa [← ht] at hfolded
  · intro fold
    exact read_numeral (List.forall_mem_nil _) hne hrun hr

namespace Scanner

/-- A token and the places where it begins and ends. -/
structure Spanned where
  token : Token
  start : Nat
  stop : Nat

/-- The flags of the calls behind the first. -/
def later (flags : Nat → Bool) : Nat → Bool := fun n => flags (n + 1)

/-- No call folds a sign. -/
def apart : Nat → Bool := fun _ => false

theorem later_apart : later apart = apart := rfl

/-- The tokens up to the end of the text, or the first error. Each call folds a sign when its flag
says so. -/
def tokensBy (known : Text → Bool) (flags : Nat → Bool) (s : Scanner) :
    Except ParseError (List Spanned) :=
  match _next : s.next known (flags 0) with
  | (.error e, _) => .error e
  | (.ok token, s') =>
    if _more : token = .stop then .ok []
    else (⟨token, s'.start, s'.stop⟩ :: ·) <$> tokensBy known (later flags) s'
termination_by s.rest.length
decreasing_by exact rest_next _next _more

/-- The numeral that a sign and the numeral directly behind it make. -/
def folded? (sign numeral : Spanned) : Option Spanned :=
  match sign.token, numeral.token with
  | .operator .add, .number x =>
    if sign.stop = numeral.start then some ⟨.number x, sign.start, numeral.stop⟩ else none
  | .operator .sub, .number x =>
    if sign.stop = numeral.start then some ⟨.number (-x), sign.start, numeral.stop⟩ else none
  | _, _ => none

/-- The tokens with signs folded by the calls whose flag says so. -/
def foldSigns (flags : Nat → Bool) : List Spanned → List Spanned
  | [] => []
  | [token] => [token]
  | token :: next :: tokens =>
    match if flags 0 then folded? token next else none with
    | some numeral => numeral :: foldSigns (later flags) tokens
    | none => token :: foldSigns (later flags) (next :: tokens)

theorem foldSigns_cons {flags : Nat → Bool} {token : Spanned} {tokens : List Spanned}
    (h : flags 0 = true → ∀ next ∈ tokens.head?, folded? token next = none) :
    foldSigns flags (token :: tokens) = token :: foldSigns (later flags) tokens := by
  cases tokens with
  | nil => rfl
  | cons next tokens =>
    rw [foldSigns]
    split
    · next numeral hfold =>
      split at hfold
      · next hflag =>
        rw [h hflag next rfl] at hfold
        cases hfold
      · cases hfold
    · rfl

theorem foldSigns_sign {flags : Nat → Bool} (h : flags 0 = true) {sign numeral : Spanned}
    {negative : Bool} {x : Float} (hsign : sign.token = .operator (signOperator negative))
    (hnumeral : numeral.token = .number x) (hmeet : sign.stop = numeral.start)
    (tokens : List Spanned) :
    foldSigns flags (sign :: numeral :: tokens) =
      ⟨.number (signed negative x), sign.start, numeral.stop⟩ ::
        foldSigns (later flags) tokens := by
  have hfolded : folded? sign numeral =
      some ⟨.number (signed negative x), sign.start, numeral.stop⟩ := by
    unfold folded?
    rw [hsign, hnumeral]
    cases negative <;> exact if_pos hmeet
  rw [foldSigns, if_pos h, hfolded]

/-- A sign with a blank behind it stays apart. -/
example : foldSigns (fun _ => true)
    [⟨.operator .sub, 0, 1⟩, ⟨.number 2, 1, 2⟩, ⟨.operator .sub, 3, 4⟩, ⟨.number 2, 5, 6⟩] =
      [⟨.number (-2), 0, 2⟩, ⟨.operator .sub, 3, 4⟩, ⟨.number 2, 5, 6⟩] := rfl

/-- Only a sign is folded, and only into a number that begins where the sign ends. -/
theorem folded?_eq_some {token next numeral : Spanned} (h : folded? token next = some numeral) :
    (∃ negative, token.token = .operator (signOperator negative)) ∧
      (∃ x, next.token = .number x) ∧ token.stop = next.start := by
  unfold folded? at h
  split at h
  · next x htoken hnext =>
    rw [Option.ite_none_right_eq_some] at h
    exact ⟨⟨false, htoken⟩, ⟨x, hnext⟩, h.1⟩
  · next x htoken hnext =>
    rw [Option.ite_none_right_eq_some] at h
    exact ⟨⟨true, htoken⟩, ⟨x, hnext⟩, h.1⟩
  · cases h

section Runs

variable {known : Text → Bool} {flags : Nat → Bool} {s : Scanner} {r : Reading}
  (h : s.finished = false) (hr : read known (flags 0) s.rest = r)

include h hr

theorem tokensBy_of_fault {f : Fault} (ho : r.outcome = .error f) :
    (s.tokensBy known flags).toOption = none := by
  obtain ⟨finished, hnext, -⟩ := next_spec h known (flags 0)
  rw [hr, ho] at hnext
  rw [tokensBy]
  split
  · rfl
  · next h' => cases hnext.symm.trans h'

theorem tokensBy_of_stop (ho : r.outcome = .ok .stop) : s.tokensBy known flags = .ok [] := by
  obtain ⟨finished, hnext, -⟩ := next_spec h known (flags 0)
  rw [hr, ho] at hnext
  rw [tokensBy]
  split
  · next h' => cases hnext.symm.trans h'
  · next h' =>
    cases hnext.symm.trans h'
    rfl

theorem tokensBy_of_token {token : Token} (ho : r.outcome = .ok token) (hne : token ≠ .stop) :
    s.tokensBy known flags =
      (⟨token, r.start s.position, r.stop s.position⟩ :: ·) <$>
        (s.past r).tokensBy known (later flags) := by
  subst hr
  have hnext := next_of_token h ho hne
  rw [tokensBy]
  split
  · next h' => cases hnext.symm.trans h'
  · next h' =>
    cases hnext.symm.trans h'
    rw [dif_neg hne]
    rfl

end Runs

/-- With signs apart, a number at the cursor is a numeral there. -/
theorem startsNumeral_of_tokensBy {known : Text → Bool} {s : Scanner} (h : s.finished = false)
    {tokens : List Spanned} (ht : (s.tokensBy known apart).toOption = some tokens)
    {next : Spanned} (hnext : next ∈ tokens.head?) {x : Float} (hx : next.token = .number x)
    (hstart : next.start = s.position) : startsNumeral s.rest = true := by
  cases ho : (read known false s.rest).outcome with
  | error f =>
    rw [tokensBy_of_fault h rfl ho] at ht
    cases ht
  | ok token =>
    by_cases hstop : token = .stop
    · subst hstop
      rw [tokensBy_of_stop h rfl ho] at ht
      cases ht
      cases hnext
    · rw [tokensBy_of_token h rfl ho hstop, toOption_map, Option.map_eq_some_iff] at ht
      obtain ⟨rest, -, rfl⟩ := ht
      cases hnext
      have hnumber : token = .number x := hx
      subst hnumber
      have hsize : s.position + (read known false s.rest).blanks.size = s.position := hstart
      have hlength := length_le_size (read known false s.rest).blanks
      refine startsNumeral_of_read ho ?_
      have hblanks : (read known false s.rest).blanks = s.rest.blanks := read_blanks ..
      rw [← hblanks]
      exact List.length_eq_zero_iff.1 (by omega)

/-- The tokens depend on what is left and where it begins. -/
theorem toOption_tokensBy_congr {known : Text → Bool} {flags : Nat → Bool} {s s' : Scanner}
    (h : s.finished = false) (h' : s'.finished = false) (hrest : s'.rest = s.rest)
    (hposition : s'.position = s.position) :
    (s'.tokensBy known flags).toOption = (s.tokensBy known flags).toOption := by
  have hread : read known (flags 0) s'.rest = read known (flags 0) s.rest := by rw [hrest]
  have hpast : s'.past = s.past := by
    funext r
    rw [past, past, hposition]
  cases ho : (read known (flags 0) s.rest).outcome with
  | error f => rw [tokensBy_of_fault h rfl ho, tokensBy_of_fault h' hread ho]
  | ok token =>
    by_cases hstop : token = .stop
    · subst hstop
      rw [tokensBy_of_stop h rfl ho, tokensBy_of_stop h' hread ho]
    · rw [tokensBy_of_token h rfl ho hstop, tokensBy_of_token h' hread ho hstop, hposition, hpast]

/-- Where a sign is folded, one call takes what two calls take otherwise, and behind it the text is
read from the same place on. -/
theorem toOption_tokensBy_of_foldsAt {known : Text → Bool} {flags : Nat → Bool} {s : Scanner}
    {negative : Bool} (h : s.finished = false) (hflag : flags 0 = true)
    (hat : FoldsAt known s.rest negative)
    (ih : ∀ s' : Scanner, s'.finished = false → s'.rest.length < s.rest.length →
      (s'.tokensBy known (later flags)).toOption =
        (s'.tokensBy known apart).toOption.map (foldSigns (later flags))) :
    (s.tokensBy known flags).toOption =
      (s.tokensBy known apart).toOption.map (foldSigns flags) := by
  obtain ⟨run, rest, hfolded, hapart, hnumeral, hvalue⟩ := read_fold_of_foldsAt hat
  have hapart : read known (apart 0) s.rest = _ := hapart
  rw [← hflag] at hfolded
  rw [tokensBy_of_token h hapart rfl (by simp), toOption_map, later_apart]
  generalize hs' : s.past _ = s'
  have hopen : s'.finished = false := by rw [← hs', past]
  have hread : read known (apart 0) s'.rest = readNumeral [] run rest := by
    rw [← hs']
    exact hnumeral _
  have hposition : s'.position =
      s.position + s.rest.blanks.size + (signOperator negative).symbol.utf8Size := by
    rw [← hs']
    rfl
  cases hx : Decimal.value? run with
  | none =>
    rw [hx] at hvalue
    rw [readNumeral_of_none hx] at hread
    rw [readNumeral_of_none hvalue] at hfolded
    rw [tokensBy_of_fault h hfolded rfl, tokensBy_of_fault hopen hread rfl]
    rfl
  | some x =>
    rw [hx, Option.map_some] at hvalue
    rw [readNumeral_of_some hx] at hread
    rw [readNumeral_of_some hvalue] at hfolded
    have hlt : rest.length < s.rest.length := by
      have hshorter : _ → (read known (flags 0) s.rest).rest.length < s.rest.length := read_shorter
      rw [hfolded] at hshorter
      exact hshorter (by simp [Reading.plain])
    generalize hboth : Reading.plain s.rest.blanks ((signOperator negative).symbol :: run) rest
      (.ok (.number (signed negative x))) = both at hfolded
    generalize hsecond : Reading.plain [] run rest (.ok (.number x)) = second at hread
    have hstop : both.stop s.position = second.stop s'.position := by
      rw [← hboth, ← hsecond, hposition]
      simp only [Reading.plain, Reading.stop, Reading.start, size_cons, size_nil]
      omega
    have hnext : (s'.past second).position = (s.past both).position := by
      change second.next s'.position = both.next s.position
      rw [Reading.next, Reading.next, hstop, ← hboth, ← hsecond]
      rfl
    have hrest : (s'.past second).rest = (s.past both).rest := by
      rw [← hboth, ← hsecond]
      rfl
    have hjoint : both.outcome = .ok (.number (signed negative x)) := hboth ▸ rfl
    have hnumber : second.outcome = .ok (.number x) := hsecond ▸ rfl
    rw [tokensBy_of_token h hfolded hjoint (by simp),
      tokensBy_of_token hopen hread hnumber (by simp), later_apart, toOption_map, toOption_map,
      ih _ rfl (hboth ▸ hlt),
      toOption_tokensBy_congr rfl rfl hrest hnext, Option.map_map, Option.map_map,
      Option.map_map, ← hs', hstop]
    refine Option.map_congr fun tokens _ => ?_
    refine ((foldSigns_sign hflag rfl rfl ?_ tokens).trans ?_).symm
    · rw [← hsecond]
      rfl
    · rw [← hs', ← hboth]
      rfl

/-- The tokens of any choice of signs to fold are those with signs apart, folded. -/
theorem toOption_tokensBy (known : Text → Bool) (flags : Nat → Bool) (s : Scanner)
    (h : s.finished = false) :
    (s.tokensBy known flags).toOption =
      (s.tokensBy known apart).toOption.map (foldSigns flags) := by
  by_cases hfold : flags 0 = true ∧ ∃ negative, FoldsAt known s.rest negative
  · obtain ⟨hflag, negative, hat⟩ := hfold
    refine toOption_tokensBy_of_foldsAt h hflag hat fun s' h' hlt => ?_
    exact toOption_tokensBy known (later flags) s' h'
  · have hapart : read known (apart 0) s.rest = read known false s.rest := rfl
    have hread : read known (flags 0) s.rest = read known false s.rest := by
      cases hflag : flags 0 with
      | false => rfl
      | true => exact read_fold_of_not_foldsAt (fun negative hat => hfold ⟨hflag, negative, hat⟩) _
    cases ho : (read known false s.rest).outcome with
    | error f =>
      rw [tokensBy_of_fault h hread ho, tokensBy_of_fault h hapart ho]
      rfl
    | ok token =>
      by_cases hstop : token = .stop
      · subst hstop
        rw [tokensBy_of_stop h hread ho, tokensBy_of_stop h hapart ho]
        rfl
      · have hlt : (s.past (read known false s.rest)).rest.length < s.rest.length :=
          read_shorter fun he => hstop (Except.ok.inj (ho.symm.trans he))
        have ih := toOption_tokensBy known (later flags) (s.past (read known false s.rest)) rfl
        rw [tokensBy_of_token h hread ho hstop, toOption_map, ih,
          tokensBy_of_token h hapart ho hstop, toOption_map, Option.map_map,
          Option.map_map]
        refine Option.map_congr fun tokens htokens => ?_
        refine (foldSigns_cons fun hflag next hnext => ?_).symm
        refine Option.eq_none_iff_forall_ne_some.2 fun numeral hnumeral => ?_
        obtain ⟨⟨negative, htoken⟩, ⟨x, hx⟩, hstart⟩ := folded?_eq_some hnumeral
        have htoken : token = .operator (signOperator negative) := htoken
        subst htoken
        have hend : next.start = (s.past (read known false s.rest)).position := by
          rw [← hstart, (read_operator ho).1]
          rfl
        exact hfold ⟨hflag, negative, ho, startsNumeral_of_tokensBy rfl htokens hnext hx hend⟩
termination_by s.rest.length

/-- A text can be read to its end with signs apart exactly when it can with any choice of signs to
fold, and then the tokens are the same except for the folded pairs. -/
theorem sign_modes_agree (known : Text → Bool) (flags : Nat → Bool) (t : Text) :
    ((∃ tokens, (startingAt t 0).tokensBy known apart = .ok tokens) ↔
      ∃ tokens, (startingAt t 0).tokensBy known flags = .ok tokens) ∧
    ∀ tokens, (startingAt t 0).tokensBy known apart = .ok tokens →
      (startingAt t 0).tokensBy known flags = .ok (foldSigns flags tokens) := by
  have hfold := toOption_tokensBy known flags (startingAt t 0) rfl
  have hone : ∀ tokens, (startingAt t 0).tokensBy known apart = .ok tokens →
      (startingAt t 0).tokensBy known flags = .ok (foldSigns flags tokens) := by
    intro tokens h
    rw [toOption_eq_some.2 h] at hfold
    exact toOption_eq_some.1 hfold
  refine ⟨⟨fun ⟨tokens, h⟩ => ⟨_, hone tokens h⟩, fun ⟨tokens, h⟩ => ?_⟩, hone⟩
  rw [toOption_eq_some.2 h] at hfold
  obtain ⟨apartTokens, ha, -⟩ := Option.map_eq_some_iff.1 hfold.symm
  exact ⟨apartTokens, toOption_eq_some.1 ha⟩

end Scanner

end MatrixCalc
