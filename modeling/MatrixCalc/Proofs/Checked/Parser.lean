import MatrixCalc.Proofs.Checked.Attempt
import MatrixCalc.Proofs.Checked.Loop
import MatrixCalc.Proofs.Checked.Reading
import MatrixCalc.Proofs.Expr.Balance
import MatrixCalc.Proofs.Expr.Spelling

/-!
# Parsing with refusals

The parser takes each token off the text when it needs it. Levels that close are counted off the
depth, which may not go below zero, and the text behind a complete expression is sliced out of the
line. The depth counts the open levels, so it never runs out (`feed_eq`), and every text is parsed
(`parse_eq`).
-/
namespace MatrixCalc.Checked

open MatrixCalc.Parser (join wanted enter Settled openLevels_join)

def complete (depth : Nat) (stack : List Frame) (tree : Expr) : Option Parser :=
  match stack with
  | .sign negative :: below => do
    complete (← minus? depth 1) below (if negative then tree.negate else tree)
  | _ =>
    let (below, links, tree) := join .power stack tree
    some ⟨depth, below, .chain links tree⟩

/-- A construct ends, and with it one level: `tree` is an operand of what is below. -/
def leave (depth : Nat) (below : List Frame) (tree : Expr) : Option Parser := do
  complete (← minus? depth 1) below tree

def operand (s : Parser) (p : Placed) : Attempt ParseError Parser :=
  match p.token, s.stack with
  | .number x, _ => liftM (complete s.depth s.stack (.number x))
  | .rightParen, .call f [] :: below =>
    if f.arity.accepts 0 then leave s.depth below (.call f [])
    else throw ⟨p.offset, .unexpected p.token⟩
  | _, _ => liftM (s.operand p)

def settle (p : Placed) (depth : Nat) (stack : List Frame) (level : Level) (links : Nat)
    (tree : Expr) (looser : List Level) : Attempt ParseError Settled :=
  match level.link? p.token, looser with
  | some op, _ => do
    return .linked ⟨← enter p depth, .chain level (links + 1) tree op :: stack, .operand⟩
  | none, [] => do
    return .closed (← minus? depth links) stack tree
  | none, next :: looser => do
    let (below, links', tree) := join next stack tree
    settle p (← minus? depth links) below next links' tree looser

/-- A token behind a complete expression. Outside of all constructs the text from there on is
reported, which is sliced out of the source. -/
def close (source : Text) (p : Placed) (depth : Nat) (stack : List Frame) (tree : Expr) :
    Attempt ParseError Parser :=
  match stack with
  | [] => do
    throw ⟨p.offset, .trailing (← startingAt? p.offset source)⟩
  | .group :: below =>
    if p.token = .rightParen then leave depth below tree
    else throw ⟨p.offset, .expected (wanted stack) p.token⟩
  | .call f args :: below =>
    let args := args ++ [tree]
    if p.token = .comma ∧ args.length < f.arity.most then
      pure ⟨depth, .call f args :: below, .operand⟩
    else if p.token = .rightParen ∧ f.arity.accepts args.length then
      leave depth below (.call f args)
    else throw ⟨p.offset, .expected (wanted stack) p.token⟩
  | _ => throw ⟨p.offset, .expected (wanted stack) p.token⟩

def feed (source : Text) (s : Parser) (p : Placed) : Attempt ParseError Parser :=
  match s.phase with
  | .operand => operand s p
  | .parenthesis => liftM (s.feed p)
  | .chain links tree =>
    if p.token = .bang then do
      return { s with depth := ← enter p s.depth, phase := .chain (links + 1) tree.factorial }
    else do
      match ← settle p s.depth s.stack .power links tree [.product, .sum] with
      | .linked s => return s
      | .closed depth stack tree => close source p depth stack tree

/-- The end of the text. It continues no chain, so all of them are counted off the depth. -/
def finish (s : Parser) (p : Placed) : Attempt ParseError Expr :=
  match s.phase with
  | .chain links tree => do
    match ← settle p s.depth s.stack .power links tree [.product, .sum] with
    | .closed _ [] tree => return tree
    | .closed _ stack _ => throw ⟨p.offset, .expected (wanted stack) p.token⟩
    | .linked _ => s.finish p
  | _ => liftM (s.finish p)

/-- A parser, where it reads on in the text, and whether a sign may belong to the next token. -/
structure Parsing where
  parser : Parser
  position : Nat
  fold : Bool

def parseToken (known : Text → Bool) (source : Text) (s : Parsing) :
    Part (Turn Parsing (Except ParseError Expr)) := do
  let t ← read known s.fold source s.position
  match t.outcome with
  | .error fault => return .halt (.error ⟨t.start, fault⟩)
  | .ok .stop => return .halt (← (finish s.parser ⟨.stop, t.start, []⟩).run)
  | .ok token =>
    match ← (feed source s.parser ⟨token, t.start, []⟩).run with
    | .error e => return .halt (.error e)
    | .ok parser => return .next ⟨parser, t.next, !token.keepsSign⟩

def parse (known : Text → Bool) (source : Text) : Part (Except ParseError Expr) :=
  run (parseToken known source) ⟨.start, 0, true⟩

theorem complete_eq {depth : Nat} {stack : List Frame} (h : depth = openLevels stack)
    (tree : Expr) : complete depth stack tree = some (Parser.complete depth stack tree) := by
  induction stack generalizing depth tree with
  | nil => rfl
  | cons frame below ih =>
    cases frame with
    | sign negative =>
      have hdepth : depth = 1 + openLevels below := h
      rw [complete, minus?_of_le (by omega)]
      exact ih (by omega) _
    | _ => rfl

theorem leave_eq {depth : Nat} {frame : Frame} {below : List Frame} (hframe : frame.levels = 1)
    (h : depth = openLevels (frame :: below)) (tree : Expr) :
    leave depth below tree = some (Parser.complete (depth - 1) below tree) := by
  rw [openLevels_cons, hframe] at h
  rw [leave, minus?_of_le (by omega)]
  exact complete_eq (by omega) tree

theorem operand_eq {s : Parser} (h : s.depth = openLevels s.stack) (p : Placed) :
    operand s p = .of (s.operand p) := by
  unfold operand
  split
  · next x htoken =>
    rw [complete_eq h, Parser.operand, htoken]
    rfl
  · next f below htoken hstack =>
    rw [hstack] at h
    rw [leave_eq rfl h, Parser.operand, htoken]
    dsimp only
    rw [hstack]
    dsimp only
    by_cases hf : f.arity.accepts 0 = true
    · rw [if_pos hf, if_pos hf]
      rfl
    · rw [if_neg hf, if_neg hf]
      rfl
  · rfl

theorem settle_eq {text : Text} {offset depth links : Nat} {stack : List Frame} (token : Token)
    (level : Level) (tree : Expr) (looser : List Level) (h : depth = openLevels stack + links) :
    settle ⟨token, offset, []⟩ depth stack level links tree looser =
      .of (Parser.settle ⟨token, offset, text⟩ depth stack level links tree looser) := by
  induction looser generalizing depth stack level links tree with
  | nil =>
    unfold settle Parser.settle
    cases level.link? token with
    | some op => exact Attempt.bind_eq fun _ _ => rfl
    | none =>
      rw [minus?_of_le (by omega)]
      rfl
  | cons next looser ih =>
    have hlevels := openLevels_join next stack tree
    unfold settle Parser.settle
    cases level.link? token with
    | some op => exact Attempt.bind_eq fun _ _ => rfl
    | none =>
      have hbelow : depth - links =
          openLevels (join next stack tree).1 + (join next stack tree).2.1 := by omega
      rw [minus?_of_le (by omega)]
      exact ih next _ hbelow

theorem close_eq {source text : Text} {offset depth : Nat} {stack : List Frame} (token : Token)
    (htext : startingAt? offset source = some text) (h : depth = openLevels stack) (tree : Expr) :
    close source ⟨token, offset, []⟩ depth stack tree =
      .of (Parser.close ⟨token, offset, text⟩ depth stack tree) := by
  unfold close Parser.close
  cases stack with
  | nil =>
    rw [htext]
    rfl
  | cons frame below =>
    cases frame with
    | group =>
      dsimp only
      rw [leave_eq rfl h]
      split <;> rfl
    | call f args =>
      dsimp only
      rw [leave_eq rfl h]
      split
      · rfl
      · split <;> rfl
    | _ => rfl

/-- No access is refused to a token, as the depth counts the open levels. -/
theorem feed_eq {source text : Text} {offset : Nat} {s : Parser} (token : Token)
    (htext : startingAt? offset source = some text) (h : s.Balanced) :
    feed source s ⟨token, offset, []⟩ = .of (s.feed ⟨token, offset, text⟩) := by
  rw [Parser.Balanced] at h
  unfold feed
  cases hphase : s.phase with
  | operand =>
    rw [hphase] at h
    dsimp only
    rw [operand_eq h, Parser.feed, hphase]
    rfl
  | parenthesis =>
    dsimp only
    rw [Parser.feed, Parser.feed, hphase]
    rfl
  | chain links tree =>
    rw [hphase, Phase.levels] at h
    dsimp only
    by_cases hbang : token = .bang
    · rw [if_pos hbang, Parser.feed, hphase]
      dsimp only
      rw [if_pos hbang]
      exact Attempt.bind_eq fun _ _ => rfl
    · rw [if_neg hbang, Parser.feed, hphase]
      dsimp only
      rw [if_neg hbang, settle_eq token _ _ _ h]
      refine Attempt.bind_eq fun settled hsettled => ?_
      cases settled with
      | linked s => rfl
      | closed depth stack tree =>
        have hbalanced := (Parser.settle_balanced _ _ _ _ h).of_ok hsettled
        exact close_eq token htext hbalanced tree

/-- The end of the text closes the chains that the parser closes when it finishes. -/
theorem settle_stop (offset depth links : Nat) (stack : List Frame) (tree : Expr) :
    Parser.settle ⟨.stop, offset, []⟩ depth stack .power links tree [.product, .sum] =
      let product := join .product stack tree
      let sum := join .sum product.1 product.2.2
      .ok (.closed (depth - links - product.2.1 - sum.2.1) sum.1 sum.2.2) := rfl

theorem finish_eq {s : Parser} (h : s.Balanced) (offset : Nat) :
    finish s ⟨.stop, offset, []⟩ = .of (s.finish ⟨.stop, offset, []⟩) := by
  rw [Parser.Balanced] at h
  unfold finish Parser.finish
  cases hphase : s.phase with
  | chain links tree =>
    rw [hphase, Phase.levels] at h
    dsimp only
    rw [settle_eq .stop _ _ _ h, settle_stop, Attempt.ok_bind]
    rcases join .sum (join .product s.stack tree).1 (join .product s.stack tree).2.2 with
      ⟨_ | ⟨frame, below⟩, links, tree⟩
    · rfl
    · rfl
  | _ => rfl

/-- What is left of a text from the beginning of its first token on. -/
theorem startingAt?_start (known : Text → Bool) (fold : Bool) (before t : Text) :
    startingAt? ((MatrixCalc.read known fold t).start before.size) (before ++ t) =
      some t.trimStart := by
  have h := startingAt?_append (before ++ t.blanks) t.trimStart
  rwa [Text.size_append, List.append_assoc, Text.blanks_append_trimStart,
    ← read_blanks known fold] at h

/-- What the parser makes of the rest of a stream. -/
def resume (p : Parser) (s : Stream) : Except ParseError Expr := do
  let p ← s.tokens.foldlM Parser.feed p
  p.finish (← s.ending)

theorem resume_cons (p : Parser) (t : Placed) (s : Stream) :
    resume p (.cons t s) = p.feed t >>= fun p => resume p s := by
  unfold resume Stream.cons
  dsimp only
  rw [List.foldlM_cons, bind_assoc]

section

variable {known : Text → Bool} {fold : Bool} {p : Parser} {t : Text} {r : Reading}

theorem parseToken_of_token (before : Text) {token : Token} (h : p.Balanced)
    (hr : MatrixCalc.read known fold t = r) (htoken : r.outcome = .ok token)
    (hstop : token ≠ .stop) :
    parseToken known (before ++ t) ⟨p, before.size, fold⟩ =
      .some (match p.feed ⟨token, r.start before.size, t.trimStart⟩ with
        | .error e => .halt (.error e)
        | .ok p => .next ⟨p, r.next before.size, !token.keepsSign⟩) := by
  have hstart := startingAt?_start known fold before t
  rw [hr] at hstart
  rw [parseToken, read_eq, hr, liftM_some, some_bind, Located.ofReading, htoken]
  cases token with
  | stop => exact absurd rfl hstop
  | _ =>
    dsimp only
    rw [feed_eq _ hstart h, Attempt.run_of, liftM_some, some_bind]
    split <;> rfl

theorem read_append_rest (hr : MatrixCalc.read known fold t = r) :
    t = r.blanks ++ (r.lexeme ++ r.behind) ++ r.rest := by
  have htext := read_text known fold t
  rw [hr, Reading.text] at htext
  simp only [List.append_assoc, htext]

end

theorem run_parseToken (known : Text → Bool) (fold : Bool) {p : Parser} (h : p.Balanced)
    (before t : Text) :
    run (parseToken known (before ++ t)) ⟨p, before.size, fold⟩ =
      .some (resume p (Stream.ofTextFrom known before.size fold t)) := by
  obtain ⟨r, hr⟩ : ∃ r, MatrixCalc.read known fold t = r := ⟨_, rfl⟩
  cases hread : r.outcome with
  | error fault =>
    rw [ofTextFrom_of_fault (hr ▸ hread)]
    apply run_of_halt
    rw [parseToken, read_eq, hr, liftM_some, some_bind, Located.ofReading, hread]
    rfl
  | ok token =>
    by_cases hstop : token = .stop
    · subst hstop
      rw [ofTextFrom_of_stop (hr ▸ hread)]
      apply run_of_halt
      rw [parseToken, read_eq, hr, liftM_some, some_bind, Located.ofReading, hread]
      dsimp only
      rw [finish_eq h, Attempt.run_of, liftM_some, some_bind]
      rfl
    · have hturn := parseToken_of_token before h hr hread hstop
      have hbalanced := Parser.feed_balanced h ⟨token, r.start before.size, t.trimStart⟩
      rw [ofTextFrom_of_token (hr ▸ hread) hstop, resume_cons, hr]
      cases hp : p.feed ⟨token, r.start before.size, t.trimStart⟩ with
      | error e =>
        rw [hp] at hturn
        exact run_of_halt hturn
      | ok q =>
        rw [hp] at hturn hbalanced
        have ht := read_append_rest hr
        have hnext : r.next before.size =
            Text.size (before ++ (r.blanks ++ (r.lexeme ++ r.behind))) := by
          simp only [Reading.next, Reading.stop, Reading.start, Text.size_append, Nat.add_assoc]
        have ih := run_parseToken known (!token.keepsSign) hbalanced
          (before ++ (r.blanks ++ (r.lexeme ++ r.behind))) r.rest
        rw [List.append_assoc, ← ht, ← hnext] at ih
        rw [run_of_next hturn]
        exact ih
termination_by t.length
decreasing_by
  rw [← hr]
  refine read_shorter fun he => hstop ?_
  rw [hr, hread] at he
  exact Except.ok.inj he

/-- No text is refused by the parser. -/
theorem parse_eq (known : Text → Bool) (source : Text) :
    parse known source = .some (Expr.parse known source) :=
  run_parseToken known true Parser.balanced_start [] source

end MatrixCalc.Checked
