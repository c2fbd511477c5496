import MatrixCalc.Proofs.Expr.DescentOutcome

/-!
# The turns of a descent

Each turn keeps the call stack linked and the counter at the number of open levels (`State.Sound`),
leaves less to do (`State.left`), and does not change what the parser makes of the state. There is
one lemma for each routine; no level is closed that is not open, so no turn is refused.
-/
namespace MatrixCalc.Descent

open Checked (Attempt minus?_of_le resume)
open Checked.Attempt (Yields)

/-- A call is entered at its keyword, and no argument begins with a closing parenthesis that may
end the call. -/
def Control.Fits (token : Token) (stack : List Frame) : Control → Prop
  | enter (.call f) => token = .function f
  | enter (.chain _) | enter .operand =>
    token = .rightParen → ∀ f below, stack = .call f [] :: below → f.arity.accepts 0 = false
  | back (.arguments _) _ => False
  | _ => True

structure State.Sound (s : State) : Prop where
  linked : Linked s.control.routine s.calls
  balanced : s.cursor.depth = s.openLevels
  bounded : s.cursor.depth ≤ maxDepth
  reading : s.cursor.Reading
  fits : s.control.Fits s.cursor.current.token (frames s.calls)

/-- How many turns without a token may follow, apart from the activations that wait. -/
def Control.weight : Control → Nat
  | enter (.arguments _) => 50
  | arguments _ [] => 49
  | enter (.chain .sum) => 40
  | enter (.chain .product) => 36
  | enter (.chain .power) => 32
  | enter .operand => 28
  | enter (.call _) => 24
  | chain _ _ _ | arguments _ (_ :: _) => 3
  | listed _ _ => 2
  | back _ _ => 1

/-- A bound on what is left to do: a token makes up for all turns that it may cause. -/
def State.left (s : State) : Nat :=
  100 * s.cursor.left + s.control.weight + 3 * s.calls.length

/-- The turn keeps what is known of a state, and the parser does not see it. -/
structure Continues (known : Text → Bool) (s s' : State) : Prop where
  sound : s'.Sound
  outcome : s'.outcome known = s.outcome known
  left : s'.left < s.left

theorem Control.weight_le (control : Control) : control.weight ≤ 50 := by
  unfold Control.weight
  split <;> decide

section Turns

variable {known : Text → Bool} {s : State}

theorem Continues.of_left {c : Cursor} {calls : List Activation} {control : Control}
    (hlinked : Linked control.routine calls)
    (hbalanced : c.depth = heldLevels calls + control.levels) (hbounded : c.depth ≤ maxDepth)
    (hreading : c.Reading) (hfits : control.Fits c.current.token (frames calls))
    (hleft : c.left < s.cursor.left) (hlength : calls.length ≤ s.calls.length + 1)
    (houtcome : State.outcome known ⟨c, calls, control⟩ = s.outcome known) :
    Continues known s ⟨c, calls, control⟩ where
  sound := ⟨hlinked, hbalanced, hbounded, hreading, hfits⟩
  outcome := houtcome
  left := by
    have hweight := control.weight_le
    simp only [State.left]
    omega

variable {c : Cursor} {calls calls' : List Activation} {control control' : Control}
  {activation : Activation}

/-- A turn without a token, which closes some levels. -/
theorem Continues.silently (closes : Nat) (hs : State.Sound ⟨c, calls, control⟩)
    (hlinked : Linked control'.routine calls')
    (hlevels : heldLevels calls' + control'.levels + closes = heldLevels calls + control.levels)
    (hfits : control'.Fits c.current.token (frames calls'))
    (hleft : control'.weight + 3 * calls'.length < control.weight + 3 * calls.length)
    (houtcome : State.outcome known ⟨{ c with depth := c.depth - closes }, calls', control'⟩ =
      State.outcome known ⟨c, calls, control⟩) :
    Continues known ⟨c, calls, control⟩
      ⟨{ c with depth := c.depth - closes }, calls', control'⟩ := by
  have hdepth : c.depth = heldLevels calls + control.levels := hs.balanced
  refine ⟨⟨hlinked, ?_, Nat.le_trans (Nat.sub_le _ _) hs.bounded, hs.reading, hfits⟩, houtcome, ?_⟩
  · change c.depth - closes = heldLevels calls' + control'.levels
    omega
  · change 100 * c.left + control'.weight + 3 * calls'.length <
      100 * c.left + control.weight + 3 * calls.length
    omega

/-- The running routine calls another one. -/
theorem Continues.calling {r : Routine} (hs : State.Sound ⟨c, calls, control⟩)
    (hroutine : activation.routine = control.routine) (hawaits : activation.awaits = r)
    (hlevels : activation.levels = control.levels)
    (hfits : Control.Fits c.current.token (frames (activation :: calls)) (.enter r))
    (hweight : (Control.enter r).weight + 3 < control.weight)
    (houtcome : State.outcome known ⟨c, activation :: calls, .enter r⟩ =
      State.outcome known ⟨c, calls, control⟩) :
    Continues known ⟨c, calls, control⟩ ⟨c, activation :: calls, .enter r⟩ := by
  refine .silently 0 hs ⟨hawaits, hroutine ▸ hs.linked⟩ ?_ hfits ?_ houtcome
  · change activation.levels + heldLevels calls + 0 + 0 = _
    omega
  · rw [List.length_cons]
    omega

/-- The running routine goes on. -/
theorem Continues.staying (closes : Nat) (hs : State.Sound ⟨c, calls, control⟩)
    (hroutine : control'.routine = control.routine)
    (hlevels : control'.levels + closes = control.levels)
    (hfits : control'.Fits c.current.token (frames calls))
    (hweight : control'.weight < control.weight)
    (houtcome : State.outcome known ⟨{ c with depth := c.depth - closes }, calls, control'⟩ =
      State.outcome known ⟨c, calls, control⟩) :
    Continues known ⟨c, calls, control⟩
      ⟨{ c with depth := c.depth - closes }, calls, control'⟩ :=
  .silently closes hs (hroutine ▸ hs.linked) (by omega) hfits (by omega) houtcome

/-- The running routine has returned, and the one that has waited for it goes on. -/
theorem Continues.returning (closes : Nat) {r : Routine} {tree : Expr}
    (hs : State.Sound ⟨c, activation :: calls, .back r tree⟩)
    (hroutine : control'.routine = activation.routine)
    (hlevels : control'.levels + closes = activation.levels)
    (hfits : control'.Fits c.current.token (frames calls)) (hweight : control'.weight ≤ 3)
    (houtcome : State.outcome known ⟨{ c with depth := c.depth - closes }, calls, control'⟩ =
      State.outcome known ⟨c, activation :: calls, .back r tree⟩) :
    Continues known ⟨c, activation :: calls, .back r tree⟩
      ⟨{ c with depth := c.depth - closes }, calls, control'⟩ := by
  refine .silently closes hs (hroutine ▸ hs.linked.2) ?_ hfits ?_ houtcome
  · change _ = activation.levels + heldLevels calls + 0
    omega
  · change _ < 1 + 3 * (calls.length + 1)
    omega

end Turns

section Tokens

variable {known : Text → Bool} {c : Cursor} {o : Except ParseError Expr} {P : State → Prop}
  {k : Cursor → Attempt ParseError State} {keep : Bool}

theorem advance_then {q : Parser} (hopen : c.scanner.finished = false)
    (hkeep : keep = c.current.token.keepsSign) (ho : o = resume q (c.rest known))
    (hk : ∀ c', c.Passed known c.depth c' → o = resume q (c'.stream known) →
      Yields P (fun e => o = .error e) (k c')) :
    Yields P (fun e => o = .error e) (do k (← c.advance known keep)) := by
  subst hkeep
  refine Yields.bind (.lift ((Cursor.advance_passed hopen).mono (fun _ => id) ?_))
    fun c' hc => hk c' hc (by rw [ho, hc.stream])
  intro e he
  rw [ho, show c.rest known = ⟨[], .error e⟩ from he]
  rfl

theorem descend_then {q : Nat → Parser} (hopen : c.scanner.finished = false)
    (hkeep : keep = c.current.token.keepsSign)
    (ho : o = Parser.enter c.current c.depth >>= fun depth => resume (q depth) (c.rest known))
    (hk : ∀ c', c.depth < maxDepth → c.Passed known (c.depth + 1) c' →
      o = resume (q (c.depth + 1)) (c'.stream known) → Yields P (fun e => o = .error e) (k c')) :
    Yields P (fun e => o = .error e) (do k (← c.descend known keep)) := by
  subst hkeep
  refine Yields.bind (.lift ((Cursor.descend_passed hopen).mono (fun _ => id) ?_))
    fun c' ⟨hlt, hc⟩ => hk c' hlt hc ?_
  · intro e he
    rw [ho, he q]
  · rw [ho, Parser.enter, if_pos hlt, hc.stream]
    rfl

/-- Levels that are open can be closed. -/
theorem ascend_then {levels : Nat} (hopen : levels ≤ c.depth)
    (hk : Yields P (fun e => o = .error e) (k { c with depth := c.depth - levels })) :
    Yields P (fun e => o = .error e) (do k (← c.ascend levels)) := by
  rw [Cursor.ascend, minus?_of_le hopen]
  exact hk

theorem expect_then {wanted : Token} {x : Attempt ParseError State}
    (hx : c.current.token = wanted → Yields P (fun e => o = .error e) x)
    (ho : c.current.token ≠ wanted →
      o = .error ⟨c.current.offset, .expected wanted c.current.token⟩) :
    Yields P (fun e => o = .error e) (do c.expect wanted; x) := by
  by_cases hwanted : c.current.token = wanted
  · rw [Cursor.expect, if_pos hwanted]
    exact hx hwanted
  · rw [Cursor.expect, if_neg hwanted]
    exact .throw (ho hwanted)

end Tokens

section Routines

variable {known : Text → Bool} {c : Cursor} {calls : List Activation}

theorem enterChain_continues {level : Level} (hs : State.Sound ⟨c, calls, .enter (.chain level)⟩) :
    Continues known ⟨c, calls, .enter (.chain level)⟩
      ⟨c, .first level :: calls, .enter (.member level)⟩ := by
  have hfits := hs.fits
  refine .calling hs rfl rfl rfl ?_ ?_ ?_
  · cases level <;> exact hfits
  · cases level <;> exact Nat.lt_succ_self _
  · cases level <;> rfl

theorem enterArguments_continues {f : Function}
    (hs : State.Sound ⟨c, calls, .enter (.arguments f)⟩) :
    Continues known ⟨c, calls, .enter (.arguments f)⟩ ⟨c, calls, .arguments f []⟩ :=
  .staying 0 hs rfl rfl trivial (Nat.lt_succ_self _) rfl

theorem outcome_operand (hstop : c.current.token ≠ .stop) :
    State.outcome known ⟨c, calls, .enter .operand⟩ =
      Parser.operand ⟨c.depth, frames calls, .operand⟩ c.current >>= fun q =>
        resume q (c.rest known) := by
  rw [State.outcome, resume_stream, if_neg hstop]
  rfl

/-- A token that opens a construct, of which an expression or an operand is read next. -/
theorem opening_yields {activation : Activation} (frame : Frame) {r : Routine}
    (hs : State.Sound ⟨c, calls, .enter .operand⟩) (hstop : c.current.token ≠ .stop)
    (hkeep : c.current.token.keepsSign = false) (hroutine : activation.routine = .operand)
    (hawaits : activation.awaits = r) (hlevels : activation.levels = 1)
    (hfits : ∀ token, Control.Fits token (frames (activation :: calls)) (.enter r))
    (hfeed : Parser.operand ⟨c.depth, frames calls, .operand⟩ c.current = do
      return ⟨← Parser.enter c.current c.depth, frame :: frames calls, .operand⟩)
    (hthen : ∀ c', State.outcome known ⟨c', activation :: calls, .enter r⟩ =
      resume ⟨c'.depth, frame :: frames calls, .operand⟩ (c'.stream known)) :
    Yields (Continues known ⟨c, calls, .enter .operand⟩)
      (fun e => State.outcome known ⟨c, calls, .enter .operand⟩ = .error e)
      (do return ⟨← c.descend known false, activation :: calls, .enter r⟩) := by
  have hdepth : c.depth = heldLevels calls + 0 := hs.balanced
  have houtcome : State.outcome known ⟨c, calls, .enter .operand⟩ =
      Parser.enter c.current c.depth >>= fun depth =>
        resume ⟨depth, frame :: frames calls, .operand⟩ (c.rest known) := by
    rw [outcome_operand hstop, hfeed, bind_assoc]
    rfl
  refine descend_then (hs.reading hstop) hkeep.symm houtcome fun c' hlt hc' hthere => .pure ?_
  refine .of_left ⟨hawaits, hroutine ▸ hs.linked⟩ ?_ (hc'.depth ▸ hlt) hc'.reading (hfits _)
    hc'.left (Nat.le_refl _) ?_
  · simp only [hc'.depth, heldLevels_cons, hlevels, Control.levels]
    omega
  · rw [hthen, hthere, hc'.depth]

theorem operand_yields (hs : State.Sound ⟨c, calls, .enter .operand⟩) :
    Yields (Continues known ⟨c, calls, .enter .operand⟩)
      (fun e => State.outcome known ⟨c, calls, .enter .operand⟩ = .error e)
      (operand known c calls) := by
  unfold operand
  split
  · next x htoken =>
    have hstop : c.current.token ≠ .stop := by simp [htoken]
    refine advance_then (q := Parser.complete c.depth (frames calls) (.number x))
      (hs.reading hstop) (by rw [htoken]; rfl) ?_ fun c' hc' hthere => .pure ?_
    · rw [outcome_operand hstop]
      unfold Parser.operand
      rw [htoken]
      rfl
    · refine .of_left hs.linked (hc'.depth.trans hs.balanced) (hc'.depth ▸ hs.bounded) hc'.reading
        trivial hc'.left (Nat.le_succ _) ?_
      rw [hthere, ← hc'.depth]
      rfl
  · next htoken =>
    refine opening_yields .group hs (by simp [htoken]) (by rw [htoken]; rfl) rfl
      rfl rfl (fun _ _ _ _ h => by cases h) ?_ fun _ => rfl
    unfold Parser.operand
    rw [htoken]
  · next htoken =>
    refine opening_yields (.sign true) hs (by simp [htoken]) (by rw [htoken]; rfl)
      rfl rfl rfl (fun _ _ _ _ h => by cases h) ?_ fun _ => rfl
    unfold Parser.operand
    rw [htoken]
  · next htoken =>
    refine opening_yields (.sign false) hs (by simp [htoken]) (by rw [htoken]; rfl)
      rfl rfl rfl (fun _ _ _ _ h => by cases h) ?_ fun _ => rfl
    unfold Parser.operand
    rw [htoken]
  · next f htoken =>
    exact .pure (.calling hs rfl rfl rfl htoken (Nat.lt_succ_self _) rfl)
  · next hnumber hopen hminus hplus hfunction =>
    refine .throw ?_
    by_cases hstop : c.current.token = .stop
    · rw [State.outcome, resume_stream, if_pos hstop]
      rfl
    · rw [outcome_operand hstop]
      unfold Parser.operand
      split
      · next htoken => exact absurd htoken (hnumber _)
      · next htoken => exact absurd htoken hopen
      · next htoken => exact absurd htoken hminus
      · next htoken => exact absurd htoken hplus
      · next htoken => exact absurd htoken (hfunction _)
      · next htoken =>
        -- The parser takes this one where a list of arguments may be empty, and there the descent
        -- has not come here.
        split
        · next f below hstack =>
          have hempty : f.arity.accepts 0 = false := hs.fits htoken f below hstack
          rw [hempty]
          rfl
        · rfl
      · rfl

theorem resume_parenthesis (depth : Nat) (stack : List Frame) :
    resume ⟨depth, stack, .parenthesis⟩ (c.stream known) =
      if c.current.token = .leftParen then resume ⟨depth, stack, .operand⟩ (c.rest known)
      else .error ⟨c.current.offset, .expected .leftParen c.current.token⟩ := by
  rw [resume_stream]
  split
  · next hstop =>
    rw [if_neg (by simp [hstop])]
    rfl
  · rw [Parser.feed]
    dsimp only
    split <;> rfl

theorem call_yields {f : Function} (hs : State.Sound ⟨c, calls, .enter (.call f)⟩) :
    Yields (Continues known ⟨c, calls, .enter (.call f)⟩)
      (fun e => State.outcome known ⟨c, calls, .enter (.call f)⟩ = .error e)
      (call known c calls f) := by
  have hdepth : c.depth = heldLevels calls + 0 := hs.balanced
  have htoken : c.current.token = .function f := hs.fits
  have hstop : c.current.token ≠ .stop := by simp [htoken]
  have houtcome : State.outcome known ⟨c, calls, .enter (.call f)⟩ =
      Parser.enter c.current c.depth >>= fun depth =>
        resume ⟨depth, .call f [] :: frames calls, .parenthesis⟩ (c.rest known) := by
    rw [show State.outcome known ⟨c, calls, .enter (.call f)⟩ =
      State.outcome known ⟨c, calls, .enter .operand⟩ from rfl, outcome_operand hstop]
    unfold Parser.operand
    rw [htoken]
    exact bind_assoc _ _ _
  refine descend_then (hs.reading hstop) (by rw [htoken]; rfl) houtcome fun c₁ hlt h₁ hname => ?_
  rw [resume_parenthesis] at hname
  refine expect_then (fun hparen => ?_) fun hparen => hname.trans (if_neg hparen)
  rw [if_pos hparen] at hname
  refine advance_then (h₁.reading (by simp [hparen])) (by rw [hparen]; rfl) hname
    fun c₂ h₂ hthere => .pure ?_
  have hopened : c₂.depth = c.depth + 1 := h₂.depth.trans h₁.depth
  refine .of_left ⟨rfl, hs.linked⟩ ?_ (hopened ▸ hlt) h₂.reading trivial
    (Nat.lt_trans h₂.left h₁.left) (Nat.le_refl _) ?_
  · simp only [hopened, heldLevels_cons, Activation.levels, Control.levels]
    omega
  · rw [hthere, ← hopened]
    rfl

theorem link?_eq_some {level : Level} {t : Token} {op : Operator} (h : level.link? t = some op) :
    t = .operator op := by
  unfold Level.link? at h
  split at h
  · split at h
    · cases h
      rfl
    · cases h
  · cases h

theorem outcome_chain {level : Level} {links : Nat} {tree : Expr}
    (hbang : ¬ (level = .power ∧ c.current.token = .bang)) :
    State.outcome known ⟨c, calls, .chain level links tree⟩ =
      Parser.settle c.current c.depth (frames calls) level links tree (looser level) >>=
        closing known c := by
  cases level with
  | power => exact resume_chain known c c.depth (frames calls) links tree fun h => hbang ⟨rfl, h⟩
  | product | sum => rfl

theorem outcome_member (level : Level) (links : Nat) (left : Expr) (op : Operator) (c' : Cursor) :
    State.outcome known ⟨c', .link level links left op :: calls, .enter (.member level)⟩ =
      resume ⟨c'.depth, .chain level links left op :: frames calls, .operand⟩
        (c'.stream known) := by
  cases level <;> rfl

theorem chain_yields {level : Level} {links : Nat} {tree : Expr}
    (hs : State.Sound ⟨c, calls, .chain level links tree⟩) :
    Yields (Continues known ⟨c, calls, .chain level links tree⟩)
      (fun e => State.outcome known ⟨c, calls, .chain level links tree⟩ = .error e)
      (chain known c calls level links tree) := by
  have hdepth : c.depth = heldLevels calls + links := hs.balanced
  unfold chain
  split
  · next op hlink =>
    have htoken := link?_eq_some hlink
    have hsettle : State.outcome known ⟨c, calls, .chain level links tree⟩ =
        Parser.enter c.current c.depth >>= fun depth =>
          resume ⟨depth, .chain level (links + 1) tree op :: frames calls, .operand⟩
            (c.rest known) := by
      rw [outcome_chain (by simp [htoken])]
      unfold Parser.settle
      rw [hlink]
      exact bind_assoc _ _ _
    refine descend_then (hs.reading (by simp [htoken])) (by rw [htoken]; rfl) hsettle
      fun c' hlt hc' hthere => .pure ?_
    refine .of_left ⟨rfl, hs.linked⟩ ?_ (hc'.depth ▸ hlt) hc'.reading ?_ hc'.left
      (Nat.le_refl _) ?_
    · simp only [hc'.depth, heldLevels_cons, Activation.levels, Control.levels]
      omega
    · cases level <;> exact fun _ _ _ h => by cases h
    · rw [outcome_member, hthere, hc'.depth]
  · next hlink =>
    split
    · next hbang =>
      obtain ⟨rfl, htoken⟩ := hbang
      have hstop : c.current.token ≠ .stop := by simp [htoken]
      have hfeed : State.outcome known ⟨c, calls, .chain .power links tree⟩ =
          Parser.enter c.current c.depth >>= fun depth =>
            resume ⟨depth, frames calls, .chain (links + 1) tree.factorial⟩ (c.rest known) := by
        change resume _ (c.stream known) = _
        rw [resume_stream, if_neg hstop, Parser.feed]
        dsimp only
        rw [if_pos htoken]
        exact bind_assoc _ _ _
      refine descend_then (hs.reading hstop) (by rw [htoken]; rfl) hfeed
        fun c' hlt hc' hthere => .pure ?_
      refine .of_left hs.linked ?_ (hc'.depth ▸ hlt) hc'.reading trivial hc'.left
        (Nat.le_succ _) ?_
      · simp only [hc'.depth, Control.levels]
        omega
      · rw [hthere, ← hc'.depth]
        rfl
    · next hbang =>
      refine ascend_then (by omega) (.pure ?_)
      refine .staying links hs rfl (Nat.zero_add _) trivial (by decide : 1 < 3) ?_
      rw [outcome_chain hbang, settle_eq_rise hlink]
      rfl

theorem arguments_yields {f : Function} {args : List Expr}
    (hs : State.Sound ⟨c, calls, .arguments f args⟩) :
    Yields (Continues known ⟨c, calls, .arguments f args⟩)
      (fun e => State.outcome known ⟨c, calls, .arguments f args⟩ = .error e)
      (arguments known c calls f args) := by
  have hdepth : c.depth = heldLevels calls + 0 := hs.balanced
  have hopen : c.depth = heldLevels (.argument f args :: calls) + 0 := by
    rw [hdepth, heldLevels_cons, Activation.levels, Nat.zero_add]
  cases args with
  | nil =>
    rw [arguments]
    split
    · next hfirst =>
      refine .pure (.calling hs rfl rfl rfl ?_ (by decide : 43 < 49) rfl)
      intro htoken f' below hstack
      cases hstack
      exact Bool.eq_false_iff.2 fun haccepts => hfirst.2.2 ⟨haccepts, htoken⟩
    · next hlast =>
      have hempty : f.arity.accepts 0 = true ∧ c.current.token = .rightParen := by
        by_contra hnot
        exact hlast ⟨rfl, f.most_pos, hnot⟩
      rw [if_neg (fun h => h.1 rfl), List.length_nil, if_pos hempty.1]
      refine .pure (.staying 0 hs rfl rfl trivial (by decide : 2 < 49) ?_)
      change closed known c _ = resume _ (c.stream known)
      rw [closed, if_pos hempty.2, resume_stream, if_neg (by simp [hempty.2])]
      change _ = Parser.operand _ c.current >>= _
      unfold Parser.operand
      rw [hempty.2]
      dsimp only
      rw [if_pos hempty.1]
      rfl
  | cons arg args =>
    have houtcome : State.outcome known ⟨c, calls, .arguments f (arg :: args)⟩ =
        listedTo known c (frames calls) f (arg :: args) := rfl
    rw [arguments, if_neg (fun h => by cases h.1)]
    split
    · next hnext =>
      obtain ⟨-, hmore, hcomma⟩ := hnext
      rw [listedTo, if_pos ⟨hcomma, hmore⟩] at houtcome
      refine advance_then (hs.reading (by simp [hcomma])) (by rw [hcomma]; rfl) houtcome
        fun c' hc' hthere => .pure ?_
      refine .of_left ⟨rfl, hs.linked⟩ (hc'.depth.trans hopen) (hc'.depth ▸ hs.bounded)
        hc'.reading (fun _ _ _ h => by cases h) hc'.left (Nat.le_refl _) ?_
      rw [hthere, ← hc'.depth]
      rfl
    · next hlast =>
      rw [listedTo, if_neg fun h => hlast ⟨List.cons_ne_nil arg args, h.2, h.1⟩] at houtcome
      split
      · next haccepts =>
        rw [if_pos haccepts] at houtcome
        exact .pure (.staying 0 hs rfl rfl trivial (by decide : 2 < 3) houtcome.symm)
      · next haccepts =>
        exact .throw (houtcome.trans (if_neg haccepts))

theorem closing_yields {s : State} {tree : Expr} {r : Routine} (hs : s.Sound) (hc : s.cursor = c)
    (hcalls : s.calls.length = calls.length + 1)
    (houtcome : s.outcome known =
      closed known c (Parser.complete (c.depth - 1) (frames calls) tree))
    (hlinked : Linked r calls) (hdepth : c.depth = 1 + heldLevels calls)
    (hfits : ∀ token, Control.Fits token (frames calls) (.back r tree))
    (hthen : ∀ c', State.outcome known ⟨c', calls, .back r tree⟩ =
      resume (Parser.complete c'.depth (frames calls) tree) (c'.stream known)) :
    Yields (Continues known s) (fun e => s.outcome known = .error e) (do
      c.expect .rightParen
      let c ← c.advance known true
      return ⟨← c.ascend 1, calls, .back r tree⟩) := by
  subst hc
  refine expect_then (fun hparen => ?_) fun hparen => houtcome.trans (if_neg hparen)
  rw [closed, if_pos hparen] at houtcome
  refine advance_then (hs.reading (by simp [hparen])) (by rw [hparen]; rfl) houtcome
    fun c' hc' hthere => ?_
  refine ascend_then (by rw [hc'.depth]; omega) (.pure ?_)
  refine .of_left hlinked ?_ ?_ hc'.reading (hfits _) hc'.left (by omega) ?_
  · change c'.depth - 1 = heldLevels calls + 0
    rw [hc'.depth]
    omega
  · exact Nat.le_trans (Nat.sub_le _ _) (hc'.depth ▸ hs.bounded)
  · rw [hthen, hthere, hc'.depth]
    rfl

/-- A member of a chain that returns joins the chain that waits for it. -/
theorem outcome_back_member {level : Level} {above : List Activation} {tree joint : Expr}
    {links : Nat} (hwaits : Waits level (frames above))
    (hjoined : Pending.joined level c.depth (frames above) tree =
      ⟨c.depth, frames calls, links, joint⟩) :
    State.outcome known ⟨c, calls, .chain level links joint⟩ =
      State.outcome known ⟨c, above, .back (.member level) tree⟩ := by
  -- The parser joins an operand once it is complete, and a chain only where it settles it.
  cases level with
  | power =>
    change _ = resume (Parser.complete c.depth (frames above) tree) (c.stream known)
    rw [Parser.complete_of_waits hwaits, hjoined]
    rfl
  | product | sum =>
    change _ = rise c.current c.depth (frames above) tree _ >>= closing known c
    rw [looser, rise, hjoined]
    rfl

theorem back_yields {activation : Activation} {r : Routine} {tree : Expr}
    (hs : State.Sound ⟨c, activation :: calls, .back r tree⟩) :
    Yields (Continues known ⟨c, activation :: calls, .back r tree⟩)
      (fun e => State.outcome known ⟨c, activation :: calls, .back r tree⟩ = .error e)
      (back known c calls tree activation) := by
  obtain ⟨hawaits, hbelow⟩ := hs.linked
  subst hawaits
  have hdepth : c.depth = activation.levels + heldLevels calls + 0 := hs.balanced
  cases activation with
  | first level =>
    have hfresh := fresh_of_linked hbelow
    refine .pure (.returning 0 hs rfl rfl trivial (Nat.le_refl _) ?_)
    exact outcome_back_member hfresh.waits (Pending.joined_of_fresh hfresh _ _)
  | link level links left op =>
    refine .pure (.returning 0 hs rfl rfl trivial (Nat.le_refl _) ?_)
    exact outcome_back_member (waits_chain level links left op _) (Pending.joined_chain ..)
  | group =>
    refine closing_yields hs rfl rfl ?_ hbelow hdepth (fun _ => trivial) fun _ => rfl
    exact closing_group known c c.depth (frames calls) tree
  | sign negative =>
    rw [Activation.levels] at hdepth
    refine ascend_then (by omega) (.pure (.returning 1 hs rfl rfl trivial (by decide : 1 ≤ 3) ?_))
    exact congrArg (resume · (c.stream known)) (Parser.complete_sign ..).symm
  | callee f => exact .pure (.returning 0 hs rfl rfl trivial (by decide : 1 ≤ 3) rfl)
  | argument f args =>
    have houtcome := closing_call known c (frames calls) f args tree
    obtain ⟨arg, more, hmore⟩ := List.exists_cons_of_ne_nil
      (List.append_ne_nil_of_right_ne_nil args (List.cons_ne_nil tree []))
    rw [back, hmore]
    rw [hmore] at houtcome
    exact .pure (.returning 0 hs rfl rfl trivial (Nat.le_refl _) houtcome.symm)
  | call f => exact hs.fits.elim

theorem listed_yields {activation : Activation} {f : Function} {args : List Expr}
    (hs : State.Sound ⟨c, activation :: calls, .listed f args⟩) :
    Yields (Continues known ⟨c, activation :: calls, .listed f args⟩)
      (fun e => State.outcome known ⟨c, activation :: calls, .listed f args⟩ = .error e)
      (listed known c calls args activation) := by
  obtain ⟨hawaits, hbelow⟩ := hs.linked
  cases activation with
  | call f' =>
    cases hawaits
    have hdepth : c.depth = 1 + heldLevels calls + 0 := hs.balanced
    exact closing_yields hs rfl rfl rfl hbelow hdepth (fun _ => trivial) fun _ => rfl
  | first level | link level => cases level <;> cases hawaits
  | _ => cases hawaits

theorem finish_yields {r : Routine} {tree : Expr} (hs : State.Sound ⟨c, [], .back r tree⟩) :
    Yields (fun result => State.outcome known ⟨c, [], .back r tree⟩ = .ok result)
      (fun e => State.outcome known ⟨c, [], .back r tree⟩ = .error e) (finish c tree) := by
  have hroutine : r = .chain .sum := hs.linked
  subst hroutine
  have houtcome : State.outcome known ⟨c, [], .back (.chain .sum) tree⟩ =
      closing known c (.closed c.depth [] tree) := rfl
  rw [closing] at houtcome
  unfold finish
  split
  · next hstop => exact .pure (houtcome.trans (if_pos hstop))
  · next hstop => exact .throw (houtcome.trans (if_neg hstop))

end Routines

/-- No turn from a sound state is refused. The next state is sound again, and the parser comes to
the same end from there. -/
theorem turn_yields (known : Text → Bool) {s : State} (hs : s.Sound) :
    Yields (fun | .next s' => Continues known s s' | .halt tree => s.outcome known = .ok tree)
      (fun e => s.outcome known = .error e) (turn known s) := by
  obtain ⟨c, calls, control⟩ := s
  rw [turn]
  cases control with
  | enter r =>
    cases r with
    | chain level => exact .pure (enterChain_continues hs)
    | operand => exact (operand_yields hs).map fun _ => id
    | call f => exact (call_yields hs).map fun _ => id
    | arguments f => exact .pure (enterArguments_continues hs)
  | chain level links tree => exact (chain_yields hs).map fun _ => id
  | arguments f args => exact (arguments_yields hs).map fun _ => id
  | back r tree =>
    cases calls with
    | nil => exact (finish_yields hs).map fun _ => id
    | cons activation calls => exact (back_yields hs).map fun _ => id
  | listed f args =>
    cases calls with
    | nil => cases hs.linked
    | cons activation calls => exact (listed_yields hs).map fun _ => id

end MatrixCalc.Descent
