import MatrixCalc.Proofs.Variables.Expansion
import Mathlib.Logic.Relation

/-!
# A cycle is reported exactly when there is one

A variable leads to the variables that its text refers to. The active names of a pass form a
path of such steps: each of them stands in the text of the next one, and the outermost one in
the line (`Traced`). So a name that comes up while it is active leads back to itself. In the
other direction, a text that expands leads to no cycle.
-/
namespace MatrixCalc

open Text

namespace Variables

variable (vars : Variables) (line : Text)

def LeadsTo (a b : Text) : Prop :=
  vars.contains b = true ∧ ∃ value, vars.get? a = some value ∧ b ∈ value.references

/-- The name is reached from a variable that the line refers to. -/
def Reachable (n : Text) : Prop :=
  ∃ m ∈ line.references, vars.contains m = true ∧ Relation.ReflTransGen vars.LeadsTo m n

def OnCycle (n : Text) : Prop := Relation.TransGen vars.LeadsTo n n

/-- The text is reached from the line through the texts of the names, the innermost first. -/
inductive Nested : List Text → Text → Prop
  | line : Nested [] line
  | push {names : List Text} {t n value : Text} (h : Nested names t) (hn : n ∈ t.references)
      (hv : vars.get? n = some value) : Nested (n :: names) value

variable {vars line}

/-- A variable in a nested text is reached from the line and from all names around it. -/
theorem Nested.reaches {names : List Text} {t b : Text} (h : Nested vars line names t)
    (hb : b ∈ t.references) (hc : vars.contains b = true) :
    vars.Reachable line b ∧ ∀ a ∈ names, Relation.TransGen vars.LeadsTo a b := by
  induction h generalizing b with
  | line =>
    refine ⟨⟨b, hb, hc, .refl⟩, ?_⟩
    intro a ha
    cases ha
  | @push names t n value h hn hv ih =>
    have hstep : vars.LeadsTo n b := ⟨hc, value, hv, hb⟩
    obtain ⟨⟨m, hm, hmc, hpath⟩, hnames⟩ := ih hn (contains_of_get? hv)
    refine ⟨⟨m, hm, hmc, hpath.tail hstep⟩, ?_⟩
    intro a ha
    rcases List.mem_cons.1 ha with rfl | ha
    · exact .single hstep
    · exact (hnames a ha).tail hstep

end Variables

/-- No variable in a text that expands leads to a cycle. -/
theorem Expands.not_onCycle {vars : Variables} {ps : List Piece} {t : Text}
    (h : Expands vars ps t) {m : Text} (hm : .name m ∈ ps) (hk : Function.isKeyword m = false)
    {k : Text} (hpath : Relation.ReflTransGen vars.LeadsTo m k) : ¬ vars.OnCycle k := by
  induction h generalizing m with
  | nil => cases hm
  | char h ih =>
    rcases List.mem_cons.1 hm with he | hm
    · cases he
    · exact ih hm hk hpath
  | keyword hn h ih =>
    rcases List.mem_cons.1 hm with he | hm
    · cases he
      rw [hk] at hn
      cases hn
    · exact ih hm hk hpath
  | reference hn hv hu h ihu ih =>
    rcases List.mem_cons.1 hm with he | hm
    · -- The way round the cycle begins with a step into the text, and the rest of it is there.
      cases he
      intro hcycle
      obtain ⟨c, ⟨-, value, hg, hc⟩, hck⟩ :=
        Relation.TransGen.head'_iff.1 (Relation.TransGen.trans_right hpath hcycle)
      rw [hv] at hg
      cases hg
      obtain ⟨hc, hck'⟩ := mem_references.1 hc
      exact ihu hc hck' hck hcycle
    · exact ih hm hk hpath

/-- A piece of two lists side by side is a piece of the first or of the second. -/
theorem split_append {xs ys ps qs : List Piece} {q : Piece} (h : xs ++ ys = ps ++ q :: qs) :
    (∃ rs, xs = ps ++ q :: rs ∧ qs = rs ++ ys) ∨ ∃ rs, ys = rs ++ q :: qs := by
  rcases List.append_eq_append_iff.1 h with ⟨rs, -, hys⟩ | ⟨rs, hxs, hqs⟩
  · exact .inr ⟨rs, hys⟩
  · rcases List.cons_eq_append_iff.1 hqs with ⟨-, hys⟩ | ⟨rs', rfl, hqs'⟩
    · exact .inr ⟨[], hys⟩
    · exact .inl ⟨rs', hxs, hqs'⟩

namespace Pass

theorem enclosing_enclosing {left left' : Nat} (h : left' ≤ left) (active : List (Text × Nat)) :
    enclosing left' (enclosing left active) = enclosing left' active := by
  induction active with
  | nil => rfl
  | cons a outer ih =>
    unfold enclosing at ih ⊢
    by_cases ha : left ≤ a.2
    · have ha' : left' ≤ a.2 := Nat.le_trans h ha
      rw [List.dropWhile_cons_of_pos (by simpa using ha), ih,
        List.dropWhile_cons_of_pos (by simpa using ha')]
    · rw [List.dropWhile_cons_of_neg (by simpa using ha)]

theorem enclosing_cons_of_lt {left : Nat} {a : Text × Nat} (h : a.2 < left)
    (outer : List (Text × Nat)) : enclosing left (a :: outer) = a :: outer := by
  unfold enclosing
  rw [List.dropWhile_cons_of_neg (by simpa using h)]

theorem enclosing_cons_of_le {left : Nat} {a : Text × Nat} (h : left ≤ a.2)
    (outer : List (Text × Nat)) : enclosing left (a :: outer) = enclosing left outer := by
  unfold enclosing
  rw [List.dropWhile_cons_of_pos (by simpa using h)]

/-- Every unread reference stands in a text that is nested as the active names say. -/
def Traced (vars : Variables) (line : Text) (p : Pass) : Prop :=
  ∀ ps n qs, p.rest.pieces = ps ++ .name n :: qs → Function.isKeyword n = false →
    ∃ t, vars.Nested line (p.inside (n.length + (ofPieces qs).length)) t ∧ n ∈ t.references

theorem traced_start (vars : Variables) (line : Text) : (start line).Traced vars line := by
  intro ps n qs hp hk
  refine ⟨line, .line, mem_references.2 ⟨?_, hk⟩⟩
  rw [show line.pieces = ps ++ .name n :: qs from hp]
  exact List.mem_append_right _ (List.mem_cons_self ..)

theorem Traced.leadingName {vars : Variables} {line : Text} {p : Pass}
    (h : p.Traced vars line) {blanks n rest : Text} (ht : LeadingName p.rest blanks n rest) :
    ∃ t, vars.Nested line (p.inside (n.length + rest.length)) t ∧ n ∈ t.references := by
  have hn := h _ n _ ht.pieces_eq ht.notKeyword
  rwa [ofPieces_pieces] at hn

theorem Traced.skip {vars : Variables} {line : Text} {p : Pass} (h : p.Traced vars line)
    {s rest done : Text} (ht : LeadingKept p.rest s rest) :
    Traced vars line ⟨done, rest, p.active⟩ := by
  intro ps n qs hp hk
  have hrest : p.rest.pieces = (pieces s ++ ps) ++ .name n :: qs := by
    rw [ht.pieces_eq, show pieces rest = ps ++ .name n :: qs from hp, List.append_assoc]
  exact h _ n qs hrest hk

theorem Traced.splice {vars : Variables} {line : Text} {p : Pass} (h : p.Traced vars line)
    {blanks n value rest done : Text} (ht : LeadingName p.rest blanks n rest)
    (hv : vars.get? n = some value) :
    Traced vars line ⟨done, value ++ rest,
      (n, rest.length) :: enclosing (n.length + rest.length) p.active⟩ := by
  intro ps m qs hp hk
  obtain ⟨t, hnested, hn⟩ := h.leadingName ht
  have hsplit : value.pieces ++ rest.pieces = ps ++ .name m :: qs := by
    rw [← pieces_append value ht.ended]
    exact hp
  unfold inside
  rcases split_append hsplit with ⟨rs, hvalue, rfl⟩ | ⟨rs, hrest⟩
  · -- The reference stands in the spliced text, in front of the mark of that text.
    have hm : .name m ∈ value.pieces := by
      rw [hvalue]
      exact List.mem_append_right _ (List.mem_cons_self ..)
    have hpos := List.length_pos_iff.2 (isName_of_mem_pieces hm).ne_nil
    refine ⟨value, ?_, mem_references.2 ⟨hm, hk⟩⟩
    rw [ofPieces_append, ofPieces_pieces, List.length_append,
      enclosing_cons_of_lt (by dsimp only; omega)]
    exact hnested.push hn hv
  · -- The reference stands behind the spliced text, where it stood before.
    have hlen := congrArg (fun qs => (ofPieces qs).length) hrest
    simp only [ofPieces_pieces, ofPieces_append, ofPieces_cons, List.length_append,
      Piece.text] at hlen
    have hp' : p.rest.pieces = (pieces blanks ++ .name n :: rs) ++ .name m :: qs := by
      rw [ht.pieces_eq, hrest, List.append_assoc, List.cons_append]
    rw [enclosing_cons_of_le (by dsimp only; omega), enclosing_enclosing (by omega)]
    exact h _ m qs hp' hk

/-- A pass reports only a variable that the line reaches and that leads back to itself. -/
theorem run_cyclic {vars : Variables} {line : Text} {p : Pass} (h : p.Traced vars line) :
    ∀ offset n, p.run vars = .error ⟨offset, .cyclic n⟩ →
      vars.Reachable line n ∧ vars.OnCycle n := by
  revert h
  refine run_induct (motive := fun p result => p.Traced vars line →
    ∀ offset n, result = .error ⟨offset, .cyclic n⟩ →
      vars.Reachable line n ∧ vars.OnCycle n) ?_ ?_ p
  · intro p result hs hp offset n hr
    rw [hr] at hs
    cases hs with
    | fault hf => exact absurd rfl (hf n)
    | cyclic ht hv hactive =>
      obtain ⟨t, hnested, hn⟩ := hp.leadingName ht
      obtain ⟨hreach, hnames⟩ := hnested.reaches hn hv
      exact ⟨hreach, hnames n hactive⟩
  · intro p q result hs ih hp
    cases hs with
    | splice ht hv _ => exact ih (hp.splice ht hv)
    | skip ht => exact ih (hp.skip ht)

end Pass

theorem SelfPass.run_ne_cyclic (vars : Variables) (name : Text) (p : SelfPass) :
    ∀ e, (SelfPass.loop vars name).run p = .error e → ∀ n, e.fault ≠ .cyclic n := by
  refine run_induct (motive := fun _ result => ∀ e, result = .error e → ∀ n, e.fault ≠ .cyclic n)
    ?_ ?_ p
  · intro p result hs e hr
    rw [hr] at hs
    cases hs with
    | fault hf => exact hf
  · intro p q result hs ih
    exact ih

namespace Variables

theorem assignment_ne_cyclic {vars : Variables} {name behind : Text} {offset : Nat}
    {e : ParseError} (h : vars.assignment name offset behind = .error e) (n : Text) :
    e.fault ≠ .cyclic n := by
  unfold assignment at h
  dsimp only at h
  split at h
  · cases h
    simp
  · exact SelfPass.run_ne_cyclic vars name _ e h n

theorem resolve_cyclic {vars : Variables} {line n : Text} {offset : Nat}
    (h : vars.resolve line = .error ⟨offset, .cyclic n⟩) :
    vars.Reachable line n ∧ vars.OnCycle n := by
  have hs := vars.resolve_spec line
  rw [h] at hs
  cases hs with
  | fault hr => exact Pass.run_cyclic (Pass.traced_start vars line) offset n hr
  | refused hr ha => exact absurd rfl (assignment_ne_cyclic ha n)

theorem not_onCycle_of_resolve {vars : Variables} {line t n : Text}
    (h : vars.resolve line = .ok (.expression t)) (hn : vars.Reachable line n) :
    ¬ vars.OnCycle n := by
  obtain ⟨m, hm, -, hpath⟩ := hn
  obtain ⟨hm, hk⟩ := mem_references.1 hm
  exact (expands_of_resolve h).not_onCycle hm hk hpath

end Variables

/-- The fault names a variable on a cycle that the line reaches, a line that reaches a cycle is
resolved to no expression, and the fault does not come up for a line that reaches none. -/
theorem cycle_detection_exact (vars : Variables) (line : Text) :
    (∀ offset n, vars.resolve line = .error ⟨offset, .cyclic n⟩ →
      vars.Reachable line n ∧ vars.OnCycle n) ∧
    ((∃ n, vars.Reachable line n ∧ vars.OnCycle n) →
      ∀ t, vars.resolve line ≠ .ok (.expression t)) ∧
    ((∀ n, vars.Reachable line n → ¬ vars.OnCycle n) →
      ∀ offset n, vars.resolve line ≠ .error ⟨offset, .cyclic n⟩) := by
  refine ⟨fun _ _ h => Variables.resolve_cyclic h, ?_, ?_⟩
  · rintro ⟨n, hn, hcycle⟩ t h
    exact Variables.not_onCycle_of_resolve h hn hcycle
  · intro hacyclic offset n h
    obtain ⟨hn, hcycle⟩ := Variables.resolve_cyclic h
    exact hacyclic n hn hcycle

/-- A table in which `x` and `y` lead to each other. -/
def Variables.circular : Variables := ⟨[("x".toList, "y".toList), ("y".toList, "x + 1".toList)]⟩

/-- The variable is reported where it comes up again, and no cycle where it is only used twice. -/
theorem cycle_detection_exact_of_circular :
    Variables.circular.resolve "2x".toList = .error ⟨1, .cyclic "x".toList⟩ ∧
      Variables.circular.Reachable "2x".toList "x".toList ∧
      Variables.circular.OnCycle "x".toList ∧
      (∀ t, Variables.circular.resolve "2x".toList ≠ .ok (.expression t)) ∧
      ∀ offset n, Variables.relayed.resolve "x * x".toList ≠ .error ⟨offset, .cyclic n⟩ := by
  have hr : Variables.circular.resolve "2x".toList = .error ⟨1, .cyclic "x".toList⟩ :=
    Variables.resolve_of_run_error ((Pass.loop Variables.circular).run_of_turns (n := 4) rfl)
  have hr' : Variables.relayed.resolve "x * x".toList = .ok (.expression "1 * 1".toList) :=
    Variables.resolve_of_run ((Pass.loop Variables.relayed).run_of_turns (n := 8) rfl)
  obtain ⟨sound, complete, -⟩ := cycle_detection_exact Variables.circular "2x".toList
  obtain ⟨-, -, clear⟩ := cycle_detection_exact Variables.relayed "x * x".toList
  obtain ⟨hreach, hcycle⟩ := sound 1 _ hr
  refine ⟨hr, hreach, hcycle, complete ⟨_, hreach, hcycle⟩, clear ?_⟩
  intro n hn
  exact Variables.not_onCycle_of_resolve hr' hn

end MatrixCalc
