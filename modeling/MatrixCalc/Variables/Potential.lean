import MatrixCalc.Variables.Pass

/-!
# The pass ends

A splice may make the line longer and does not move on, yet the pass ends. Every unread
character carries a weight: a power of a base larger than all stored texts, whose exponent is
the number of variables that are not active there. A token that stays takes characters away. A
splice trades the name for characters of which each weighs a base less, and fewer than a base
of them. So the sum of the weights falls with every step (`potential_step`).
-/
namespace MatrixCalc

namespace Variables

def base (vars : Variables) : Nat :=
  (vars.entries.map fun entry => entry.2.length).foldr max 0 + 1

def free (vars : Variables) (names : List Text) : Nat :=
  vars.entries.countP fun entry => !names.contains entry.1

theorem length_lt_base {vars : Variables} {name value : Text} (h : vars.get? name = some value) :
    value.length < vars.base := by
  unfold get? at h
  unfold base
  generalize vars.entries = entries at h
  induction entries with
  | nil => simp at h
  | cons entry rest ih =>
    obtain ⟨key, text⟩ := entry
    rw [List.lookup_cons] at h
    simp only [List.map_cons, List.foldr_cons]
    split at h
    · cases h; omega
    · have := ih h; omega

theorem free_cons_le (vars : Variables) (name : Text) (names : List Text) :
    vars.free (name :: names) ≤ vars.free names := by
  unfold free
  refine List.countP_mono_left fun entry _ h => ?_
  simp only [List.contains_cons, Bool.not_eq_true', Bool.or_eq_false_iff] at h ⊢
  exact h.2

theorem free_cons_lt {vars : Variables} {name value : Text} {names : List Text}
    (h : vars.get? name = some value) (hn : names.contains name = false) :
    vars.free (name :: names) < vars.free names := by
  unfold get? at h
  unfold free
  generalize vars.entries = entries at h
  induction entries with
  | nil => simp at h
  | cons entry rest ih =>
    obtain ⟨key, text⟩ := entry
    rw [List.lookup_cons] at h
    have hle := free_cons_le ⟨rest⟩ name names
    unfold free at hle
    simp only [List.countP_cons]
    split at h
    · next hk =>
      have hk : key = name := (eq_of_beq hk).symm
      subst hk
      simp only [List.contains_cons, hn, beq_self_eq_true, Bool.true_or, Bool.not_true,
        Bool.not_false, if_true, Bool.false_eq_true, if_false]
      simp only [List.contains_cons] at hle
      omega
    · next hk =>
      have := ih h
      simp only [List.contains_cons] at this ⊢
      have hk' : (key == name) = false := by
        rw [beq_eq_false_iff_ne] at hk ⊢
        exact fun e => hk e.symm
      simp only [hk', Bool.false_or]
      omega

def weight (vars : Variables) (active : List (Text × Nat)) : Nat :=
  Nat.pow vars.base (vars.free (active.map (·.1)))

theorem weight_pos (vars : Variables) (active : List (Text × Nat)) : 0 < vars.weight active :=
  Nat.pow_pos (Nat.succ_pos _)

/-- The weight of `left` unread characters. Those in front of the innermost mark lie under all
active names, those behind it under the others. -/
def potential (vars : Variables) : Nat → List (Text × Nat) → Nat
  | left, [] => left * vars.weight []
  | left, (name, mark) :: outer =>
    (left - mark) * vars.weight ((name, mark) :: outer) + potential vars (min left mark) outer

theorem potential_mono (vars : Variables) (active : List (Text × Nat)) {left left' : Nat}
    (h : left' ≤ left) : vars.potential left' active ≤ vars.potential left active := by
  induction active generalizing left left' with
  | nil => exact Nat.mul_le_mul_right _ h
  | cons a outer ih =>
    exact Nat.add_le_add (Nat.mul_le_mul_right _ (by omega)) (ih (by omega))

theorem potential_lt (vars : Variables) (active : List (Text × Nat)) {left left' : Nat}
    (h : left' < left) : vars.potential left' active < vars.potential left active := by
  induction active generalizing left left' with
  | nil => exact Nat.mul_lt_mul_of_pos_right h (vars.weight_pos _)
  | cons a outer ih =>
    obtain ⟨name, mark⟩ := a
    simp only [potential]
    by_cases hm : left ≤ mark
    · have h₁ : left - mark = 0 := by omega
      have h₂ : left' - mark = 0 := by omega
      rw [h₁, h₂, Nat.zero_mul, Nat.zero_add, Nat.zero_add]
      exact ih (by omega)
    · exact Nat.add_lt_add_of_lt_of_le
        (Nat.mul_lt_mul_of_pos_right (by omega) (vars.weight_pos _))
        (vars.potential_mono outer (by omega))

/-- A name whose text is left does not count any more. -/
theorem potential_enclosing (vars : Variables) (left : Nat) (active : List (Text × Nat)) :
    vars.potential left (Pass.enclosing left active) = vars.potential left active := by
  induction active with
  | nil => rfl
  | cons a outer ih =>
    obtain ⟨name, mark⟩ := a
    by_cases hm : left ≤ mark
    · have hd : Pass.enclosing left ((name, mark) :: outer) = Pass.enclosing left outer := by
        simp [Pass.enclosing, hm]
      rw [hd, ih, potential, Nat.sub_eq_zero_of_le hm, Nat.zero_mul, Nat.zero_add,
        Nat.min_eq_left hm]
    · have hd : Pass.enclosing left ((name, mark) :: outer) = (name, mark) :: outer := by
        simp [Pass.enclosing, hm]
      rw [hd]

/-- The next character lies under all names that are still active. -/
theorem weight_le_potential (vars : Variables) {left : Nat} (active : List (Text × Nat))
    (h : 0 < left) :
    vars.weight (Pass.enclosing left active) +
      vars.potential (left - 1) (Pass.enclosing left active) ≤ vars.potential left active := by
  rw [← potential_enclosing vars left active]
  cases ha : Pass.enclosing left active with
  | nil =>
    simp only [potential]
    rw [Nat.add_comm, ← Nat.succ_mul]
    exact Nat.mul_le_mul_right _ (by omega)
  | cons a outer =>
    obtain ⟨name, mark⟩ := a
    have hm : mark < left := by
      have := List.head?_dropWhile_not (fun a : Text × Nat => decide (left ≤ a.2)) active
      unfold Pass.enclosing at ha
      rw [ha] at this
      simpa using this
    simp only [potential]
    rw [← Nat.add_assoc, Nat.add_comm (vars.weight _), ← Nat.succ_mul]
    exact Nat.add_le_add (Nat.mul_le_mul_right _ (by omega)) (vars.potential_mono outer (by omega))

/-- A splice lowers the potential, although the line may grow. -/
theorem potential_splice {vars : Variables} {name : Text} {active : List (Text × Nat)}
    {left behind : Nat} (hb : behind < left)
    (hn : (Pass.enclosing left active).any (·.1 == name) = false) :
    vars.potential (((vars.get? name).getD []).length + behind)
      ((name, behind) :: Pass.enclosing left active) < vars.potential left active := by
  have hw := weight_le_potential vars active (Nat.zero_lt_of_lt hb)
  have hm := vars.potential_mono (Pass.enclosing left active) (show behind ≤ left - 1 by omega)
  have hp := vars.weight_pos (Pass.enclosing left active)
  have hv : ((vars.get? name).getD []).length *
      vars.weight ((name, behind) :: Pass.enclosing left active) <
        vars.weight (Pass.enclosing left active) := by
    cases hg : vars.get? name with
    | none => simpa using hp
    | some value =>
      have hf : vars.free (name :: (Pass.enclosing left active).map (·.1)) <
          vars.free ((Pass.enclosing left active).map (·.1)) := by
        refine free_cons_lt hg ?_
        rw [← Bool.not_eq_true, List.contains_iff_exists_mem_beq]
        rintro ⟨other, ho, he⟩
        obtain ⟨a, ha, rfl⟩ := List.mem_map.1 ho
        rw [List.any_eq_false] at hn
        refine hn a ha ?_
        rw [eq_of_beq he, beq_self_eq_true]
      have hbase : 0 < vars.base := Nat.succ_pos _
      exact Nat.lt_of_lt_of_le
        (Nat.mul_lt_mul_of_pos_right (length_lt_base hg) (vars.weight_pos _))
        (Nat.le_trans (Nat.le_of_eq (Nat.mul_comm _ _)) (Nat.pow_le_pow_right hbase hf))
  rw [potential]
  have h₁ : ((vars.get? name).getD []).length + behind - behind =
      ((vars.get? name).getD []).length := by omega
  have h₂ : min (((vars.get? name).getD []).length + behind) behind = behind := by omega
  rw [h₁, h₂]
  omega

end Variables

namespace Pass

def potential (vars : Variables) (p : Pass) : Nat := vars.potential p.rest.length p.active

/-- Every step that does not end the pass lowers its potential. -/
theorem potential_step {vars : Variables} {p q : Pass} (h : p.step vars = .next q) :
    q.potential vars < p.potential vars := by
  have hs := @read_shorter vars.contains false p.rest
  have hl := @lexeme_ne_nil vars.contains false p.rest
  have ht := congrArg List.length (read_text vars.contains false p.rest)
  unfold step at h
  simp only [Reading.text, List.length_append] at ht
  generalize read vars.contains false p.rest = r at h hs hl ht
  simp only at h
  split at h
  · cases h
  · cases h
  · cases h
  · next name ho =>
    split at h
    · cases h
    · next hn =>
      cases h
      have hpos := List.length_pos_iff.2 (hl (by simp [ho]))
      simp only [Bool.not_eq_true] at hn
      have hle : r.lexeme.length + r.rest.length ≤ p.rest.length := by omega
      refine Nat.lt_of_lt_of_le ?_ (vars.potential_mono p.active hle)
      simp only [potential, splice, List.length_append]
      exact Variables.potential_splice (by omega) hn
  · next token hstop _ _ ho =>
    cases h
    refine vars.potential_lt p.active (hs fun he => hstop ?_)
    rw [ho] at he
    exact Except.ok.inj he

def loop (vars : Variables) : Loop Pass (Except ParseError Verdict) where
  turn := step vars
  left := potential vars
  left_lt := potential_step

def run (vars : Variables) (p : Pass) : Except ParseError Verdict := (loop vars).run p

end Pass
end MatrixCalc
