import MatrixCalc.Text

/-!
# Calculations that may fail

What is known of the value or the error of a calculation is known step by step (`Ensures`). A
calculation over a list succeeds when it succeeds on every member, and fails with the error of one
of them. Where only success matters the errors are forgotten.
-/
namespace MatrixCalc

variable {ε α β : Type}

theorem toOption_bind (x : Except ε α) (f : α → Except ε β) :
    (x >>= f).toOption = x.toOption.bind fun a => (f a).toOption := by
  cases x <;> rfl

theorem toOption_map (f : α → β) (x : Except ε α) :
    (f <$> x).toOption = x.toOption.map f := by
  cases x <;> rfl

theorem toOption_eq_some {x : Except ε α} {a : α} : x.toOption = some a ↔ x = .ok a := by
  cases x <;> simp [Except.toOption]

/-- The value or the error, whichever comes out, has its property. -/
def Ensures (P : α → Prop) (E : ε → Prop) : Except ε α → Prop
  | .ok a => P a
  | .error e => E e

namespace Ensures

variable {P : α → Prop} {Q : β → Prop} {E : ε → Prop} {x : Except ε α}

theorem of_ok {a : α} (h : Ensures P E x) (hx : x = .ok a) : P a := by
  rw [hx] at h
  exact h

theorem of_error {e : ε} (h : Ensures P E x) (hx : x = .error e) : E e := by
  rw [hx] at h
  exact h

/-- That nothing is said holds of everything. -/
theorem anything (x : Except ε α) : Ensures (fun _ => True) (fun _ => True) x := by
  cases x <;> trivial

theorem bind {f : α → Except ε β} (hx : Ensures P E x) (hf : ∀ a, P a → Ensures Q E (f a)) :
    Ensures Q E (x >>= f) := by
  cases x with
  | ok a => exact hf a hx
  | error e => exact hx

theorem map {f : α → β} (hx : Ensures P E x) (hf : ∀ a, P a → Q (f a)) :
    Ensures Q E (f <$> x) := by
  cases x with
  | ok a => exact hf a hx
  | error e => exact hx

theorem mono {P' : α → Prop} {E' : ε → Prop} (hx : Ensures P E x) (hP : ∀ a, P a → P' a)
    (hE : ∀ e, E e → E' e) : Ensures P' E' x := by
  cases x with
  | ok a => exact hP a hx
  | error e => exact hE e hx

/-- A property that every step hands on holds at the end of a fold. -/
theorem foldlM {f : β → α → Except ε β} {b : β} (hb : Q b)
    (hf : ∀ b a, Q b → Ensures Q E (f b a)) (as : List α) : Ensures Q E (as.foldlM f b) := by
  induction as generalizing b with
  | nil => exact hb
  | cons a as ih =>
    rw [List.foldlM_cons]
    exact (hf b a hb).bind fun b' hb' => ih hb'

end Ensures

/-- A fold that fails has gone well up to a member that the step refuses. -/
theorem exists_of_foldlM_eq_error {f : β → α → Except ε β} {as : List α} {b : β} {e : ε}
    (h : as.foldlM f b = .error e) :
    ∃ pre a post b', as = pre ++ a :: post ∧ pre.foldlM f b = .ok b' ∧ f b' a = .error e := by
  induction as generalizing b with
  | nil => cases h
  | cons a as ih =>
    rw [List.foldlM_cons] at h
    cases hstep : f b a with
    | error e' =>
      rw [hstep] at h
      cases h
      exact ⟨[], a, as, b, rfl, rfl, hstep⟩
    | ok b₁ =>
      rw [hstep] at h
      obtain ⟨pre, a', post, b', rfl, hpre, hlast⟩ := ih h
      refine ⟨a :: pre, a', post, b', rfl, ?_, hlast⟩
      rw [List.foldlM_cons, hstep]
      exact hpre

theorem exists_of_foldlM_eq_none {f : β → α → Option β} {as : List α} {b : β}
    (h : as.foldlM f b = none) :
    ∃ pre a post b', as = pre ++ a :: post ∧ pre.foldlM f b = some b' ∧ f b' a = none := by
  induction as generalizing b with
  | nil => cases h
  | cons a as ih =>
    rw [List.foldlM_cons] at h
    cases hstep : f b a with
    | none => exact ⟨[], a, as, b, rfl, rfl, hstep⟩
    | some b₁ =>
      rw [hstep] at h
      obtain ⟨pre, a', post, b', rfl, hpre, hlast⟩ := ih h
      refine ⟨a :: pre, a', post, b', rfl, ?_, hlast⟩
      rw [List.foldlM_cons, hstep]
      exact hpre

section MapM

variable {f : α → Except ε β} {x : α} {xs : List α}

theorem mapM_cons_eq_ok {ys : List β} :
    (x :: xs).mapM f = .ok ys ↔ ∃ y zs, f x = .ok y ∧ xs.mapM f = .ok zs ∧ y :: zs = ys := by
  rw [List.mapM_cons]
  cases f x with
  | error e => simp [bind, Except.bind]
  | ok y => cases xs.mapM f <;> simp [bind, Except.bind, pure, Except.pure]

theorem mapM_cons_eq_error {e : ε} (h : (x :: xs).mapM f = .error e) :
    f x = .error e ∨ xs.mapM f = .error e := by
  rw [List.mapM_cons] at h
  cases hx : f x with
  | error e' =>
    rw [hx] at h
    cases h
    exact .inl rfl
  | ok y =>
    cases hxs : xs.mapM f with
    | error e' =>
      rw [hx, hxs] at h
      cases h
      exact .inr rfl
    | ok ys =>
      rw [hx, hxs] at h
      cases h

theorem exists_mapM_eq_ok_iff : (∃ ys, xs.mapM f = .ok ys) ↔ ∀ x ∈ xs, ∃ y, f x = .ok y := by
  induction xs with
  | nil => exact ⟨fun _ => List.forall_mem_nil _, fun _ => ⟨[], rfl⟩⟩
  | cons x xs ih =>
    rw [List.forall_mem_cons, ← ih]
    constructor
    · rintro ⟨ys, h⟩
      obtain ⟨y, zs, hy, hzs, -⟩ := mapM_cons_eq_ok.1 h
      exact ⟨⟨y, hy⟩, zs, hzs⟩
    · rintro ⟨⟨y, hy⟩, zs, hzs⟩
      exact ⟨y :: zs, mapM_cons_eq_ok.2 ⟨y, zs, hy, hzs, rfl⟩⟩

theorem length_of_mapM_eq_ok {ys : List β} (h : xs.mapM f = .ok ys) : ys.length = xs.length := by
  induction xs generalizing ys with
  | nil =>
    cases h
    rfl
  | cons x xs ih =>
    obtain ⟨y, zs, -, hzs, rfl⟩ := mapM_cons_eq_ok.1 h
    rw [List.length_cons, List.length_cons, ih hzs]

theorem exists_error_of_mapM {e : ε} (h : xs.mapM f = .error e) : ∃ x ∈ xs, f x = .error e := by
  induction xs with
  | nil => cases h
  | cons x xs ih =>
    rcases mapM_cons_eq_error h with hx | hxs
    · exact ⟨x, List.mem_cons_self .., hx⟩
    · obtain ⟨y, hy, he⟩ := ih hxs
      exact ⟨y, List.mem_cons_of_mem _ hy, he⟩

end MapM

end MatrixCalc
