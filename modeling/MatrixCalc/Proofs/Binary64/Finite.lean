import MatrixCalc.Proofs.Binary64.Whole

/-!
# Finite floats

A rounding yields a zero or a finite number, and the packed form of a finite number is an infinity
exactly when its exponent exceeds 971 (`Storable`). So an operation on finite numbers whose result
is not finite gave an infinity, never a NaN; rounding to a whole number and dividing by one that is
not zero stay finite.
-/
namespace MatrixCalc.Binary64

open Float.Model (UnpackedFloat Format)
open Float.Model.UnpackedFloat

/-- What the fields of a packed number stand for. The top exponent belongs to the infinities and the
NaNs, and the lowest one that has a leading bit of its own is one above the subnormal numbers. -/
theorem unpack_cases (b : BitVec Format.binary64.numBits) :
    unpackExponent b = -1#11 ∧ ¬ (UnpackedFloat.unpack Format.binary64 b).isFinite ∨
      unpackExponent b ≠ -1#11 ∧
        ((∃ s, UnpackedFloat.unpack Format.binary64 b = .zero s) ∨
          ∃ s m e hm, UnpackedFloat.unpack Format.binary64 b = .finite s m e hm ∧
            e ≤ 971 ∧ m < 2 ^ 53 ∧ (-1074 < e → m.log2 = 52)) := by
  have hbits : (unpackMantissa b).toNat < 2 ^ 52 := BitVec.isLt _
  have hfield : (unpackExponent b).toNat < 2048 := BitVec.isLt _
  by_cases htop : unpackExponent b = -1#11
  · refine .inl ⟨htop, ?_⟩
    by_cases hmantissa : unpackMantissa b = 0#52
    · have hinfinity : UnpackedFloat.unpack Format.binary64 b = .infinity _ :=
        (if_pos htop).trans (if_pos hmantissa)
      rw [hinfinity]
      exact Bool.false_ne_true
    · have hnan : UnpackedFloat.unpack Format.binary64 b = .notANumber :=
        (if_pos htop).trans (if_neg hmantissa)
      rw [hnan]
      exact Bool.false_ne_true
  · refine .inr ⟨htop, ?_⟩
    by_cases hzero : unpackExponent b = 0#11
    · by_cases hmantissa : unpackMantissa b = 0#52
      · exact .inl ⟨_, (if_neg htop).trans ((if_pos hzero).trans (dif_pos hmantissa))⟩
      · refine .inr ⟨_, _, _, _,
          (if_neg htop).trans ((if_pos hzero).trans (dif_neg hmantissa)), ?_⟩
        -- A subnormal number has the same unit as the numbers of the exponent above it.
        have hlowest :
            ((unpackExponent b).toNat : Int) - ((1023 : Nat) + (52 : Nat)) + 1 = -1074 := by
          rw [hzero]
          rfl
        change ((unpackExponent b).toNat : Int) - ((1023 : Nat) + (52 : Nat)) + 1 ≤ 971 ∧ _ ∧
          (-1074 < ((unpackExponent b).toNat : Int) - ((1023 : Nat) + (52 : Nat)) + 1 → _)
        omega
    · have hmost : (unpackExponent b).toNat ≠ 2047 := fun hall =>
        htop (BitVec.eq_of_toNat_eq hall)
      refine .inr ⟨_, _, _, _, (if_neg htop).trans (if_neg hzero), ?_, ?_, fun _ => ?_⟩
      · change ((unpackExponent b).toNat : Int) - ((1023 : Nat) + (52 : Nat)) ≤ 971
        omega
      · rw [toNat_implicit_append]
        omega
      · rw [toNat_implicit_append, Nat.log2_eq_iff (by omega)]
        omega

theorem isFinite_unpack_packComponents (s : Sign) {e : BitVec 11} (m : BitVec 52)
    (htop : e ≠ -1#11) :
    (UnpackedFloat.unpack Format.binary64 (packComponents Format.binary64 s e m)).isFinite := by
  have hexponent : unpackExponent (packComponents Format.binary64 s e m) = e :=
    unpackExponent_packComponents
  obtain ⟨hsame, -⟩ | ⟨-, ⟨s', h⟩ | ⟨s', m', e', hm', h, -⟩⟩ :=
    unpack_cases (packComponents Format.binary64 s e m)
  · exact absurd (hexponent.symm.trans hsame) htop
  · rw [h]
    rfl
  · rw [h]
    rfl

/-- A zero, or a finite number whose exponent has a place in the packed form. -/
inductive Storable : UnpackedFloat → Prop
  | zero (s : Sign) : Storable (.zero s)
  | finite (s : Sign) (m : Nat) {e : Int} (hm : 0 < m) (hhigh : e ≤ 971) :
      Storable (.finite s m e hm)

theorem parts_zero (s : Sign) : parts (ofParts (.zero s)) = .zero s := by
  cases s <;> rfl

theorem parts_infinity (s : Sign) : parts (ofParts (.infinity s)) = .infinity s := by
  cases s <;> rfl

theorem biased_ne_top {e : Int} (hhigh : e ≤ 971) :
    BitVec.ofNat 11 (e + (1023 : Nat) + (52 : Nat)).toNat ≠ -1#11 := by
  intro h
  have htop := congrArg BitVec.toNat h
  rw [BitVec.toNat_ofNat, Nat.mod_eq_of_lt (by omega)] at htop
  change _ = 2047 at htop
  omega

theorem Storable.isFinite {u : UnpackedFloat} (h : Storable u) : (ofParts u).isFinite := by
  change (UnpackedFloat.unpack _ (UnpackedFloat.pack Format.binary64 u)).isFinite
  cases h with
  | zero s => exact isFinite_unpack_packComponents s 0 (by decide)
  | @finite s m e hm hhigh =>
    have hroom : ¬ 2048 ≤ (e + (1023 : Nat) + (52 : Nat) : Int).toNat + 1 := by omega
    have hpack : ∃ e' m', e' ≠ -1#11 ∧ UnpackedFloat.pack Format.binary64 (.finite s m e hm) =
        packComponents Format.binary64 s e' m' := by
      by_cases hfull : m.log2 + 1 = 53
      · exact ⟨_, _, biased_ne_top hhigh, (if_neg hroom).trans (if_pos hfull)⟩
      · exact ⟨_, _, by decide, (if_neg hroom).trans (if_neg hfull)⟩
    obtain ⟨e', m', htop, hpack⟩ := hpack
    rw [hpack]
    exact isFinite_unpack_packComponents s m' htop

/-- Packing a number that is finite or infinite loses that only to an infinity. -/
theorem finite_or_infinity (s : Sign) (m : Nat) (e : Int) (hm : 0 < m) :
    (ofParts (.finite s m e hm)).isFinite ∨
      parts (ofParts (.finite s m e hm)) = .infinity s := by
  by_cases hhigh : e ≤ 971
  · exact .inl (Storable.finite s m hm hhigh).isFinite
  · refine .inr ?_
    have hpack : UnpackedFloat.pack Format.binary64 (.finite s m e hm) =
        packedInfinity Format.binary64 s := by
      refine if_pos ?_
      change 2048 ≤ (e + (1023 : Nat) + (52 : Nat)).toNat + 1
      omega
    have hparts : parts (ofParts (.finite s m e hm)) = parts (ofParts (.infinity s)) :=
      congrArg (UnpackedFloat.unpack Format.binary64) hpack
    rw [hparts, parts_infinity]

/-- A finite float that is not subnormal has all bits of its significand. -/
theorem unpack_finite {b : BitVec Format.binary64.numBits} {s : Sign} {m : Nat} {e : Int}
    {hm : 0 < m}
    (h : UnpackedFloat.unpack Format.binary64 b = .finite s m e hm) :
    e ≤ 971 ∧ m < 2 ^ 53 ∧ (-1074 < e → m.log2 = 52) := by
  obtain ⟨-, hinfinite⟩ | ⟨-, ⟨s', hzero⟩ | ⟨s', m', e', hm', hfinite, hrange⟩⟩ := unpack_cases b
  · exact absurd (by rw [h]; rfl) hinfinite
  · cases h.symm.trans hzero
  · obtain ⟨-, rfl, rfl⟩ := UnpackedFloat.finite.inj (h.symm.trans hfinite)
    exact hrange

/-! ## Rounding a significand -/

theorem mantissa_shiftRight (em : ExtendedMantissa) (k : Nat) :
    (em >>> k).mantissa = em.mantissa / 2 ^ k := by
  induction k with
  | zero => exact (Nat.div_one _).symm
  | succ k ih =>
    calc (em >>> (k + 1)).mantissa
        = (em >>> k).mantissa / 2 := rfl
      _ = em.mantissa / 2 ^ (k + 1) := by rw [ih, Nat.div_div_eq_div_mul, Nat.pow_succ]

theorem roundedMantissa_le (em : ExtendedMantissa) : em.roundedMantissa ≤ em.mantissa + 1 := by
  rw [ExtendedMantissa.roundedMantissa, Accuracy.roundToNearestEven.eq_def]
  split <;> omega

theorem exponent_shiftToTargetExponent (m : Nat) (e : Int) (a : Accuracy) :
    (shiftToTargetExponent Format.binary64 m e a).2 =
      max e (max ((m.log2 : Int) + 1 + e - 53) (-1074)) := by
  change e + ((max ((m.log2 : Int) + 1 + e - 53) (-1074) - e).toNat : Nat) = _
  omega

theorem mantissa_shiftToTargetExponent (m : Nat) (e : Int) (a : Accuracy) :
    (shiftToTargetExponent Format.binary64 m e a).1.mantissa < 2 ^ 53 := by
  have hmantissa : (ExtendedMantissa.ofMantissaAndAccuracy m a).mantissa = m := by
    cases a with
    | exact => rfl
    | inexact o => cases o <;> rfl
  change (ExtendedMantissa.ofMantissaAndAccuracy m a >>>
    (max ((m.log2 : Int) + 1 + e - 53) (-1074) - e).toNat).mantissa < 2 ^ 53
  rw [mantissa_shiftRight, hmantissa, Nat.div_lt_iff_lt_mul (Nat.two_pow_pos _), ← Nat.pow_add]
  calc m < 2 ^ (m.log2 + 1) := Nat.lt_log2_self
    _ ≤ _ := Nat.pow_le_pow_right (by omega) (by omega)

/-- Rounding may carry into a new bit once, so the exponent grows by one at most. -/
theorem storable_roundWithAccuracy (s : Sign) {m : Nat} {e : Int} (a : Accuracy) (he : e ≤ 970)
    (hm : m.log2 + e ≤ 1022) : Storable (roundWithAccuracy Format.binary64 s m e a) := by
  rw [roundWithAccuracy]
  have hexponent := exponent_shiftToTargetExponent m e a
  have hmantissa := mantissa_shiftToTargetExponent m e a
  generalize shiftToTargetExponent Format.binary64 m e a = first at hexponent hmantissa
  obtain ⟨em, e₁⟩ := first
  have hrounded : em.roundedMantissa.log2 < 54 := by
    by_cases hzero : em.roundedMantissa = 0
    · rw [hzero]
      decide
    · rw [Nat.log2_lt hzero]
      have hle := roundedMantissa_le em
      dsimp only at hmantissa
      omega
  have hfinal := exponent_shiftToTargetExponent em.roundedMantissa e₁ .exact
  dsimp only at hexponent ⊢
  by_cases hzero :
      (shiftToTargetExponent Format.binary64 em.roundedMantissa e₁ .exact).1.mantissa = 0
  · rw [dif_pos hzero]
    exact .zero s
  · rw [dif_neg hzero]
    exact .finite s _ _ (by omega)

theorem roundWithAccuracy_cases (s : Sign) (m : Nat) (e : Int) (a : Accuracy) :
    roundWithAccuracy Format.binary64 s m e a = .zero s ∨
      ∃ m' e' hm', roundWithAccuracy Format.binary64 s m e a = .finite s m' e' hm' := by
  rw [roundWithAccuracy]
  dsimp only
  generalize (shiftToTargetExponent Format.binary64 _ _ .exact) = rounded
  by_cases hzero : rounded.1.mantissa = 0
  · exact .inl (dif_pos hzero)
  · exact .inr ⟨_, _, Nat.pos_of_ne_zero hzero, dif_neg hzero⟩

/-! ## Operations on finite numbers -/

theorem mul_finite {s₁ s₂ : Sign} {m₁ m₂ : Nat} {e₁ e₂ : Int} {hm₁ : 0 < m₁} {hm₂ : 0 < m₂} :
    UnpackedFloat.mul Format.binary64 (.finite s₁ m₁ e₁ hm₁) (.finite s₂ m₂ e₂ hm₂) =
      roundWithAccuracy Format.binary64 (s₁ * s₂) (m₁ * m₂) (e₁ + e₂) .exact := rfl

theorem zero_div_finite {s₁ s₂ : Sign} {m : Nat} {e : Int} {hm : 0 < m} :
    UnpackedFloat.div Format.binary64 (.zero s₁) (.finite s₂ m e hm) = .zero (s₁ / s₂) := rfl

theorem div_finite {s₁ s₂ : Sign} {m₁ m₂ : Nat} {e₁ e₂ : Int} {hm₁ : 0 < m₁} {hm₂ : 0 < m₂}
    {core : Nat × Int × Accuracy} (hcore : divCore Format.binary64 m₁ e₁ m₂ e₂ = core) :
    UnpackedFloat.div Format.binary64 (.finite s₁ m₁ e₁ hm₁) (.finite s₂ m₂ e₂ hm₂) =
      roundWithAccuracy Format.binary64 (s₁ / s₂) core.1 core.2.1 core.2.2 := by
  subst hcore
  rfl

theorem parts_of_isFinite {x : Float} (h : x.isFinite) :
    (∃ s, parts x = .zero s) ∨ ∃ s m e hm, parts x = .finite s m e hm := by
  change (parts x).isFinite = true at h
  generalize parts x = u at h
  cases u with
  | notANumber => cases h
  | infinity s => cases h
  | zero s => exact .inl ⟨s, rfl⟩
  | finite s m e hm => exact .inr ⟨s, m, e, hm, rfl⟩

/-- The product of finite numbers is finite or has overflowed. -/
theorem mul_finite_or_infinity {x y : Float} (hx : x.isFinite) (hy : y.isFinite) :
    (x * y).isFinite ∨ ∃ s, parts (x * y) = .infinity s := by
  have hzero (s : Sign) : (ofParts (.zero s)).isFinite := (Storable.zero s).isFinite
  rw [mul_eq]
  obtain ⟨s₁, h₁⟩ | ⟨s₁, m₁, e₁, hm₁, h₁⟩ := parts_of_isFinite hx <;>
    obtain ⟨s₂, h₂⟩ | ⟨s₂, m₂, e₂, hm₂, h₂⟩ := parts_of_isFinite hy <;> rw [h₁, h₂]
  · exact .inl (hzero (s₁ * s₂))
  · exact .inl (hzero (s₁ * s₂))
  · exact .inl (hzero (s₁ * s₂))
  · rw [mul_finite]
    obtain h | ⟨m, e, hm, h⟩ :=
      roundWithAccuracy_cases (s₁ * s₂) (m₁ * m₂) (e₁ + e₂) .exact <;> rw [h]
    · exact .inl (hzero (s₁ * s₂))
    · exact (finite_or_infinity _ m e hm).imp id fun h => ⟨_, h⟩

/-- A zero, or a number with all bits of its significand of which 52 at most lie behind the
point. -/
inductive Full : UnpackedFloat → Prop
  | zero (s : Sign) : Full (.zero s)
  | finite (s : Sign) {m : Nat} {e : Int} (hm : 0 < m) (hfull : m.log2 = 52) (hlow : -52 ≤ e)
      (hhigh : e ≤ 971) : Full (.finite s m e hm)

theorem full_nearest (s : Sign) {n : Nat} (hlt : n < 2 ^ 53) :
    Full (parts (nearest (s.apply n) 0 s)) := by
  rcases Nat.eq_zero_or_pos n with rfl | hn
  · have hzero : nearest (s.apply (0 : Nat)) 0 s = ofParts (.zero s) := by cases s <;> rfl
    rw [hzero, parts_zero]
    exact .zero s
  · have hround : nearest (s.apply n) 0 s = ofParts (.finite s (n * 2 ^ (52 - n.log2))
        (-(52 - n.log2 : Nat)) (Nat.mul_pos hn (Nat.two_pow_pos _))) := by
      rw [← round_of_lt s hn hlt, nearest, UnpackedFloat.normalize]
      cases s with
      | negative =>
        have hless : compare (-(n : Int)) 0 = .lt := by rw [Int.compare_eq_lt]; omega
        rw [Sign.apply, hless]
        dsimp only
        rw [Int.neg_neg, Int.toNat_natCast]
      | positive =>
        have hmore : compare (n : Int) 0 = .gt := by rw [Int.compare_eq_gt]; omega
        rw [Sign.apply, hmore]
        rfl
    rw [hround, parts_ofParts _ (log2_wholeParts hn hlt) (by omega) (by omega)]
    exact .finite s _ (log2_wholeParts hn hlt) (by omega) (by omega)

theorem full_roundHalfAway {x : Float} (hx : x.isFinite) : Full (parts (roundHalfAway x)) := by
  obtain ⟨s, hparts⟩ | ⟨s, m, e, hm, hparts⟩ := parts_of_isFinite hx
  · have hsame : roundHalfAway x = x := by rw [roundHalfAway, hparts]
    rw [hsame, hparts]
    exact .zero s
  · obtain ⟨hhigh, hbits, hfull⟩ := unpack_finite hparts
    rw [roundHalfAway, hparts]
    dsimp only
    split
    · next hwhole =>
      rw [hparts]
      exact .finite s hm (hfull (by omega)) (by omega) hhigh
    · next hfraction =>
      refine full_nearest s ?_
      have htwo : 2 ^ 1 ≤ Nat.pow 2 (-e).toNat := Nat.pow_le_pow_right (by decide) (by omega)
      rw [Nat.div_lt_iff_lt_mul (by omega)]
      omega

theorem div_eq (x y : Float) :
    x / y = ofParts (UnpackedFloat.div Format.binary64 (parts x) (parts y)) := rfl

/-- The quotient of two full significands is taken with one more bit than either has. -/
theorem divCore_of_full {m n : Nat} {e f : Int} (hm : m.log2 = 52) (hn : n.log2 = 52)
    (hlow : -1021 ≤ e - f) :
    divCore Format.binary64 m e n f =
      (m * 2 ^ 53 / n, e - f - 53, accuracyOfFraction (m * 2 ^ 53 % n) n) := by
  have htarget : min (e - f) (Format.binary64.targetExponent
      (Float.Model.totalExponent m e - Float.Model.totalExponent n f)) = e - f - 53 := by
    change min (e - f) (max ((m.log2 : Int) + 1 + e - ((n.log2 : Int) + 1 + f) - 53) (-1074)) = _
    rw [hm, hn]
    omega
  have hamount : (e - f - (e - f - 53)).toNat = 53 := by omega
  rw [divCore, htarget, hamount, Nat.shiftLeft_eq]

theorem log2_quotient {m n : Nat} (hm : m.log2 = 52) (hn : n.log2 = 52) (hpos : 0 < n) :
    (m * 2 ^ 53 / n).log2 < 54 := by
  by_cases hzero : m * 2 ^ 53 / n = 0
  · rw [hzero]
    decide
  · have hnumerator : m < 2 ^ 53 := by
      have hlt := Nat.lt_log2_self (n := m)
      rwa [hm] at hlt
    have hdenominator := ((Nat.log2_eq_iff (Nat.ne_of_gt hpos)).1 hn).1
    rw [Nat.log2_lt hzero, Nat.div_lt_iff_lt_mul hpos]
    omega

/-- Division by a whole number lowers the exponent, except for the division by one, which is
exact. -/
theorem isFinite_div {r y : Float} {n : Nat} (hr : Full (parts r)) (hn : 0 < n) (hlt : n < 2 ^ 53)
    (hy : parts y = wholeParts n hn) : (r / y).isFinite := by
  rw [div_eq, hy, wholeParts]
  generalize parts r = u at hr
  cases hr with
  | zero s =>
    rw [zero_div_finite]
    exact (Storable.zero _).isFinite
  | @finite s m e hm hfull hlow hhigh =>
    rw [div_finite (divCore_of_full hfull (log2_wholeParts hn hlt) (by omega))]
    dsimp only
    -- The quotient has a bit more than the dividend, which only a divisor of two or more makes up
    -- for; the division by one drops no bit and leaves the exponent as it was.
    by_cases hone : n = 1
    · subst hone
      have hone : 1 * 2 ^ (52 - Nat.log2 1) = 2 ^ 52 := rfl
      have hquotient : m * 2 ^ 53 / 2 ^ 52 = m * 2 ^ 1 := by omega
      have hremainder : m * 2 ^ 53 % 2 ^ 52 = 0 := by omega
      rw [hone, hquotient, hremainder, accuracyOfFraction, if_pos rfl,
        roundWithAccuracy_exact _ hm hfull 1 (by omega)]
      exact (Storable.finite _ m hm (by omega)).isFinite
    · have hbit : 1 ≤ n.log2 := (Nat.le_log2 (Nat.ne_of_gt hn)).2 (by omega)
      have hquotient := log2_quotient hfull (log2_wholeParts hn hlt)
        (Nat.mul_pos hn (Nat.two_pow_pos _))
      have hlog : n.log2 < 53 := (Nat.log2_lt (Nat.ne_of_gt hn)).2 hlt
      exact (storable_roundWithAccuracy _ _ (by omega) (by omega)).isFinite

theorem div_infinity {r y : Float} {n : Nat} {s : Sign} (hr : parts r = .infinity s) (hn : 0 < n)
    (hy : parts y = wholeParts n hn) : parts (r / y) = .infinity s := by
  rw [div_eq, hr, hy]
  refine (parts_infinity _).trans ?_
  cases s <;> rfl

end MatrixCalc.Binary64
