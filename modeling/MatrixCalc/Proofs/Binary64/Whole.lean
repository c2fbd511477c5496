import Mathlib.Algebra.Group.Nat.Defs
import MatrixCalc.Binary64.Integral

/-!
# Whole numbers as floats

A finite number with all 53 bits of its significand comes back from its packed form, and rounding
does not change it when the bits to drop are zero. A natural number below `2 ^ 53` is such a number
once its significand is shifted to full length (`wholeParts`), so it is a float of its own and
`whole?` gives it back.
-/
namespace MatrixCalc.Binary64

open Float.Model (UnpackedFloat Format)
open Float.Model.UnpackedFloat

theorem finite_congr {s s' : Sign} {m m' : Nat} {e e' : Int} {hm : 0 < m} {hm' : 0 < m'}
    (hsign : s = s') (hmantissa : m = m') (hexponent : e = e') :
    UnpackedFloat.finite s m e hm = .finite s' m' e' hm' := by
  subst hsign hmantissa hexponent
  rfl

theorem unpackSign_packComponents (s : Sign) (e : BitVec 11) (m : BitVec 52) :
    unpackSign (packComponents Format.binary64 s e m) = s.toBitVec := by
  have hbit : unpackSign (packComponents Format.binary64 s e m) =
      BitVec.extractLsb' 63 1 (s.toBitVec ++ e ++ m) := rfl
  rw [hbit, BitVec.extractLsb'_append_eq_of_le (by decide),
    BitVec.extractLsb'_append_eq_of_le (by decide)]
  cases s <;> rfl

theorem pack_finite {s : Sign} {m : Nat} {e : Int} (hm : 0 < m) (hfull : m.log2 = 52)
    (hlow : -1074 ≤ e) (hhigh : e ≤ 971) :
    UnpackedFloat.pack Format.binary64 (.finite s m e hm) =
      packComponents Format.binary64 s (.ofNat 11 (e + 1075).toNat) (.ofNat 52 m) := by
  have hbiased : e + (1023 : Nat) + (52 : Nat) = e + 1075 := by omega
  refine (if_neg ?_).trans ((if_pos ?_).trans ?_)
  · change ¬ 2048 ≤ (e + (1023 : Nat) + (52 : Nat)).toNat + 1
    omega
  · rw [hfull]
    rfl
  · rw [← hbiased]
    rfl

theorem toNat_implicit_append (m : BitVec 52) : (1#1 ++ m).toNat = 2 ^ 52 + m.toNat := by
  rw [BitVec.toNat_append, ← Nat.shiftLeft_add_eq_or_of_lt m.isLt]
  rfl

theorem unpack_packComponents (s : Sign) {e : BitVec 11} (m : BitVec 52) (hzero : e ≠ 0#11)
    (htop : e ≠ -1#11) :
    UnpackedFloat.unpack Format.binary64 (packComponents Format.binary64 s e m) =
      .finite s (2 ^ 52 + m.toNat) (e.toNat - 1075) (by omega) := by
  have hexponent : unpackExponent (packComponents Format.binary64 s e m) = e :=
    unpackExponent_packComponents
  rw [← hexponent] at hzero htop
  refine (if_neg htop).trans ((if_neg hzero).trans (finite_congr ?_ ?_ ?_))
  · rw [unpackSign_packComponents]
    cases s <;> rfl
  · rw [unpackMantissa_packComponents, toNat_implicit_append]
  · rw [hexponent]
    rfl

/-- A number that is not subnormal comes back from its packed form. -/
theorem parts_ofParts {s : Sign} {m : Nat} {e : Int} (hm : 0 < m) (hfull : m.log2 = 52)
    (hlow : -1074 ≤ e) (hhigh : e ≤ 971) :
    parts (ofParts (.finite s m e hm)) = .finite s m e hm := by
  obtain ⟨hleast, hmost⟩ := (Nat.log2_eq_iff (Nat.ne_of_gt hm)).1 hfull
  have hexponent : (BitVec.ofNat 11 (e + 1075).toNat).toNat = (e + 1075).toNat := by
    rw [BitVec.toNat_ofNat, Nat.mod_eq_of_lt (by omega)]
  have hzero : BitVec.ofNat 11 (e + 1075).toNat ≠ 0#11 := by
    intro h
    rw [h] at hexponent
    change 0 = _ at hexponent
    omega
  have htop : BitVec.ofNat 11 (e + 1075).toNat ≠ -1#11 := by
    intro h
    rw [h] at hexponent
    change 2047 = _ at hexponent
    omega
  calc parts (ofParts (.finite s m e hm))
      = UnpackedFloat.unpack Format.binary64
          (UnpackedFloat.pack Format.binary64 (.finite s m e hm)) := rfl
    _ = .finite s m e hm := by
      rw [pack_finite hm hfull hlow hhigh, unpack_packComponents s _ hzero htop]
      refine finite_congr rfl ?_ ?_
      · rw [BitVec.toNat_ofNat]
        omega
      · rw [hexponent]
        omega

theorem shiftRight_exact (m k : Nat) :
    ExtendedMantissa.mk (m * 2 ^ k) false false >>> k = ⟨m, false, false⟩ := by
  induction k generalizing m with
  | zero => rw [Nat.pow_zero, Nat.mul_one]; rfl
  | succ k ih =>
    -- One more shift from the right end: the bit it drops is that of an even number.
    have hstep : ExtendedMantissa.mk (m * 2 ^ (k + 1)) false false >>> (k + 1) =
        (ExtendedMantissa.mk (m * 2 * 2 ^ k) false false >>> k).shiftRightOne := by
      rw [Nat.pow_succ', ← Nat.mul_assoc]
      rfl
    rw [hstep, ih]
    simp [ExtendedMantissa.shiftRightOne]

theorem log2_mul_pow {m : Nat} (hm : m ≠ 0) (k : Nat) : (m * 2 ^ k).log2 = m.log2 + k := by
  obtain ⟨hlow, hhigh⟩ := (Nat.log2_eq_iff hm).1 rfl
  refine (Nat.log2_eq_iff (Nat.mul_ne_zero hm (Nat.ne_of_gt (Nat.two_pow_pos k)))).2 ⟨?_, ?_⟩
  · rw [Nat.pow_add]
    exact Nat.mul_le_mul_right _ hlow
  · rw [Nat.add_right_comm, Nat.pow_add]
    exact Nat.mul_lt_mul_of_pos_right hhigh (Nat.two_pow_pos k)

theorem shiftToTargetExponent_exact {m : Nat} {e : Int} (hm : m ≠ 0) (hfull : m.log2 = 52)
    (k : Nat) (hlow : -1074 ≤ e + k) :
    shiftToTargetExponent Format.binary64 (m * 2 ^ k) e .exact = (⟨m, false, false⟩, e + k) := by
  have htarget :
      Format.binary64.targetExponent (Float.Model.totalExponent (m * 2 ^ k) e) = e + k := by
    have hlog : (m * 2 ^ k).log2 = 52 + k := by rw [log2_mul_pow hm, hfull]
    change max ((((m * 2 ^ k).log2 : Nat) : Int) + 1 + e - 53) (-1074) = e + k
    rw [hlog]
    omega
  have hamount : (e + k - e).toNat = k := by omega
  rw [shiftToTargetExponent, htarget, shiftToExponent, hamount]
  exact congrArg (·, _) (shiftRight_exact m k)

/-- Nothing is lost where the bits to drop are zero. -/
theorem roundWithAccuracy_exact {m : Nat} {e : Int} (s : Sign) (hm : 0 < m) (hfull : m.log2 = 52)
    (k : Nat) (hlow : -1074 ≤ e + k) :
    roundWithAccuracy Format.binary64 s (m * 2 ^ k) e .exact = .finite s m (e + k) hm := by
  have hagain := shiftToTargetExponent_exact (e := e + k) (Nat.ne_of_gt hm) hfull 0 (by omega)
  rw [Nat.pow_zero, Nat.mul_one] at hagain
  rw [roundWithAccuracy, shiftToTargetExponent_exact (Nat.ne_of_gt hm) hfull k hlow]
  change (let r := shiftToTargetExponent Format.binary64 m (e + k) .exact
    if h : r.1.mantissa = 0 then UnpackedFloat.zero s
    else .finite s r.1.mantissa r.2 (Nat.pos_of_ne_zero h)) = _
  rw [hagain]
  exact (dif_neg (Nat.ne_of_gt hm)).trans (finite_congr rfl rfl (by omega))

/-- A positive whole number with all bits of the significand. -/
def wholeParts (n : Nat) (hn : 0 < n) : UnpackedFloat :=
  .finite .positive (n * 2 ^ (52 - n.log2)) (-(52 - n.log2 : Nat))
    (Nat.mul_pos hn (Nat.two_pow_pos _))

section

variable {n : Nat}

theorem log2_wholeParts (hn : 0 < n) (hlt : n < 2 ^ 53) : (n * 2 ^ (52 - n.log2)).log2 = 52 := by
  have hlog : n.log2 < 53 := (Nat.log2_lt (Nat.ne_of_gt hn)).2 hlt
  rw [log2_mul_pow (Nat.ne_of_gt hn)]
  omega

theorem round_of_lt (s : Sign) (hn : 0 < n) (hlt : n < 2 ^ 53) :
    UnpackedFloat.round Format.binary64 s n 0 =
      .finite s (n * 2 ^ (52 - n.log2)) (-(52 - n.log2 : Nat))
        (Nat.mul_pos hn (Nat.two_pow_pos _)) := by
  have hexact := roundWithAccuracy_exact (e := -(52 - n.log2 : Nat)) s
    (Nat.mul_pos hn (Nat.two_pow_pos _)) (log2_wholeParts hn hlt) 0 (by omega)
  have htarget : (0 - Format.binary64.targetExponent (Float.Model.totalExponent n 0)).toNat =
      52 - n.log2 := by
    have hlog : n.log2 < 53 := (Nat.log2_lt (Nat.ne_of_gt hn)).2 hlt
    change (0 - max ((n.log2 : Int) + 1 + 0 - 53) (-1074)).toNat = 52 - n.log2
    omega
  rw [Nat.pow_zero, Nat.mul_one] at hexact
  rw [UnpackedFloat.round, decreaseExponent, htarget, Nat.shiftLeft_eq, Int.zero_sub]
  exact hexact.trans (finite_congr rfl rfl (by omega))

theorem parts_wholeParts (hn : 0 < n) (hlt : n < 2 ^ 53) :
    parts (ofParts (wholeParts n hn)) = wholeParts n hn :=
  parts_ofParts _ (log2_wholeParts hn hlt) (by omega) (by omega)

theorem toFloat_toUInt64 (hn : 0 < n) (hlt : n < 2 ^ 53) :
    n.toUInt64.toFloat = ofParts (wholeParts n hn) := by
  have hword : n.toUInt64.toNat = n := Nat.mod_eq_of_lt (by omega)
  have hpositive : compare (n : Int) 0 = .gt := by
    rw [Int.compare_eq_gt]
    omega
  calc n.toUInt64.toFloat
      = ofParts (UnpackedFloat.normalize Format.binary64 n.toUInt64.toNat 0 .positive) := rfl
    _ = ofParts (UnpackedFloat.round Format.binary64 .positive n 0) := by
      rw [hword, UnpackedFloat.normalize, hpositive]
      rfl
    _ = ofParts (wholeParts n hn) := congrArg ofParts (round_of_lt .positive hn hlt)

/-- A numeral is its digits times a power of ten, which for a whole number is one. -/
theorem ofNat_eq_mul (hlt : n < 2 ^ 53) :
    Float.ofNat n = n.toUInt64.toFloat * .ofBits 0x3FF0000000000000 :=
  dif_pos ⟨hlt, Nat.zero_le 22⟩

theorem mul_eq (x y : Float) :
    x * y = ofParts (UnpackedFloat.mul Format.binary64 (parts x) (parts y)) := rfl

theorem parts_one : parts (.ofBits 0x3FF0000000000000) =
    .finite .positive (2 ^ 52) (-52) (Nat.two_pow_pos 52) := rfl

theorem mul_one_wholeParts (hn : 0 < n) (hlt : n < 2 ^ 53) :
    UnpackedFloat.mul Format.binary64 (wholeParts n hn)
      (.finite .positive (2 ^ 52) (-52) (Nat.two_pow_pos 52)) = wholeParts n hn := by
  have hpos := Nat.mul_pos hn (Nat.two_pow_pos (52 - n.log2))
  refine (roundWithAccuracy_exact .positive hpos (log2_wholeParts hn hlt) 52 (by omega)).trans ?_
  exact finite_congr rfl rfl (by omega)

theorem parts_ofNat (hn : 0 < n) (hlt : n < 2 ^ 53) :
    parts (Float.ofNat n) = wholeParts n hn := by
  rw [ofNat_eq_mul hlt, mul_eq, toFloat_toUInt64 hn hlt, parts_wholeParts hn hlt, parts_one,
    mul_one_wholeParts hn hlt, parts_wholeParts hn hlt]

theorem whole?_of_parts {x : Float} {s : Sign} {k : Nat} {hpos : 0 < n * 2 ^ k}
    (h : parts x = .finite s (n * 2 ^ k) (-(k : Int)) hpos) : whole? x = some (s.apply n) := by
  have hmod : n * 2 ^ k % Nat.pow 2 k = 0 := Nat.mul_mod_left n _
  have hdiv : n * 2 ^ k / Nat.pow 2 k = n := Nat.mul_div_cancel n (Nat.two_pow_pos k)
  rw [whole?, h]
  dsimp only
  rw [Int.neg_neg, Int.toNat_natCast, hdiv, if_pos hmod]
  split
  · next hexponent =>
    obtain rfl : k = 0 := by omega
    change some (s.apply (n * 1 * 1 : Nat)) = _
    rw [Nat.mul_one, Nat.mul_one]
  · rfl

/-- Every natural number of at most 53 bits is a float of its own. -/
theorem whole?_ofNat (hlt : n < 2 ^ 53) : whole? (Float.ofNat n) = some (n : Int) := by
  rcases Nat.eq_zero_or_pos n with rfl | hn
  · rfl
  · exact whole?_of_parts (parts_ofNat hn hlt)

end

theorem natural?_eq_some_iff {x : Float} {n : Nat} :
    natural? x = some n ↔ whole? x = some (n : Int) ∧ n ≤ maxSafe := by
  unfold natural?
  constructor
  · intro h
    split at h
    · next z hz =>
      split at h
      · next hrange =>
        cases h
        rw [hz, Int.toNat_of_nonneg hrange.1]
        exact ⟨rfl, by omega⟩
      · cases h
    · cases h
  · rintro ⟨hwhole, hsafe⟩
    rw [hwhole]
    exact if_pos ⟨by omega, by omega⟩

theorem natural32?_eq_some_iff {x : Float} {n : Nat} :
    natural32? x = some n ↔ whole? x = some (n : Int) ∧ n < Nat.pow 2 32 := by
  unfold natural32?
  constructor
  · intro h
    split at h
    · next m hm =>
      split at h
      · next hlt =>
        cases h
        exact ⟨(natural?_eq_some_iff.1 hm).1, hlt⟩
      · cases h
    · cases h
  · rintro ⟨hwhole, hlt⟩
    have hword : Nat.pow 2 32 ≤ maxSafe := by decide
    rw [natural?_eq_some_iff.2 ⟨hwhole, by omega⟩]
    exact if_pos hlt

end MatrixCalc.Binary64
