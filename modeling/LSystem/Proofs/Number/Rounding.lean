import Mathlib

/-!
# Rounding and packing

What an operation computes exactly is rounded to a format and packed into a word.  Rounding goes in
steps.  The significand is lengthened, or else cut, to the exponent at which it is rounded; the bits
that are cut off decide whether the rest is taken as it is or one more; and if that carries into one
bit too many, the significand is shifted once more.  So a magnitude is rounded to a `significand` at
an `exponent` (`round_eq`).

They are in the canonical form of the format: the significand has the bits of the format, and all of
them unless the exponent is the smallest (`isCanonical_round`).  A number in this form is read back
from the word into which it is packed, unless its magnitude is too large and it becomes infinite
(`unpack_pack`).  All this is said of any format, for the arithmetic of doubles and of singles.
-/

namespace LSystem

open Float.Model UnpackedFloat

/-- The exponents of finite numbers leave room for one more. -/
lemma toNat_add_one_lt_iff {w : Nat} {e : BitVec w} : e.toNat + 1 < 2 ^ w ↔ e ≠ -1#w := by
  have hlt := e.isLt
  rw [BitVec.neg_one_eq_allOnes, ne_eq, ← BitVec.toNat_inj, BitVec.toNat_allOnes]
  omega

namespace Rounding

/-! ## Residual bits -/

lemma mantissa_shiftRight (a : ExtendedMantissa) (n : Nat) :
    (a >>> n).mantissa = a.mantissa / 2 ^ n := by
  induction n with
  | zero => exact (Nat.div_one _).symm
  | succ n ih =>
    change (a >>> n).mantissa / 2 = _
    rw [ih, Nat.div_div_eq_div_mul, Nat.pow_succ]

lemma le_roundedMantissa (a : ExtendedMantissa) : a.mantissa ≤ a.roundedMantissa := by
  obtain ⟨m, _ | _, _ | _⟩ := a <;>
    simp only [ExtendedMantissa.roundedMantissa, ExtendedMantissa.accuracy,
      Accuracy.roundToNearestEven] <;> omega

lemma roundedMantissa_le_succ (a : ExtendedMantissa) : a.roundedMantissa ≤ a.mantissa + 1 := by
  obtain ⟨m, _ | _, _ | _⟩ := a <;>
    simp only [ExtendedMantissa.roundedMantissa, ExtendedMantissa.accuracy,
      Accuracy.roundToNearestEven] <;> omega

/-! ## What a magnitude is rounded to -/

section

variable (spec : Format) {m : Nat} {e : Int}

/-- The exponent at which a magnitude is rounded. -/
def target (m : Nat) (e : Int) : Int := spec.targetExponent (totalExponent m e)

/-- The significand at that exponent, before rounding. -/
def cut (m : Nat) (e : Int) : ExtendedMantissa :=
  ExtendedMantissa.ofMantissaAndAccuracy (m <<< (e - target spec m e).toNat) .exact >>>
    (target spec m e - e).toNat

/-- The significand at that exponent, rounded.  Rounding may carry into one bit too many. -/
def rounded (m : Nat) (e : Int) : Nat := (cut spec m e).roundedMantissa

lemma target_eq (m : Nat) (e : Int) :
    target spec m e = max (m.log2 + e - spec.mantissaBitsWithoutImplicit) spec.minExponent := by
  rw [target, Format.targetExponent, totalExponent, Format.mantissaBits]
  omega

lemma minExponent_le_target (m : Nat) (e : Int) : spec.minExponent ≤ target spec m e := by
  rw [target_eq]
  exact le_max_right _ _

lemma log2_mul_two_pow (hm : 0 < m) (k : Nat) : (m * 2 ^ k).log2 = m.log2 + k := by
  have hpos : m * 2 ^ k ≠ 0 := Nat.ne_of_gt (Nat.mul_pos hm (Nat.two_pow_pos k))
  refine (Nat.log2_eq_iff hpos).mpr ⟨?_, ?_⟩
  · rw [Nat.pow_add]
    exact Nat.mul_le_mul_right _ (Nat.log2_self_le (Nat.ne_of_gt hm))
  · rw [Nat.add_right_comm, Nat.pow_add]
    exact Nat.mul_lt_mul_of_pos_right Nat.lt_log2_self (Nat.two_pow_pos k)

/-- What is cut off leaves the bits of the format, and all of them above the smallest exponent. -/
lemma mantissa_cut_bounds (hm : 0 < m) (e : Int) :
    (cut spec m e).mantissa < 2 ^ (spec.mantissaBitsWithoutImplicit + 1) ∧
      (target spec m e = spec.minExponent ∨
        2 ^ spec.mantissaBitsWithoutImplicit ≤ (cut spec m e).mantissa) := by
  have htarget := target_eq spec m e
  have hlow := Nat.log2_self_le (Nat.ne_of_gt hm)
  have hhigh := @Nat.lt_log2_self m
  rw [cut, mantissa_shiftRight, ExtendedMantissa.ofMantissaAndAccuracy, Nat.shiftLeft_eq]
  refine ⟨?_, ?_⟩
  · rw [Nat.div_lt_iff_lt_mul (Nat.two_pow_pos _), ← Nat.pow_add]
    calc m * 2 ^ (e - target spec m e).toNat
        < 2 ^ (m.log2 + 1) * 2 ^ (e - target spec m e).toNat :=
          Nat.mul_lt_mul_of_pos_right hhigh (Nat.two_pow_pos _)
      _ = 2 ^ (m.log2 + 1 + (e - target spec m e).toNat) := (Nat.pow_add ..).symm
      _ ≤ _ := Nat.pow_le_pow_right Nat.two_pos (by omega)
  · rw [or_iff_not_imp_left]
    intro hne
    rw [Nat.le_div_iff_mul_le (Nat.two_pow_pos _), ← Nat.pow_add]
    calc 2 ^ (spec.mantissaBitsWithoutImplicit + (target spec m e - e).toNat)
        = 2 ^ (m.log2 + (e - target spec m e).toNat) := congrArg _ (by omega)
      _ = 2 ^ m.log2 * 2 ^ (e - target spec m e).toNat := Nat.pow_add ..
      _ ≤ _ := Nat.mul_le_mul_right _ hlow

lemma rounded_bounds (hm : 0 < m) (e : Int) :
    rounded spec m e ≤ 2 ^ (spec.mantissaBitsWithoutImplicit + 1) ∧
      (target spec m e = spec.minExponent ∨
        2 ^ spec.mantissaBitsWithoutImplicit ≤ rounded spec m e) := by
  obtain ⟨hlt, hfull⟩ := mantissa_cut_bounds spec hm e
  have hle := le_roundedMantissa (cut spec m e)
  have hsucc := roundedMantissa_le_succ (cut spec m e)
  exact ⟨by rw [rounded]; omega, hfull.imp_right fun h => h.trans hle⟩

/-- The significand after the carry. -/
def significand (m : Nat) (e : Int) : Nat :=
  if rounded spec m e < 2 ^ (spec.mantissaBitsWithoutImplicit + 1) then rounded spec m e
  else 2 ^ spec.mantissaBitsWithoutImplicit

/-- The exponent after the carry. -/
def exponent (m : Nat) (e : Int) : Int :=
  if rounded spec m e < 2 ^ (spec.mantissaBitsWithoutImplicit + 1) then target spec m e
  else target spec m e + 1

/-- What is not below the smallest exponent of the format is not rounded to zero. -/
lemma significand_pos (hm : 0 < m) (he : spec.minExponent ≤ e) : 0 < significand spec m e := by
  have hpos := Nat.two_pow_pos spec.mantissaBitsWithoutImplicit
  have hcut : 0 < (cut spec m e).mantissa := by
    rcases (mantissa_cut_bounds spec hm e).2 with htarget | hfull
    · have hshift : (spec.minExponent - e).toNat = 0 := by omega
      rw [cut, mantissa_shiftRight, ExtendedMantissa.ofMantissaAndAccuracy, Nat.shiftLeft_eq,
        htarget, hshift, Nat.pow_zero, Nat.div_one]
      exact Nat.mul_pos hm (Nat.two_pow_pos _)
    · exact hpos.trans_le hfull
  have hle := le_roundedMantissa (cut spec m e)
  rw [significand, rounded]
  split <;> omega

lemma shiftToTargetExponent_eq (q : Nat) (t : Int) :
    (shiftToTargetExponent spec q t .exact).1.mantissa = q / 2 ^ (target spec q t - t).toNat ∧
      (shiftToTargetExponent spec q t .exact).2 = t + (target spec q t - t).toNat :=
  ⟨mantissa_shiftRight _ _, rfl⟩

/-- The second shift takes back the bit into which rounding has carried. -/
lemma shiftToTargetExponent_rounded (hm : 0 < m) (e : Int) :
    (shiftToTargetExponent spec (rounded spec m e) (target spec m e) .exact).1.mantissa =
        significand spec m e ∧
      (shiftToTargetExponent spec (rounded spec m e) (target spec m e) .exact).2 =
        exponent spec m e := by
  obtain ⟨hmantissa, hexponent⟩ :=
    shiftToTargetExponent_eq spec (rounded spec m e) (target spec m e)
  have hmin := minExponent_le_target spec m e
  rw [hmantissa, hexponent, significand, exponent]
  split
  next hlt =>
    have hlog : (rounded spec m e).log2 ≤ spec.mantissaBitsWithoutImplicit := by
      by_cases hzero : rounded spec m e = 0
      · rw [hzero]
        exact Nat.zero_le _
      · exact Nat.le_of_lt_succ ((Nat.log2_lt hzero).mpr hlt)
    have hshift :
        (target spec (rounded spec m e) (target spec m e) - target spec m e).toNat = 0 := by
      rw [target_eq spec (rounded spec m e)]
      omega
    rw [hshift]
    exact ⟨Nat.div_one _, Int.add_zero _⟩
  next hge =>
    have heq : rounded spec m e = 2 ^ (spec.mantissaBitsWithoutImplicit + 1) :=
      Nat.le_antisymm (rounded_bounds spec hm e).1 (Nat.le_of_not_lt hge)
    have hshift :
        (target spec (rounded spec m e) (target spec m e) - target spec m e).toNat = 1 := by
      rw [target_eq spec (rounded spec m e), heq, Nat.log2_two_pow]
      omega
    rw [hshift, heq, Nat.pow_succ]
    exact ⟨Nat.mul_div_cancel _ Nat.two_pos, rfl⟩

/-- The number with a significand that may be zero. -/
def signed (s : Sign) (m : Nat) (e : Int) : UnpackedFloat :=
  if h : m = 0 then .zero s else .finite s m e (Nat.pos_of_ne_zero h)

lemma roundWithAccuracy_eq (s : Sign) {a : ExtendedMantissa} {t : Int}
    (h : shiftToTargetExponent spec m e .exact = (a, t)) :
    roundWithAccuracy spec s m e .exact =
      signed s (shiftToTargetExponent spec a.roundedMantissa t .exact).1.mantissa
        (shiftToTargetExponent spec a.roundedMantissa t .exact).2 := by
  rw [roundWithAccuracy, h]
  rfl

/-- A magnitude is rounded to its significand at its exponent. -/
lemma round_eq (s : Sign) (hm : 0 < m) (e : Int) :
    UnpackedFloat.round spec s m e = signed s (significand spec m e) (exponent spec m e) := by
  -- The significand is lengthened to the exponent first, or else cut to it: only one of the two
  -- changes anything.
  have hcut : shiftToTargetExponent spec (m <<< (e - target spec m e).toNat)
      (e - (e - target spec m e).toNat) .exact = (cut spec m e, target spec m e) := by
    have htarget : target spec (m <<< (e - target spec m e).toNat)
        (e - (e - target spec m e).toNat) = target spec m e := by
      rw [Nat.shiftLeft_eq, target_eq, log2_mul_two_pow hm, target_eq]
      omega
    have hshift : (target spec m e - (e - (e - target spec m e).toNat)).toNat =
        (target spec m e - e).toNat := by omega
    change shiftToExponent _ _ _ (target spec _ _) = _
    rw [htarget, shiftToExponent, hshift]
    refine Prod.ext rfl ?_
    change e - (e - target spec m e).toNat + (target spec m e - e).toNat = target spec m e
    omega
  obtain ⟨hmantissa, hexponent⟩ := shiftToTargetExponent_rounded spec hm e
  rw [← hmantissa, ← hexponent]
  exact roundWithAccuracy_eq spec s hcut

end

/-! ### Exact sums -/

section

variable (spec : Format) {n : Int} (e : Int) (zero : Sign)

lemma normalize_of_pos (hn : 0 < n) :
    UnpackedFloat.normalize spec n e zero = UnpackedFloat.round spec .positive n.toNat e := by
  rw [UnpackedFloat.normalize, Int.compare_eq_gt.mpr hn]

lemma normalize_of_neg (hn : n < 0) :
    UnpackedFloat.normalize spec n e zero = UnpackedFloat.round spec .negative (-n).toNat e := by
  rw [UnpackedFloat.normalize, Int.compare_eq_lt.mpr hn]

end

/-! ## Canonical forms -/

section

variable {spec : Format}

/-- A finite number has a significand with the bits of the format, and with all of them unless its
exponent is the smallest. -/
def IsCanonical (spec : Format) : UnpackedFloat → Prop
  | .finite _ m e _ => m < 2 ^ (spec.mantissaBitsWithoutImplicit + 1) ∧ spec.minExponent ≤ e ∧
      (e = spec.minExponent ∨ 2 ^ spec.mantissaBitsWithoutImplicit ≤ m)
  | _ => True

lemma isCanonical_round (s : Sign) {m : Nat} (hm : 0 < m) (e : Int) :
    IsCanonical spec (UnpackedFloat.round spec s m e) := by
  obtain ⟨hle, hfull⟩ := rounded_bounds spec hm e
  have hmin := minExponent_le_target spec m e
  have hpos := Nat.two_pow_pos spec.mantissaBitsWithoutImplicit
  rw [round_eq spec s hm, signed]
  split
  next => trivial
  next =>
    rw [IsCanonical, significand, exponent, Nat.pow_succ]
    rw [Nat.pow_succ] at hle
    split <;> omega

lemma isCanonical_normalize (n e : Int) (zero : Sign) :
    IsCanonical spec (UnpackedFloat.normalize spec n e zero) := by
  rcases lt_trichotomy n 0 with hn | rfl | hn
  · rw [normalize_of_neg spec e zero hn]
    exact isCanonical_round _ (by omega) e
  · trivial
  · rw [normalize_of_pos spec e zero hn]
    exact isCanonical_round _ (by omega) e

variable {u v : UnpackedFloat}

lemma isCanonical_add (hu : IsCanonical spec u) (hv : IsCanonical spec v) :
    IsCanonical spec (UnpackedFloat.add spec u v) := by
  rcases u with (_ | _) | _ | (_ | _) | _ <;> rcases v with (_ | _) | _ | (_ | _) | _
  case finite.finite => exact isCanonical_normalize _ _ _
  all_goals trivial

lemma isCanonical_sub (hu : IsCanonical spec u) (hv : IsCanonical spec v) :
    IsCanonical spec (UnpackedFloat.sub spec u v) := by
  rcases u with (_ | _) | _ | (_ | _) | _ <;> rcases v with (_ | _) | _ | (_ | _) | _
  case finite.finite => exact isCanonical_normalize _ _ _
  all_goals trivial

lemma isCanonical_abs (hu : IsCanonical spec u) : IsCanonical spec u.abs := by
  cases u <;> exact hu

lemma minExponent_eq (spec : Format) :
    spec.minExponent = 1 - (spec.exponentBias + spec.mantissaBitsWithoutImplicit : Int) := by
  have hpos := Nat.two_pow_pos (spec.exponentBits - 1)
  rw [Format.minExponent, Format.exponentBias, Format.mantissaBits]
  push_cast [Nat.cast_sub hpos]
  omega

/-- The leading bit, which is not stored, and the others. -/
lemma toNat_one_append {w : Nat} (m : BitVec w) : (1#1 ++ m).toNat = 2 ^ w + m.toNat := by
  rw [BitVec.toNat_append, ← Nat.shiftLeft_add_eq_or_of_lt m.isLt, Nat.shiftLeft_eq]
  simp

lemma isCanonical_unpack (b : BitVec spec.numBits) : IsCanonical spec (unpack spec b) := by
  have hlt := (unpackMantissa b).isLt
  rw [UnpackedFloat.unpack]
  split
  next => split <;> trivial
  next hones =>
    split
    next hzero =>
      split
      next => trivial
      next =>
        rw [IsCanonical, hzero, minExponent_eq, Nat.pow_succ, BitVec.toNat_ofNat, Nat.zero_mod]
        omega
    next hzero =>
      have hpos : (unpackExponent b).toNat ≠ 0 := fun h => hzero (BitVec.eq_of_toNat_eq h)
      rw [IsCanonical, toNat_one_append, minExponent_eq, Nat.pow_succ]
      omega

/-! ### Packing -/

/-- What a number becomes when it is packed: too large a magnitude becomes infinite. -/
def saturate (spec : Format) : UnpackedFloat → UnpackedFloat
  | .finite s m e h =>
    if 2 ^ spec.exponentBits ≤
        (e + spec.exponentBias + spec.mantissaBitsWithoutImplicit).toNat + 1 then .infinity s
    else .finite s m e h
  | u => u

lemma unpack_packedInfinity (s : Sign) : unpack spec (packedInfinity spec s) = .infinity s := by
  simp [packedInfinity, UnpackedFloat.unpack]

lemma ofNat_ne_zero {w n : Nat} (hpos : 0 < n) (hlt : n < 2 ^ w) : BitVec.ofNat w n ≠ 0#w := by
  intro h
  have hzero := congrArg BitVec.toNat h
  rw [BitVec.toNat_ofNat, BitVec.toNat_ofNat, Nat.zero_mod, Nat.mod_eq_of_lt hlt] at hzero
  exact Nat.ne_of_gt hpos hzero

lemma toNat_ofNat_of_lt {w n : Nat} (h : n < 2 ^ w) : (BitVec.ofNat w n).toNat = n := by
  rw [BitVec.toNat_ofNat, Nat.mod_eq_of_lt h]

lemma finite_congr {s : Sign} {m m' : Nat} {e e' : Int} {h : 0 < m} {h' : 0 < m'} (hm : m = m')
    (he : e = e') : UnpackedFloat.finite s m e h = .finite s m' e' h' := by
  subst hm he
  rfl

/-- A significand with all bits is packed without its leading one. -/
lemma unpack_packComponents_full (s : Sign) {m E : Nat} (h : 0 < m)
    (hlow : 2 ^ spec.mantissaBitsWithoutImplicit ≤ m)
    (hhigh : m < 2 ^ (spec.mantissaBitsWithoutImplicit + 1)) (hpos : 0 < E)
    (hlt : E + 1 < 2 ^ spec.exponentBits) :
    unpack spec (packComponents spec s (BitVec.ofNat _ E) (BitVec.ofNat _ m)) =
      .finite s m (E - (spec.exponentBias + spec.mantissaBitsWithoutImplicit)) h := by
  have hE : (BitVec.ofNat spec.exponentBits E).toNat = E := toNat_ofNat_of_lt (by omega)
  have hones : BitVec.ofNat spec.exponentBits E ≠ -1#_ := by
    rwa [← toNat_add_one_lt_iff, hE]
  have hzero : BitVec.ofNat spec.exponentBits E ≠ 0#_ := ofNat_ne_zero hpos (by omega)
  have hm : (1#1 ++ BitVec.ofNat spec.mantissaBitsWithoutImplicit m).toNat = m := by
    rw [toNat_one_append, BitVec.toNat_ofNat]
    rw [Nat.pow_succ] at hhigh
    rw [Nat.mod_eq_sub_mod hlow, Nat.mod_eq_of_lt (by omega)]
    omega
  simp only [UnpackedFloat.unpack, unpackExponent_packComponents, unpackMantissa_packComponents,
    unpackSign_packComponents]
  rw [if_neg hones, if_neg hzero, Sign.ofBitVec_toBitVec]
  exact finite_congr hm (by rw [hE])

/-- A significand without the leading bit is packed as it is. -/
lemma unpack_packComponents_low (s : Sign) {m : Nat} (h : 0 < m)
    (hlow : m < 2 ^ spec.mantissaBitsWithoutImplicit) :
    unpack spec (packComponents spec s 0#_ (BitVec.ofNat _ m)) =
      .finite s m spec.minExponent h := by
  have hones : (0#_ : BitVec spec.exponentBits) ≠ -1#_ := by
    rw [← toNat_add_one_lt_iff]
    exact Nat.one_lt_two_pow (Nat.ne_of_gt spec.he)
  simp only [UnpackedFloat.unpack, unpackExponent_packComponents, unpackMantissa_packComponents,
    unpackSign_packComponents]
  rw [if_neg hones, if_pos trivial, dif_neg (ofNat_ne_zero h hlow), Sign.ofBitVec_toBitVec]
  refine finite_congr (toNat_ofNat_of_lt hlow) ?_
  rw [minExponent_eq, BitVec.toNat_ofNat, Nat.zero_mod]
  omega

/-- A canonical number is read from the bits into which it is packed. -/
lemma unpack_pack (hu : IsCanonical spec u) :
    unpack spec (UnpackedFloat.pack spec u) = saturate spec u := by
  cases u with
  | infinity s => exact unpack_packedInfinity s
  | notANumber => exact unpack_packedNaN
  | zero s => exact unpack_packedZero
  | finite s m e h =>
    obtain ⟨hhigh, hmin, hfull⟩ := hu
    rw [minExponent_eq] at hmin
    rw [UnpackedFloat.pack, saturate]
    split
    next => exact unpack_packedInfinity s
    next hexponent =>
      by_cases hlow : m < 2 ^ spec.mantissaBitsWithoutImplicit
      · have hlog := (Nat.log2_lt (Nat.ne_of_gt h)).mpr hlow
        rw [if_neg (by rw [Format.mantissaBits]; omega), unpack_packComponents_low s h hlow]
        exact finite_congr rfl (hfull.resolve_right (by omega)).symm
      · have hlog : m.log2 = spec.mantissaBitsWithoutImplicit :=
          (Nat.log2_eq_iff (Nat.ne_of_gt h)).mpr ⟨by omega, hhigh⟩
        rw [if_pos (by rw [Format.mantissaBits]; omega),
          unpack_packComponents_full s h (by omega) hhigh (by omega) (by omega)]
        exact finite_congr rfl (by omega)

end

end Rounding

end LSystem
