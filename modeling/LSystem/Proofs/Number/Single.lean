import LSystem.Number.Binary
import LSystem.Proofs.Number.Rounding

/-!
# Singles survive widening

A double has room for every finite single.  Narrowing the double equal to a single therefore gives
the single back, bit by bit, the sign of a zero included (`Single.narrow_widen`).

The argument follows the significand.  Widening moves its leading bit, wherever it is, to the place
of the leading bit of a double, and no exponent of a single is too small for that; narrowing finds
the unit of the single again from the place of that bit, and divides by exactly the power of two
that widening has multiplied with, so that nothing is rounded (`Binary.singleBits_lift`).
-/

namespace LSystem

open Float.Model UnpackedFloat

/-! ## Finite words -/

section

variable {spec : Format}

lemma toNat_unpackExponent (b : BitVec spec.numBits) :
    (unpackExponent b).toNat =
      b.toNat / 2 ^ spec.mantissaBitsWithoutImplicit % 2 ^ spec.exponentBits := by
  rw [unpackExponent_def, BitVec.extractLsb'_toNat, Nat.shiftRight_eq_div_pow]

lemma isFinite_unpack_iff (b : BitVec spec.numBits) :
    (unpack spec b).isFinite ↔
      b.toNat / 2 ^ spec.mantissaBitsWithoutImplicit % 2 ^ spec.exponentBits + 1 <
        2 ^ spec.exponentBits := by
  rw [← toNat_unpackExponent, toNat_add_one_lt_iff, UnpackedFloat.unpack]
  by_cases hones : unpackExponent b = -1#_
  · rw [if_pos hones]
    refine iff_of_false ?_ (not_not_intro hones)
    split <;> exact Bool.false_ne_true
  · rw [if_neg hones]
    refine iff_of_true ?_ hones
    split
    · split <;> rfl
    · rfl

/-- A finite number is packed into the bits from which it was unpacked. -/
lemma pack_unpack_of_isFinite (hspec : 2 ≤ spec.exponentBits) {b : BitVec spec.numBits}
    (h : (unpack spec b).isFinite) : pack spec (unpack spec b) = b := by
  rw [isFinite_unpack_iff, ← toNat_unpackExponent, toNat_add_one_lt_iff] at h
  exact pack_unpack_of_valid ⟨fun hones => absurd hones h⟩ hspec

lemma isNaN_eq_false_of_isFinite {u : UnpackedFloat} (h : u.isFinite) : u.isNaN = false := by
  cases u with
  | notANumber => cases h
  | _ => rfl

lemma isInf_eq_false_of_isFinite {u : UnpackedFloat} (h : u.isFinite) : u.isInf = false := by
  cases u with
  | infinity s => cases h
  | _ => rfl

end

namespace Double

variable {b : UInt64}

lemma isFinite_unpack_of_lt (h : b.toNat % 2 ^ 63 < 2047 * 2 ^ 52) :
    (unpack Format.binary64 b.toBitVec).isFinite := by
  rw [isFinite_unpack_iff]
  change b.toNat / 2 ^ 52 % 2 ^ 11 + 1 < 2 ^ 11
  omega

lemma toBits_ofBits (h : b.toNat % 2 ^ 63 < 2047 * 2 ^ 52) : (Float.ofBits b).toBits = b :=
  congrArg UInt64.ofBitVec (pack_unpack_of_isFinite (by decide) (isFinite_unpack_of_lt h))

lemma isFinite_ofBits (h : b.toNat % 2 ^ 63 < 2047 * 2 ^ 52) : (Float.ofBits b).isFinite := by
  have hfinite := isFinite_unpack_of_lt h
  rwa [← toBits_ofBits h] at hfinite

end Double

/-- Without its sign, a finite single lies below infinity. -/
lemma Single.fields_lt_of_isFinite {x : Float32} (h : x.isFinite) :
    x.toBits.toNat % 2 ^ 31 < 255 * 2 ^ 23 := by
  have hexponent : x.toBits.toNat / 2 ^ 23 % 2 ^ 8 + 1 < 2 ^ 8 :=
    (@isFinite_unpack_iff Format.binary32 x.toBits.toBitVec).mp h
  omega

/-! ## Magnitudes -/

lemma twoPow_eq (n : Nat) : twoPow n = 2 ^ n := rfl

namespace Binary

/-- A magnitude of the single format: a significand of 24 bits, and of exactly so many unless the
exponent is the smallest. -/
structure IsSingle (b : Binary) : Prop where
  significand_lt : b.significand < 2 ^ 24
  le_exponent : -149 ≤ b.exponent
  exponent_le : b.exponent ≤ 104
  full : b.exponent = -149 ∨ 2 ^ 23 ≤ b.significand

/-- The same magnitude with a significand of 53 bits. -/
def lift (b : Binary) : Binary :=
  ⟨b.significand * twoPow (52 - b.significand.log2), b.exponent + b.significand.log2 - 52⟩

namespace IsSingle

variable {b : Binary}

lemma log2_le (h : b.IsSingle) : b.significand.log2 ≤ 23 := by
  by_cases hzero : b.significand = 0
  · rw [hzero]
    decide
  · exact Nat.le_of_lt_succ ((Nat.log2_lt hzero).mpr h.significand_lt)

lemma log2_eq (h : b.IsSingle) : b.exponent = -149 ∨ b.significand.log2 = 23 := by
  refine h.full.imp_right fun hfull => ?_
  have hzero : b.significand ≠ 0 := by omega
  exact Nat.le_antisymm h.log2_le ((Nat.le_log2 hzero).mpr hfull)

end IsSingle

/-- A lifted significand has 53 bits. -/
lemma lift_bounds {b : Binary} (h : b.IsSingle) (hpos : 0 < b.significand) :
    2 ^ 52 ≤ b.lift.significand ∧ b.lift.significand < 2 ^ 53 := by
  have hle := h.log2_le
  have hlow := Nat.log2_self_le (Nat.ne_of_gt hpos)
  have hhigh := @Nat.lt_log2_self b.significand
  constructor
  · calc 2 ^ 52 = 2 ^ b.significand.log2 * 2 ^ (52 - b.significand.log2) := by
          rw [← Nat.pow_add, show b.significand.log2 + (52 - b.significand.log2) = 52 by omega]
      _ ≤ b.significand * 2 ^ (52 - b.significand.log2) := Nat.mul_le_mul_right _ hlow
  · calc b.significand * 2 ^ (52 - b.significand.log2)
        < 2 ^ (b.significand.log2 + 1) * 2 ^ (52 - b.significand.log2) :=
          Nat.mul_lt_mul_of_pos_right hhigh (Nat.two_pow_pos _)
      _ = 2 ^ 53 := by
          rw [← Nat.pow_add, show b.significand.log2 + 1 + (52 - b.significand.log2) = 53 by omega]

lemma doubleBits_eq {b : Binary} (hpos : 0 < b.significand) :
    b.doubleBits =
      b.lift.significand + (b.exponent + b.significand.log2 + 1022).toNat * 2 ^ 52 :=
  if_neg (Nat.ne_of_gt hpos)

/-- A double with the bits of a magnitude has the lifted magnitude. -/
lemma ofFloat_of_bits {b : Binary} (h : b.IsSingle) (hpos : 0 < b.significand) {x : Float}
    (hx : x.toBits.toNat % 2 ^ 63 = b.doubleBits) : ofFloat x = b.lift := by
  obtain ⟨hlow, hhigh⟩ := lift_bounds h hpos
  have hle := h.le_exponent
  rw [doubleBits_eq hpos] at hx
  simp only [ofFloat, twoPow_eq, hx]
  rw [if_neg (by omega)]
  change _ = Binary.mk b.lift.significand (b.exponent + b.significand.log2 - 52)
  congr 1 <;> omega

/-- Nothing is rounded when a lifted magnitude is narrowed. -/
lemma singleBits_lift {b : Binary} (h : b.IsSingle) (hpos : 0 < b.significand) :
    b.lift.singleBits =
      min (b.significand + (b.exponent + 149).toNat * 2 ^ 23) 0x7F800000 := by
  obtain ⟨hlow, hhigh⟩ := lift_bounds h hpos
  have hlift : b.lift.significand ≠ 0 := by omega
  have hlog : b.lift.significand.log2 = 52 := (Nat.log2_eq_iff hlift).mpr ⟨hlow, hhigh⟩
  have hexponent : b.lift.exponent = b.exponent + b.significand.log2 - 52 := rfl
  have hle := h.log2_le
  have hunit : b.lift.singleUnit = b.exponent := by
    have hlog' := h.log2_eq
    have hlow' := h.le_exponent
    rw [singleUnit, hlog, hexponent]
    omega
  have hsignificand : b.lift.singleSignificand = b.significand := by
    have hshift : (b.lift.exponent - b.exponent).toNat = 0 := by omega
    have hshift' : (-(b.lift.exponent - b.exponent)).toNat = 52 - b.significand.log2 := by omega
    simp only [singleSignificand, hunit, hshift, hshift', twoPow_zero, Nat.mul_one]
    exact roundDiv_mul_right _ (twoPow_pos _)
  rw [singleBits, if_neg hlift, hsignificand, hunit]
  rfl

/-! ## Decoded singles -/

lemma doubleBits_lt {b : Binary} (h : b.IsSingle) : b.doubleBits < 2047 * 2 ^ 52 := by
  rcases Nat.eq_zero_or_pos b.significand with hzero | hpos
  · rw [doubleBits, if_pos hzero]
    decide
  · have hhigh := (lift_bounds h hpos).2
    have hle := h.log2_le
    have hexponent := h.exponent_le
    rw [doubleBits_eq hpos]
    omega

section

variable {x : Float32}

lemma ofSingle_of_subnormal (h : x.toBits.toNat % 2 ^ 31 / 2 ^ 23 = 0) :
    ofSingle x = ⟨x.toBits.toNat % 2 ^ 31 % 2 ^ 23, -149⟩ :=
  if_pos h

lemma ofSingle_of_normal (h : x.toBits.toNat % 2 ^ 31 / 2 ^ 23 ≠ 0) :
    ofSingle x = ⟨2 ^ 23 + x.toBits.toNat % 2 ^ 31 % 2 ^ 23,
      (x.toBits.toNat % 2 ^ 31 / 2 ^ 23 : Nat) - 150⟩ :=
  if_neg h

lemma isSingle_ofSingle (h : x.isFinite) : (ofSingle x).IsSingle := by
  have hlt := Single.fields_lt_of_isFinite h
  by_cases hzero : x.toBits.toNat % 2 ^ 31 / 2 ^ 23 = 0
  · rw [ofSingle_of_subnormal hzero]
    exact ⟨by dsimp only; omega, Int.le_refl _, show (-149 : Int) ≤ 104 by decide, .inl rfl⟩
  · rw [ofSingle_of_normal hzero]
    exact ⟨by dsimp only; omega, by dsimp only; omega, by dsimp only; omega,
      .inr (Nat.le_add_right _ _)⟩

/-- The bits of a single without its sign: a significand that is full carries into the field of the
exponent. -/
lemma fields_ofSingle (x : Float32) :
    (ofSingle x).significand + ((ofSingle x).exponent + 149).toNat * 2 ^ 23 =
      x.toBits.toNat % 2 ^ 31 := by
  by_cases hzero : x.toBits.toNat % 2 ^ 31 / 2 ^ 23 = 0
  · have hexponent : ((-149 : Int) + 149).toNat = 0 := rfl
    simp only [ofSingle_of_subnormal hzero, hexponent, Nat.zero_mul]
    omega
  · rw [ofSingle_of_normal hzero]
    change 2 ^ 23 + x.toBits.toNat % 2 ^ 31 % 2 ^ 23 +
      (((x.toBits.toNat % 2 ^ 31 / 2 ^ 23 : Nat) : Int) - 150 + 149).toNat * 2 ^ 23 = _
    omega

end

/-- A double with the bits of the magnitude of a finite single is narrowed to the bits of that
single. -/
lemma singleBits_ofFloat {x : Float32} (h : x.isFinite) {y : Float}
    (hy : y.toBits.toNat % 2 ^ 63 = (ofSingle x).doubleBits) :
    (ofFloat y).singleBits = x.toBits.toNat % 2 ^ 31 := by
  have hsingle := isSingle_ofSingle h
  have hfields := fields_ofSingle x
  have hlt := Single.fields_lt_of_isFinite h
  rcases Nat.eq_zero_or_pos (ofSingle x).significand with hzero | hpos
  · have hexponent := hsingle.full
    have hbits : (ofSingle x).doubleBits = 0 := if_pos hzero
    have hbiased : y.toBits.toNat % 2 ^ 63 / 2 ^ 52 = 0 := by rw [hy, hbits, Nat.zero_div]
    have hfloat : ofFloat y = ⟨y.toBits.toNat % 2 ^ 63 % 2 ^ 52, -1074⟩ := if_pos hbiased
    rw [hfloat, hy, hbits, ← hfields]
    change 0 = _
    omega
  · rw [ofFloat_of_bits hsingle hpos hy, singleBits_lift hsingle hpos, hfields]
    omega

end Binary

/-! ## Widening and narrowing -/

namespace Single

lemma widen_of_isFinite {x : Float32} (h : x.isFinite) :
    widen x = Float.ofBits (.ofNat ((Binary.ofSingle x).doubleBits +
      if x.toBits.toNat < 2 ^ 31 then 0 else 2 ^ 63)) := by
  have hnan : x.isNaN = false := isNaN_eq_false_of_isFinite h
  have hinf : x.isInf = false := isInf_eq_false_of_isFinite h
  simp only [widen, hnan, hinf, Bool.false_eq_true, if_false]
  rfl

lemma narrow_of_isFinite {x : Float} (h : x.isFinite) :
    narrow x = (Binary.ofFloat x).toSingle (decide (2 ^ 63 ≤ x.toBits.toNat)) := by
  have hnan : x.isNaN = false := isNaN_eq_false_of_isFinite h
  have hinf : x.isInf = false := isInf_eq_false_of_isFinite h
  simp only [narrow, hnan, hinf, Bool.false_eq_true, if_false]
  rfl

/-- A finite single comes back from the double equal to it. -/
theorem narrow_widen {x : Float32} (h : x.isFinite) : narrow (widen x) = x := by
  have hdouble := Binary.doubleBits_lt (Binary.isSingle_ofSingle h)
  have hword := x.toBits.toNat_lt
  obtain ⟨b, hb⟩ : ∃ b, b = (Binary.ofSingle x).doubleBits +
      if x.toBits.toNat < 2 ^ 31 then 0 else 2 ^ 63 := ⟨_, rfl⟩
  have hnat : (UInt64.ofNat b).toNat = b := by
    rw [UInt64.toNat_ofNat']
    apply Nat.mod_eq_of_lt
    split at hb <;> omega
  have hmagnitude : b % 2 ^ 63 = (Binary.ofSingle x).doubleBits := by
    split at hb <;> omega
  have hfinite : (UInt64.ofNat b).toNat % 2 ^ 63 < 2047 * 2 ^ 52 := by
    rwa [hnat, hmagnitude]
  have hbits := Double.toBits_ofBits hfinite
  have hsign : decide (2 ^ 63 ≤ b) = decide (2 ^ 31 ≤ x.toBits.toNat) := by
    rw [decide_eq_decide]
    split at hb <;> omega
  rw [widen_of_isFinite h, ← hb, narrow_of_isFinite (Double.isFinite_ofBits hfinite),
    Binary.toSingle, Binary.singleBits_ofFloat h (by rw [hbits, hnat, hmagnitude]), hbits, hnat,
    hsign]
  refine Eq.trans (congrArg Float32.ofBits ?_) x.ofBits_toBits
  apply UInt32.toNat_inj.mp
  simp only [UInt32.toNat_ofNat', decide_eq_true_eq, twoPow_eq]
  split <;> omega

end Single

end LSystem
