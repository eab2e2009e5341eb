import LSystem.Proofs.Number.Rounding

/-!
# Sums of positive doubles

The total weight of a rule is a sum of doubles that is rounded after each addition.  Two laws of
that addition are all that the theory of rules asks of it: a sum of two positive numbers is
positive, and adding a positive number to a zero gives the number itself.

A sum of positive numbers, which is computed exactly, keeps a significand above zero when it is
rounded, since its exponent is not below the smallest of the format, and packing can at most make it
infinite.  What is added to zero is not rounded at all, but it is packed again, into the bits from
which it was unpacked.
-/

namespace LSystem.Double

open Float.Model UnpackedFloat Rounding

/-- A number above zero, infinity included. -/
def IsPositive (u : UnpackedFloat) : Prop :=
  u = .infinity .positive ∨ ∃ m e h, u = .finite .positive m e h

lemma isPositive_infinity : IsPositive (.infinity .positive) := .inl rfl

lemma isPositive_finite (m : Nat) (e : Int) (h : 0 < m) : IsPositive (.finite .positive m e h) :=
  .inr ⟨m, e, h, rfl⟩

lemma zero_lt_iff_isPositive (x : Float) : 0.0 < x ↔ IsPositive x.toModel.unpack := by
  have hlt : 0.0 < x ↔ UnpackedFloat.lt (.zero .positive) x.toModel.unpack = true := by
    change decide (UnpackedFloat.lt _ x.toModel.unpack = true) = true ↔ _
    rw [decide_eq_true_iff]
    rfl
  rw [hlt]
  constructor
  · intro h
    cases hx : x.toModel.unpack with
    | notANumber => simp [hx, UnpackedFloat.lt, UnpackedFloat.compare] at h
    | zero s => simp [hx, UnpackedFloat.lt, UnpackedFloat.compare] at h
    | infinity s =>
      cases s with
      | negative => simp [hx, UnpackedFloat.lt, UnpackedFloat.compare] at h
      | positive => exact isPositive_infinity
    | finite s m e hm =>
      cases s with
      | negative => simp [hx, UnpackedFloat.lt, UnpackedFloat.compare] at h
      | positive => exact isPositive_finite m e hm
  · rintro (hx | ⟨m, e, hm, hx⟩) <;> rw [hx] <;> rfl

/-! ## Adding -/

lemma isPositive_saturate {u : UnpackedFloat} (h : IsPositive u) :
    IsPositive (saturate Format.binary64 u) := by
  rcases h with rfl | ⟨m, e, hm, rfl⟩
  · exact isPositive_infinity
  · rw [saturate]
    split
    · exact isPositive_infinity
    · exact isPositive_finite m e hm

/-- A positive sum, at an exponent of the format, is rounded to a positive number. -/
lemma isPositive_normalize {n e : Int} (hn : 0 < n) (he : Format.binary64.minExponent ≤ e) :
    IsPositive (UnpackedFloat.normalize Format.binary64 n e .positive) := by
  have hm : 0 < n.toNat := by omega
  have hpos := significand_pos Format.binary64 hm he
  rw [normalize_of_pos Format.binary64 e .positive hn, round_eq Format.binary64 .positive hm,
    signed, dif_neg (Nat.ne_of_gt hpos)]
  exact isPositive_finite _ _ _

lemma minExponent_le_of_unpack {x : Float} {s : Sign} {m : Nat} {e : Int} {h : 0 < m}
    (hx : x.toModel.unpack = .finite s m e h) : Format.binary64.minExponent ≤ e := by
  have hcanonical : IsCanonical Format.binary64 x.toModel.unpack := isCanonical_unpack _
  rw [hx] at hcanonical
  exact hcanonical.2.1

/-- A sum of positive numbers is positive. -/
theorem add_pos {x y : Float} (hx : 0.0 < x) (hy : 0.0 < y) : 0.0 < x + y := by
  rw [zero_lt_iff_isPositive] at hx hy ⊢
  have hsum : (x + y).toModel.unpack = saturate Format.binary64
      (UnpackedFloat.add Format.binary64 x.toModel.unpack y.toModel.unpack) :=
    unpack_pack (isCanonical_add (isCanonical_unpack _) (isCanonical_unpack _))
  rw [hsum]
  refine isPositive_saturate ?_
  rcases hx with hx | ⟨m, e, h, hx⟩ <;> rcases hy with hy | ⟨m', e', h', hy⟩
  · rw [hx, hy]
    exact isPositive_infinity
  · rw [hx, hy]
    exact isPositive_infinity
  · rw [hx, hy]
    exact isPositive_infinity
  · have he := minExponent_le_of_unpack hx
    have he' := minExponent_le_of_unpack hy
    have hpos : 0 < m <<< (e - min e e').toNat := by
      rw [Nat.shiftLeft_eq]
      exact Nat.mul_pos h (Nat.two_pow_pos _)
    rw [hx, hy]
    refine isPositive_normalize ?_ (le_min he he')
    change 0 < ((m <<< (e - min e e').toNat : Nat) : Int) +
      ((m' <<< (e' - min e e').toNat : Nat) : Int)
    exact Int.add_pos_of_pos_of_nonneg (Int.natCast_pos.mpr hpos) (Int.natCast_nonneg _)

/-- Adding a positive number to a zero, whatever its sign, gives the number. -/
lemma ofModel_pack_zero_add {x : Float} (hx : 0.0 < x) (s : Sign) :
    Float.ofModel (Float.Model.pack
      (UnpackedFloat.add Format.binary64 (.zero s) x.toModel.unpack)) = x := by
  rw [zero_lt_iff_isPositive] at hx
  have hadd : UnpackedFloat.add Format.binary64 (.zero s) x.toModel.unpack =
      x.toModel.unpack := by
    rcases hx with hx | ⟨m, e, h, hx⟩ <;> rw [hx] <;> rfl
  rw [hadd]
  exact Float.ofBits_toBits x

theorem zero_add_of_pos {x : Float} (hx : 0.0 < x) : 0.0 + x = x :=
  ofModel_pack_zero_add hx .positive

theorem neg_zero_add_of_pos {x : Float} (hx : 0.0 < x) : -0.0 + x = x :=
  ofModel_pack_zero_add hx .negative

end LSystem.Double
