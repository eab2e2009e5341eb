import LSystem.Proofs.Number.Order
import LSystem.Proofs.Number.Rounding

/-!
# Rounding keeps the order

Of two significands that are cut in the same place, the larger one has a larger rest, or the same
rest and residual bits that stand for more, and so it is not rounded to less (`roundedMantissa_le`).
If the leading bit of the larger one is at a higher place, then it is rounded at a higher exponent,
where even the smallest significand is as large as the largest one below after a carry.  So rounding
keeps the order of magnitudes, and with their signs that of exact sums (`rank_normalize_le`), and
packing keeps it, too.

A consequence is that a number less a magnitude is at most the number and the magnitude, unless one
of them is NaN (`Single.sub_abs_le_add_abs`).
-/

namespace LSystem.Ranked

open Float.Model UnpackedFloat Rounding

/-! ## Magnitudes -/

section

variable {a b : ExtendedMantissa}

/-- Where a significand and its residual bits stand among all others. -/
def place (a : ExtendedMantissa) : Nat :=
  4 * a.mantissa + 2 * a.roundBit.toNat + a.stickyBit.toNat

lemma place_shiftRightOne (a : ExtendedMantissa) :
    place a.shiftRightOne = 2 * (place a / 4) + min (place a % 4) 1 := by
  obtain ⟨m, roundBit, stickyBit⟩ := a
  have hbit : (m % 2 != 0).toNat = m % 2 := by
    rcases Nat.mod_two_eq_zero_or_one m with h | h <;> rw [h] <;> rfl
  change 4 * (m / 2) + 2 * (m % 2 != 0).toNat + (roundBit || stickyBit).toNat =
    2 * ((4 * m + 2 * roundBit.toNat + stickyBit.toNat) / 4) +
      min ((4 * m + 2 * roundBit.toNat + stickyBit.toNat) % 4) 1
  rw [hbit]
  cases roundBit <;> cases stickyBit <;>
    simp only [Bool.toNat_false, Bool.toNat_true, Bool.or_false, Bool.or_true] <;> omega

/-- Whatever bits are cut off, what stood higher does not come to stand lower. -/
lemma place_shiftRight_le (h : place a ≤ place b) (n : Nat) :
    place (a >>> n) ≤ place (b >>> n) := by
  induction n with
  | zero => exact h
  | succ n ih =>
    change place (a >>> n).shiftRightOne ≤ place (b >>> n).shiftRightOne
    rw [place_shiftRightOne, place_shiftRightOne]
    omega

/-- What stands higher is not rounded to less. -/
lemma roundedMantissa_le (h : place a ≤ place b) : a.roundedMantissa ≤ b.roundedMantissa := by
  obtain ⟨m, _ | _, _ | _⟩ := a <;> obtain ⟨m', _ | _, _ | _⟩ := b <;>
    simp only [place, Bool.toNat_false, Bool.toNat_true] at h <;>
    simp only [ExtendedMantissa.roundedMantissa, ExtendedMantissa.accuracy,
      Accuracy.roundToNearestEven] <;> omega

end

section

variable (spec : Format) {m m' : Nat}

/-- The larger magnitude has the higher exponent, or else the larger significand. -/
lemma exponent_significand_le (hm : 0 < m) (h : m ≤ m') (e : Int) :
    (exponent spec m e < exponent spec m' e ∧ 0 < significand spec m' e) ∨
      exponent spec m e = exponent spec m' e ∧ significand spec m e ≤ significand spec m' e := by
  have hm' : 0 < m' := hm.trans_le h
  obtain ⟨hle, -⟩ := rounded_bounds spec hm e
  obtain ⟨-, hfull⟩ := rounded_bounds spec hm' e
  have htarget := target_eq spec m e
  have htarget' := target_eq spec m' e
  have hlog : m.log2 ≤ m'.log2 :=
    (Nat.le_log2 (Nat.ne_of_gt hm')).mpr ((Nat.log2_self_le (Nat.ne_of_gt hm)).trans h)
  have hpos := Nat.two_pow_pos spec.mantissaBitsWithoutImplicit
  by_cases heq : target spec m e = target spec m' e
  · -- Cut in the same place, they are rounded in order.
    have hrounded : rounded spec m e ≤ rounded spec m' e := by
      refine roundedMantissa_le ?_
      rw [cut, cut, heq]
      refine place_shiftRight_le ?_ _
      rw [Nat.shiftLeft_eq, Nat.shiftLeft_eq]
      exact Nat.mul_le_mul_left 4 (Nat.mul_le_mul_right _ h)
    rw [exponent, exponent, significand, significand, heq, Nat.pow_succ]
    split <;> split <;> omega
  · -- Rounded at a higher exponent, the larger one has its leading bit in place.
    rw [exponent, exponent, significand, significand]
    split <;> split <;> omega

end

/-! ## Ranks of rounded numbers -/

section

variable {u v : UnpackedFloat}

lemma rank_neg (u : UnpackedFloat) : rank u.neg = -rank u := by
  rcases u with (_ | _) | _ | _ | ⟨_ | _, m, e, h⟩
  case finite.negative => exact (neg_neg (rank (.finite .positive m e h))).symm
  all_goals rfl

lemma neg_signed (m : Nat) (e : Int) : (signed .positive m e).neg = signed .negative m e := by
  rw [signed, signed]
  split <;> rfl

lemma rank_signed (m : Nat) (e : Int) :
    rank (signed .positive m e) = if m = 0 then 0 else toLex (1, toLex (e, (m : ℤ))) := by
  rw [signed]
  split <;> rfl

lemma rank_signed_nonneg (m : Nat) (e : Int) : 0 ≤ rank (signed .positive m e) := by
  rw [rank_signed]
  split
  · exact le_rfl
  · exact Prod.Lex.toLex_le_toLex.mpr (.inl zero_lt_one)

variable (spec : Format) {m m' : Nat} (e : Int)

lemma rank_round_nonneg (hm : 0 < m) : 0 ≤ rank (UnpackedFloat.round spec .positive m e) := by
  rw [round_eq spec _ hm]
  exact rank_signed_nonneg _ _

lemma rank_round_le (hm : 0 < m) (h : m ≤ m') :
    rank (UnpackedFloat.round spec .positive m e) ≤
      rank (UnpackedFloat.round spec .positive m' e) := by
  rw [round_eq spec _ hm, round_eq spec _ (hm.trans_le h), rank_signed, rank_signed]
  split
  next =>
    rw [← rank_signed]
    exact rank_signed_nonneg _ _
  next hne =>
    have hle := exponent_significand_le spec hm h e
    rw [if_neg (by omega), Prod.Lex.toLex_le_toLex, Prod.Lex.toLex_le_toLex]
    refine .inr ⟨rfl, ?_⟩
    rcases hle with ⟨hlt, -⟩ | ⟨heq, hle⟩
    · exact .inl hlt
    · exact .inr ⟨heq, Int.ofNat_le.mpr hle⟩

lemma rank_round_negative (hm : 0 < m) :
    rank (UnpackedFloat.round spec .negative m e) =
      -rank (UnpackedFloat.round spec .positive m e) := by
  rw [round_eq spec _ hm, round_eq spec _ hm, ← neg_signed, rank_neg]

/-! ### Exact sums -/

variable {n n' : Int} (zero : Sign)

lemma rank_normalize_nonneg (hn : 0 ≤ n) : 0 ≤ rank (UnpackedFloat.normalize spec n e zero) := by
  rcases hn.eq_or_lt with rfl | hn
  · exact le_rfl
  · rw [normalize_of_pos spec e zero hn]
    exact rank_round_nonneg spec e (by omega)

lemma rank_normalize_nonpos (hn : n ≤ 0) : rank (UnpackedFloat.normalize spec n e zero) ≤ 0 := by
  rcases hn.eq_or_lt with rfl | hn
  · exact le_rfl
  · have hpos : 0 < (-n).toNat := by omega
    rw [normalize_of_neg spec e zero hn, rank_round_negative spec e hpos]
    exact neg_nonpos.mpr (rank_round_nonneg spec e hpos)

/-- **Rounding keeps the order of exact sums.** -/
lemma rank_normalize_le (h : n ≤ n') :
    rank (UnpackedFloat.normalize spec n e zero) ≤
      rank (UnpackedFloat.normalize spec n' e zero) := by
  by_cases hn : 0 < n
  · rw [normalize_of_pos spec e zero hn, normalize_of_pos spec e zero (hn.trans_le h)]
    exact rank_round_le spec e (by omega) (by omega)
  by_cases hn' : n' < 0
  · have hpos : 0 < (-n').toNat := by omega
    have hpos' : 0 < (-n).toNat := by omega
    rw [normalize_of_neg spec e zero hn', normalize_of_neg spec e zero (h.trans_lt hn'),
      rank_round_negative spec e hpos, rank_round_negative spec e hpos']
    exact neg_le_neg (rank_round_le spec e hpos (by omega))
  · exact (rank_normalize_nonpos spec e zero (not_lt.mp hn)).trans
      (rank_normalize_nonneg spec e zero (not_lt.mp hn'))

/-- The difference with a magnitude is at most the sum with it. -/
lemma rank_sub_le_rank_add (u : UnpackedFloat) (hv : v.abs = v) :
    rank (UnpackedFloat.sub spec u v) ≤ rank (UnpackedFloat.add spec u v) := by
  rcases v with (_ | _) | _ | (_ | _) | ⟨_ | _, m, e, h⟩
  case infinity.negative | zero.negative | finite.negative => cases hv
  case notANumber => cases u <;> exact le_rfl
  case infinity.positive => rcases u with (_ | _) | _ | _ | _ <;> exact of_decide_eq_true rfl
  case zero.positive => rcases u with _ | _ | (_ | _) | _ <;> exact le_rfl
  case finite.positive =>
    rcases u with _ | _ | _ | ⟨s, m', e', h'⟩
    case infinity | notANumber => exact le_rfl
    case zero => exact Prod.Lex.toLex_le_toLex.mpr (.inl (show (-1 : ℤ) < 1 by decide))
    case finite =>
      have hnonneg : 0 ≤ ((m <<< (e - min e' e).toNat : Nat) : Int) := Int.natCast_nonneg _
      refine rank_normalize_le spec _ _ ?_
      exact (sub_le_self _ hnonneg).trans (le_add_of_nonneg_right hnonneg)

/-! ### Packed numbers -/

/-- Packing keeps the order: of two magnitudes the larger one becomes infinite first. -/
lemma rank_saturate_le (h : rank u ≤ rank v) :
    rank (saturate spec u) ≤ rank (saturate spec v) := by
  have hbits : 1 < 2 ^ spec.exponentBits := Nat.one_lt_two_pow (Nat.ne_of_gt spec.he)
  rcases u with (_ | _) | _ | _ | ⟨_ | _, m, e, hm⟩ <;>
    rcases v with (_ | _) | _ | _ | ⟨_ | _, m', e', hm'⟩
  all_goals
    simp only [saturate]
    repeat' split
  all_goals
    simp only [rank, Prod.Lex.toLex_le_toLex, true_and] at h ⊢
    omega

lemma abs_saturate_abs (u : UnpackedFloat) :
    (saturate spec u.abs).abs = saturate spec u.abs := by
  rcases u with _ | _ | _ | ⟨s, m, e, h⟩
  case finite =>
    rw [UnpackedFloat.abs, saturate]
    split_ifs <;> rfl
  all_goals rfl

end

end LSystem.Ranked

/-! ## Singles -/

namespace LSystem.Single

open Float.Model UnpackedFloat Rounding

lemma abs_unpack_abs (r : Float32) : r.abs.toModel.unpack.abs = r.abs.toModel.unpack := by
  have habs : r.abs.toModel.unpack = saturate Format.binary32 r.toModel.unpack.abs :=
    unpack_pack (isCanonical_abs (isCanonical_unpack _))
  rw [habs]
  exact Ranked.abs_saturate_abs _ _

/-- A number less a magnitude is at most the number and the magnitude. -/
theorem sub_abs_le_add_abs {c r : Float32} (hsub : (c - r.abs).isNaN = false)
    (hadd : (c + r.abs).isNaN = false) : c - r.abs ≤ c + r.abs := by
  have hc : IsCanonical Format.binary32 c.toModel.unpack := isCanonical_unpack _
  have hr : IsCanonical Format.binary32 r.abs.toModel.unpack := isCanonical_unpack _
  have hdifference : (c - r.abs).toModel.unpack = saturate Format.binary32
      (UnpackedFloat.sub Format.binary32 c.toModel.unpack r.abs.toModel.unpack) :=
    unpack_pack (isCanonical_sub hc hr)
  have hsum : (c + r.abs).toModel.unpack = saturate Format.binary32
      (UnpackedFloat.add Format.binary32 c.toModel.unpack r.abs.toModel.unpack) :=
    unpack_pack (isCanonical_add hc hr)
  refine le_iff_rank.mpr ⟨⟨hsub, hadd⟩, ?_⟩
  rw [rank, rank, hdifference, hsum]
  exact Ranked.rank_saturate_le _ (Ranked.rank_sub_le_rank_add _ _ (abs_unpack_abs r))

end LSystem.Single
