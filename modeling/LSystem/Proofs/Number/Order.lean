import Mathlib

/-!
# The order of floating-point numbers

Floating-point numbers are compared in steps: by their signs, then by their exponents, then by their
significands, with zeros and infinities as cases of their own, and what is not a number compares
with nothing.  On all others this is a linear order.  Each of them has a rank, which is three
integers compared one after the other, and numbers compare as their ranks do
(`Ranked.compare_eq_compare_rank`).

So the laws of the order of doubles and of singles are those of the order of ranks, except that of
two of them one is at most the other only if neither is NaN (`Double.le_of_not_lt`,
`Single.le_of_not_lt`).
-/

namespace LSystem

open Float.Model

/-! ## Ranks -/

namespace Ranked

/-- Where a number stands: the sign first, then the exponent and the significand, both turned round
below zero. -/
def rank : UnpackedFloat → ℤ ×ₗ ℤ ×ₗ ℤ
  | .infinity .negative => toLex (-2, toLex (0, 0))
  | .finite .negative m e _ => toLex (-1, toLex (-e, -m))
  | .zero _ | .notANumber => toLex (0, toLex (0, 0))
  | .finite .positive m e _ => toLex (1, toLex (e, m))
  | .infinity .positive => toLex (2, toLex (0, 0))

lemma compare_toLex (s e e' m m' : ℤ) :
    compare (toLex (s, toLex (e, m))) (toLex (s, toLex (e', m'))) =
      (compare e e').then (compare m m') := by
  simp only [Prod.Lex.compare_def, compareLex, compareOn, ofLex_toLex]
  rw [compare_eq_iff_eq.mpr rfl, Ordering.eq_then]

lemma compare_natCast (m m' : ℕ) : compare (m : ℤ) (m' : ℤ) = compare m m' := by
  rw [← cmp_eq_compare, ← cmp_eq_compare]
  exact Nat.strictMono_cast.cmp_map_eq m m'

lemma compare_neg (a b : ℤ) : compare (-a) (-b) = (compare a b).swap := by
  rw [← Std.OrientedOrd.eq_swap, ← cmp_eq_compare, ← cmp_eq_compare]
  have hneg : StrictAnti fun n : ℤ => -n := fun _ _ h => neg_lt_neg h
  exact hneg.cmp_map_eq a b

variable {u v : UnpackedFloat}

lemma compare_eq_compare_rank (hu : u.isNaN = false) (hv : v.isNaN = false) :
    u.compare v = some (compare (rank u) (rank v)) := by
  rcases u with (_ | _) | _ | _ | ⟨_ | _, m, e, h⟩ <;>
    rcases v with (_ | _) | _ | _ | ⟨_ | _, m', e', h'⟩
  case finite.negative.finite.negative =>
    rw [rank, rank, compare_toLex, compare_neg, compare_neg, compare_natCast, ← Ordering.swap_then]
    rfl
  case finite.positive.finite.positive =>
    rw [rank, rank, compare_toLex, compare_natCast]
    rfl
  -- In all other cases the signs decide.
  all_goals first | rfl | contradiction

lemma compare_eq_none (h : ¬ (u.isNaN = false ∧ v.isNaN = false)) : u.compare v = none := by
  cases u <;> cases v <;> first | rfl | exact absurd ⟨rfl, rfl⟩ h

lemma lt_iff : u.lt v = true ↔ (u.isNaN = false ∧ v.isNaN = false) ∧ rank u < rank v := by
  by_cases h : u.isNaN = false ∧ v.isNaN = false
  · rw [UnpackedFloat.lt, compare_eq_compare_rank h.1 h.2, beq_iff_eq, Option.some_inj,
      compare_lt_iff_lt, and_iff_right h]
  · rw [UnpackedFloat.lt, compare_eq_none h]
    exact iff_of_false Bool.false_ne_true fun hlt => h hlt.1

lemma le_iff : u.le v = true ↔ (u.isNaN = false ∧ v.isNaN = false) ∧ rank u ≤ rank v := by
  by_cases h : u.isNaN = false ∧ v.isNaN = false
  · rw [UnpackedFloat.le, compare_eq_compare_rank h.1 h.2, Option.any_some, and_iff_right h,
      ← compare_le_iff_le]
    cases compare (rank u) (rank v) <;> decide
  · rw [UnpackedFloat.le, compare_eq_none h]
    exact iff_of_false Bool.false_ne_true fun hle => h hle.1

lemma beq_iff : u.beq v = true ↔ (u.isNaN = false ∧ v.isNaN = false) ∧ rank u = rank v := by
  by_cases h : u.isNaN = false ∧ v.isNaN = false
  · rw [UnpackedFloat.beq, compare_eq_compare_rank h.1 h.2, beq_iff_eq, Option.some_inj,
      compare_eq_iff_eq, and_iff_right h]
  · rw [UnpackedFloat.beq, compare_eq_none h]
    exact iff_of_false Bool.false_ne_true fun heq => h heq.1

/-! ### Infinities -/

lemma rank_le_infinity (u : UnpackedFloat) : rank u ≤ rank (.infinity .positive) := by
  rcases u with (_ | _) | _ | _ | ⟨_ | _, m, e, h⟩ <;>
    simp only [rank, Prod.Lex.toLex_le_toLex, true_and] <;> omega

lemma rank_infinity_le (u : UnpackedFloat) : rank (.infinity .negative) ≤ rank u := by
  rcases u with (_ | _) | _ | _ | ⟨_ | _, m, e, h⟩ <;>
    simp only [rank, Prod.Lex.toLex_le_toLex, true_and] <;> omega

end Ranked

/-! ## Doubles -/

namespace Double

variable {x y z : Float}

/-- Where a double stands. -/
def rank (x : Float) : ℤ ×ₗ ℤ ×ₗ ℤ := Ranked.rank x.toModel.unpack

lemma lt_iff_rank : x < y ↔ (x.isNaN = false ∧ y.isNaN = false) ∧ rank x < rank y := by
  have hlt : x < y ↔ x.toModel.unpack.lt y.toModel.unpack = true := by
    change decide (x.toModel.unpack.lt y.toModel.unpack = true) = true ↔ _
    exact decide_eq_true_iff
  exact hlt.trans Ranked.lt_iff

lemma le_iff_rank : x ≤ y ↔ (x.isNaN = false ∧ y.isNaN = false) ∧ rank x ≤ rank y := by
  have hle : x ≤ y ↔ x.toModel.unpack.le y.toModel.unpack = true := by
    change decide (x.toModel.unpack.le y.toModel.unpack = true) = true ↔ _
    exact decide_eq_true_iff
  exact hle.trans Ranked.le_iff

lemma lt_irrefl : ¬ x < x := fun h => (lt_iff_rank.mp h).2.false

lemma lt_of_le_of_lt (hxy : x ≤ y) (hyz : y < z) : x < z := by
  rw [le_iff_rank] at hxy
  rw [lt_iff_rank] at hyz ⊢
  exact ⟨⟨hxy.1.1, hyz.1.2⟩, hxy.2.trans_lt hyz.2⟩

/-- Of two numbers, the second is at most the first unless it is greater. -/
lemma le_of_not_lt (hx : x.isNaN = false) (hy : y.isNaN = false) (h : ¬ x < y) : y ≤ x := by
  rw [lt_iff_rank, and_iff_right ⟨hx, hy⟩, not_lt] at h
  exact le_iff_rank.mpr ⟨⟨hy, hx⟩, h⟩

end Double

/-! ## Singles -/

namespace Single

variable {x y z : Float32}

/-- Where a single stands. -/
def rank (x : Float32) : ℤ ×ₗ ℤ ×ₗ ℤ := Ranked.rank x.toModel.unpack

lemma lt_iff_rank : x < y ↔ (x.isNaN = false ∧ y.isNaN = false) ∧ rank x < rank y := by
  have hlt : x < y ↔ x.toModel.unpack.lt y.toModel.unpack = true := by
    change decide (x.toModel.unpack.lt y.toModel.unpack = true) = true ↔ _
    exact decide_eq_true_iff
  exact hlt.trans Ranked.lt_iff

lemma le_iff_rank : x ≤ y ↔ (x.isNaN = false ∧ y.isNaN = false) ∧ rank x ≤ rank y := by
  have hle : x ≤ y ↔ x.toModel.unpack.le y.toModel.unpack = true := by
    change decide (x.toModel.unpack.le y.toModel.unpack = true) = true ↔ _
    exact decide_eq_true_iff
  exact hle.trans Ranked.le_iff

lemma beq_iff_rank :
    (x == y) = true ↔ (x.isNaN = false ∧ y.isNaN = false) ∧ rank x = rank y :=
  Ranked.beq_iff

lemma le_refl (hx : x.isNaN = false) : x ≤ x := le_iff_rank.mpr ⟨⟨hx, hx⟩, le_rfl⟩

lemma le_of_lt (h : x < y) : x ≤ y := by
  rw [lt_iff_rank] at h
  exact le_iff_rank.mpr ⟨h.1, h.2.le⟩

lemma le_trans (hxy : x ≤ y) (hyz : y ≤ z) : x ≤ z := by
  rw [le_iff_rank] at hxy hyz ⊢
  exact ⟨⟨hxy.1.1, hyz.1.2⟩, hxy.2.trans hyz.2⟩

/-- Of two numbers, the second is at most the first unless it is greater. -/
lemma le_of_not_lt (hx : x.isNaN = false) (hy : y.isNaN = false) (h : ¬ x < y) : y ≤ x := by
  rw [lt_iff_rank, and_iff_right ⟨hx, hy⟩, not_lt] at h
  exact le_iff_rank.mpr ⟨⟨hy, hx⟩, h⟩

end Single

end LSystem
