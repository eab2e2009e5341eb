import Mathlib
import LSystem.Proofs.Number.PositiveSum
import LSystem.Random.Stream
import LSystem.Weight

/-!
# Which draws decide on a number

A number below a bound is looked for among the draws to come, scaled to the bound one after the
other.  The first one below the bound is taken, and with it all that came before
(`DrawStream.FirstBelow.below_eq`); nothing else of the stream matters
(`DrawStream.FirstBelow.of_ahead_eq`).

The search ends whatever the stream holds, if the bound is admissible as a weight.  A stream that
is used up offers the draw zero, and zero scaled to such a bound is below it
(`DrawStream.exists_firstBelow`).
-/

namespace LSystem

open Float.Model

/-! ## Zero as a factor -/

lemma Double.zero_mul_of_pos {x : Float} (hx : 0.0 < x) (hfinite : x.isFinite) :
    0.0 * x = 0.0 := by
  have hunpack : x.toModel.unpack.isFinite := hfinite
  have hmul : UnpackedFloat.mul Format.binary64 (.zero .positive) x.toModel.unpack =
      .zero .positive := by
    rcases (Double.zero_lt_iff_isPositive x).mp hx with hx | ⟨m, e, h, hx⟩
    · rw [hx] at hunpack
      cases hunpack
    · rw [hx]
      rfl
  change Float.ofModel (Float.Model.pack
    (UnpackedFloat.mul Format.binary64 (.zero .positive) x.toModel.unpack)) = 0.0
  rw [hmul]
  rfl

namespace DrawStream

/-! ## Draws to come -/

/-- The stream after some more draws. -/
def skip (s : DrawStream) (count : Nat) : DrawStream :=
  { s with position := s.position + count }

/-- The draw that comes after `k` others. -/
def ahead (s : DrawStream) (k : Nat) : UInt64 := (s.skip k).peek

@[simp] lemma position_skip (s : DrawStream) (n : Nat) :
    (s.skip n).position = s.position + n := rfl

@[simp] lemma skip_skip (s : DrawStream) (m n : Nat) : (s.skip m).skip n = s.skip (m + n) := by
  simp only [skip, Nat.add_assoc]

lemma skip_advance (s : DrawStream) (n : Nat) : s.advance.skip n = s.skip (n + 1) := by
  rw [Nat.add_comm n 1, ← skip_skip]
  rfl

lemma ahead_advance (s : DrawStream) (k : Nat) : s.advance.ahead k = s.ahead (k + 1) := by
  rw [ahead, skip_advance, ahead]

/-- A stream that is used up offers zeros. -/
lemma ahead_of_length_le {s : DrawStream} {k : Nat} (h : s.length ≤ s.position + k) :
    s.ahead k = 0 := if_neg (Nat.not_lt.mpr h)

/-! ## The first draw below a bound -/

/-- Of the draws to come, scaled to a bound, the first one below it comes after `k` others. -/
structure FirstBelow (total : Weight) (s : DrawStream) (k : Nat) : Prop where
  rejected : ∀ j < k, ¬ scale total (s.ahead j) < total
  accepted : scale total (s.ahead k) < total

lemma scale_zero_lt {total : Weight} (h : total.isAdmissible) : scale total 0 < total := by
  obtain ⟨hfinite, hpos⟩ := Weight.isAdmissible_iff.mp h
  have hfraction : fraction 0 = 0.0 := by decide +kernel
  have hzero : (0.0 + 0.0 : Float) = 0.0 := by decide +kernel
  rwa [scale, hfraction, Double.zero_mul_of_pos hpos hfinite, hzero]

/-- The search for a number below an admissible bound ends. -/
lemma exists_firstBelow {total : Weight} (h : total.isAdmissible) (s : DrawStream) :
    ∃ k, FirstBelow total s k := by
  have haccepted : ∃ k, scale total (s.ahead k) < total := by
    refine ⟨s.length, ?_⟩
    rw [ahead_of_length_le (Nat.le_add_left _ _)]
    exact scale_zero_lt h
  classical
  exact ⟨Nat.find haccepted, fun j hj => Nat.find_min haccepted hj, Nat.find_spec haccepted⟩

namespace FirstBelow

variable {total : Weight} {s : DrawStream} {k : Nat}

/-- If the first draw to come is rejected, the search goes on with the others. -/
lemma advance (h : FirstBelow total s (k + 1)) : FirstBelow total s.advance k where
  rejected j hj := by
    rw [ahead_advance]
    exact h.rejected (j + 1) (Nat.succ_lt_succ hj)
  accepted := by
    rw [ahead_advance]
    exact h.accepted

/-- The number is made of the first draw below the bound, and all draws up to it are taken. -/
lemma below_eq (h : FirstBelow total s k) :
    s.below total = (scale total (s.ahead k), s.skip (k + 1)) := by
  induction k generalizing s with
  | zero =>
    rw [below]
    exact if_pos h.accepted
  | succ k ih =>
    have hfirst : ¬ scale total s.peek < total := h.rejected 0 k.succ_pos
    -- A stream that is used up would offer the draw that was rejected again and again.
    have hleft : s.position < s.length := by
      by_contra hused
      have hzero : s.peek = 0 := if_neg hused
      have haccepted := h.accepted
      rw [ahead_of_length_le (by omega), ← hzero] at haccepted
      exact hfirst haccepted
    rw [below]
    simp only [hfirst, hleft, if_true, if_false]
    rw [ih h.advance, ahead_advance, skip_advance]

lemma of_ahead_eq (h : FirstBelow total s k) {t : DrawStream}
    (hahead : ∀ j ≤ k, t.ahead j = s.ahead j) : FirstBelow total t k where
  rejected j hj := by
    rw [hahead j hj.le]
    exact h.rejected j hj
  accepted := by
    rw [hahead k le_rfl]
    exact h.accepted

end FirstBelow

/-- What is drawn below an admissible bound is below it. -/
lemma below_lt {total : Weight} (h : total.isAdmissible) (s : DrawStream) :
    (s.below total).1 < total := by
  obtain ⟨k, hk⟩ := exists_firstBelow h s
  rw [hk.below_eq]
  exact hk.accepted

end DrawStream

end LSystem
