import Mathlib
import LSystem.Turtle.Point

/-!
# Points of numbers

A point is made of numbers if neither of its coordinates is NaN.  These are the points that meet
themselves, and no other point meets anything.
-/

namespace LSystem.Point

/-- Neither coordinate is NaN. -/
structure IsNumber (p : Point) : Prop where
  x : p.x.isNaN = false
  y : p.y.isNaN = false

instance (p : Point) : Decidable p.IsNumber :=
  decidable_of_iff (p.x.isNaN = false ∧ p.y.isNaN = false)
    ⟨fun h => ⟨h.1, h.2⟩, fun h => ⟨h.x, h.y⟩⟩

variable {p q : Point}

lemma isNaN_eq_false_iff {a : Float32} : a.isNaN = false ↔ a ≠ Float32.nan := by
  rw [Float32.isNaN_eq_decide_eq_nan, decide_eq_false_iff_not]

lemma isNumber_iff : p.IsNumber ↔ p.x ≠ Float32.nan ∧ p.y ≠ Float32.nan := by
  rw [← isNaN_eq_false_iff, ← isNaN_eq_false_iff]
  exact ⟨fun h => ⟨h.x, h.y⟩, fun h => ⟨h.1, h.2⟩⟩

lemma meets_iff : p.meets q = true ↔ (p.x == q.x) = true ∧ (p.y == q.y) = true :=
  Bool.and_eq_true_iff

lemma meets_self_iff : p.meets p = true ↔ p.IsNumber := by
  rw [meets_iff, Float32.beq_self_iff, Float32.beq_self_iff, isNumber_iff]

lemma isNumber_of_meets (h : p.meets q = true) : p.IsNumber ∧ q.IsNumber := by
  rw [meets_iff, Float32.beq_iff_ne_nan_and_eq, Float32.beq_iff_ne_nan_and_eq] at h
  obtain ⟨⟨hpx, hqx, -⟩, hpy, hqy, -⟩ := h
  exact ⟨isNumber_iff.mpr ⟨hpx, hpy⟩, isNumber_iff.mpr ⟨hqx, hqy⟩⟩

end LSystem.Point
