import LSystem.Proofs.Bracketing
import LSystem.Proofs.Interpreter.Outcome

/-!
# Heights as excesses

Saving a pose opens a branch and restoring one closes it.  Under this bracketing of primitives,
`Primitive.branching`, the height of a run that met no fault is the excess of the primitives that
it obeyed (`heightAfterAll_eq`), and no more than the depth allowed
(`heightAfterAll_le_maxStackDepth`).

A run that starts lower meets no fault either, as long as it does not reach the ground
(`firstFault?_eq_none_of_le`).
-/

namespace LSystem

/-- Pushes open branches, and pops close them. -/
def Primitive.branching : Bracketing Primitive where
  opens p := decide (p.command = .push)
  closes p := decide (p.command = .pop)

namespace Primitive

/-! ## The excess of single primitives -/

@[simp] lemma excess_push (place : Occurrence) : branching.excess [⟨place, .push⟩] = 1 := by
  simp [Bracketing.excess, branching]

@[simp] lemma excess_pop (place : Occurrence) : branching.excess [⟨place, .pop⟩] = -1 := by
  simp [Bracketing.excess, branching]

lemma excess_of_ne {p : Primitive} (hpush : p.command ≠ .push) (hpop : p.command ≠ .pop) :
    branching.excess [p] = 0 := by
  simp [Bracketing.excess, branching, hpush, hpop]

/-- A primitive without a fault changes the height by its excess. -/
lemma heightAfter_eq {limits : Limits} {height : Nat} {p : Primitive}
    (h : limits.fault? height p = none) :
    (p.heightAfter height : Int) = height + branching.excess [p] := by
  obtain ⟨place, c⟩ := p
  cases c with
  | push =>
    rw [excess_push]
    rfl
  | pop =>
    have hheight : height ≠ 0 := by
      intro hzero
      simp [Limits.fault?, hzero] at h
    rw [excess_pop]
    simp only [heightAfter]
    omega
  | _ =>
    rw [excess_of_ne (by simp) (by simp), Int.add_zero]
    rfl

/-! ## Runs without a fault -/

lemma heightAfterAll_eq {limits : Limits} {height : Nat} {ps : List Primitive}
    (h : limits.firstFault? height ps = none) :
    (heightAfterAll height ps : Int) = height + branching.excess ps := by
  induction ps generalizing height with
  | nil => simp [heightAfterAll]
  | cons p ps ih =>
    rw [Limits.firstFault?, Option.or_eq_none_iff] at h
    have hstep := heightAfter_eq h.1
    have hrest := ih h.2
    have hexcess : branching.excess (p :: ps) = branching.excess [p] + branching.excess ps :=
      branching.excess_append [p] ps
    have hheight : heightAfterAll height (p :: ps) =
        heightAfterAll (p.heightAfter height) ps := rfl
    omega

lemma heightAfter_le_maxStackDepth {limits : Limits} {height : Nat} {p : Primitive}
    (h : limits.fault? height p = none) (hle : height ≤ limits.maxStackDepth) :
    p.heightAfter height ≤ limits.maxStackDepth := by
  obtain ⟨place, c⟩ := p
  cases c with
  | push =>
    have hroom : ¬ limits.maxStackDepth ≤ height := by
      intro hfull
      simp [Limits.fault?, hfull] at h
    simp only [heightAfter]
    omega
  | pop =>
    simp only [heightAfter]
    omega
  | _ => exact hle

lemma heightAfterAll_le_maxStackDepth {limits : Limits} {height : Nat} {ps : List Primitive}
    (h : limits.firstFault? height ps = none) (hle : height ≤ limits.maxStackDepth) :
    heightAfterAll height ps ≤ limits.maxStackDepth := by
  induction ps generalizing height with
  | nil => exact hle
  | cons p ps ih =>
    rw [Limits.firstFault?, Option.or_eq_none_iff] at h
    exact ih h.2 (heightAfter_le_maxStackDepth h.1 hle)

end Primitive

/-! ## Runs at different heights -/

namespace Limits

open Primitive

/-- What meets no fault at a height meets none at a lower one, unless it is a pop on the ground. -/
lemma fault?_eq_none_of_le {limits : Limits} {height lower : Nat} {p : Primitive}
    (h : limits.fault? height p = none) (hle : lower ≤ height)
    (hground : 0 ≤ lower + branching.excess [p]) : limits.fault? lower p = none := by
  obtain ⟨place, c⟩ := p
  cases c with
  | push =>
    have hroom : ¬ limits.maxStackDepth ≤ height := by
      intro hfull
      simp [fault?, hfull] at h
    have hroom' : ¬ limits.maxStackDepth ≤ lower := by omega
    simp [fault?, hroom']
  | pop =>
    rw [excess_pop] at hground
    have hlower : lower ≠ 0 := by omega
    simp [fault?, hlower]
  | custom name params => exact h
  | _ => rfl

/-- Primitives that meet no fault from a height on meet none from a lower one, if they do not go
below the ground from there. -/
lemma firstFault?_eq_none_of_le {limits : Limits} {height lower : Nat} {ps : List Primitive}
    (h : limits.firstFault? height ps = none) (hle : lower ≤ height)
    (hground : ∀ qs, qs <+: ps → 0 ≤ lower + branching.excess qs) :
    limits.firstFault? lower ps = none := by
  induction ps generalizing height lower with
  | nil => rfl
  | cons p ps ih =>
    rw [firstFault?, Option.or_eq_none_iff] at h ⊢
    have hfault : limits.fault? lower p = none :=
      fault?_eq_none_of_le h.1 hle (hground [p] ⟨ps, rfl⟩)
    have hheight := heightAfter_eq h.1
    have hlower := heightAfter_eq hfault
    refine ⟨hfault, ih h.2 (by omega) ?_⟩
    intro qs hqs
    have hcons : branching.excess (p :: qs) = branching.excess [p] + branching.excess qs :=
      branching.excess_append [p] qs
    have hbegin := hground (p :: qs) ((List.prefix_cons_inj p).mpr hqs)
    omega

end Limits

end LSystem
