import Mathlib.Data.List.Infix
import Mathlib.Data.List.Induction

/-!
# Bracketings

In a sequence some letters open a level and some close one: the brackets of a text, or the
commands that save and restore a pose.  A `Bracketing` says which letters do, and the `excess` of
a sequence is the number of levels that it opens minus the number that it closes.

A sequence is `Balanced` if no prefix of it closes more than it opens and the whole closes all
that it opens; it is `BalancedWithin` a depth if moreover no prefix leaves more levels open than
that depth.  Both are statements about prefixes, and excesses add up over concatenation, so that
most arguments are inductions that add one letter, or one block of letters, at the end.
-/

namespace LSystem

/-- Which letters open a level, and which close one. -/
structure Bracketing (α : Type) where
  opens : α → Bool
  closes : α → Bool

namespace Bracketing

variable {α : Type} (b : Bracketing α)

/-- The number of letters that open a level minus the number of those that close one. -/
def excess (s : List α) : Int := s.countP b.opens - s.countP b.closes

/-- Nothing is closed before it is opened, and all that is opened is closed. -/
structure Balanced (s : List α) : Prop where
  nonneg : ∀ p, p <+: s → 0 ≤ b.excess p
  total : b.excess s = 0

/-- Balanced, and no more levels than `depth` are open at any place. -/
structure BalancedWithin (depth : Nat) (s : List α) : Prop extends b.Balanced s where
  le_depth : ∀ p, p <+: s → b.excess p ≤ depth

/-- The part of being balanced within a depth that prefixes inherit. -/
def Within (depth : Nat) (s : List α) : Prop :=
  ∀ p, p <+: s → 0 ≤ b.excess p ∧ b.excess p ≤ depth

variable {b}

lemma balanced_iff {s : List α} :
    b.Balanced s ↔ (∀ p ∈ s.inits, 0 ≤ b.excess p) ∧ b.excess s = 0 := by
  simp only [List.mem_inits]
  exact ⟨fun h => ⟨h.nonneg, h.total⟩, fun h => ⟨h.1, h.2⟩⟩

lemma balancedWithin_iff {depth : Nat} {s : List α} :
    b.BalancedWithin depth s ↔ b.Within depth s ∧ b.excess s = 0 := by
  constructor
  · intro h
    exact ⟨fun p hp => ⟨h.nonneg p hp, h.le_depth p hp⟩, h.total⟩
  · rintro ⟨hwithin, htotal⟩
    exact ⟨⟨fun p hp => (hwithin p hp).1, htotal⟩, fun p hp => (hwithin p hp).2⟩

instance (s : List α) : Decidable (b.Balanced s) := decidable_of_iff _ balanced_iff.symm

instance (depth : Nat) (s : List α) : Decidable (b.Within depth s) :=
  decidable_of_iff (∀ p ∈ s.inits, 0 ≤ b.excess p ∧ b.excess p ≤ depth)
    (by simp only [List.mem_inits, Within])

instance (depth : Nat) (s : List α) : Decidable (b.BalancedWithin depth s) :=
  decidable_of_iff _ balancedWithin_iff.symm

variable (b)

/-! ## Excess -/

@[simp] lemma excess_nil : b.excess [] = 0 := rfl

@[simp] lemma excess_append (s t : List α) : b.excess (s ++ t) = b.excess s + b.excess t := by
  simp only [excess, List.countP_append]
  omega

lemma excess_eq_zero_of_forall {s : List α}
    (h : ∀ a ∈ s, b.opens a = false ∧ b.closes a = false) : b.excess s = 0 := by
  have hopens : s.countP b.opens = 0 := List.countP_eq_zero.mpr fun a ha => by simp [(h a ha).1]
  have hcloses : s.countP b.closes = 0 := List.countP_eq_zero.mpr fun a ha => by simp [(h a ha).2]
  simp [excess, hopens, hcloses]

/-! ## Adding at the end -/

variable {b}

lemma prefix_append_cases {p s t : List α} (h : p <+: s ++ t) :
    p <+: s ∨ ∃ q, q <+: t ∧ p = s ++ q := by
  obtain ⟨rest, hrest⟩ := h
  rcases List.append_eq_append_iff.mp hrest with ⟨q, rfl, rfl⟩ | ⟨q, rfl, rfl⟩
  · exact .inl (List.prefix_append _ _)
  · exact .inr ⟨q, List.prefix_append _ _, rfl⟩

lemma within_nil (depth : Nat) : b.Within depth [] := by
  intro p hp
  simp [List.prefix_nil.mp hp]

lemma Within.left {depth : Nat} {s t : List α} (h : b.Within depth (s ++ t)) :
    b.Within depth s := fun p hp => h p (List.prefix_append_of_prefix hp)

lemma Within.excess {depth : Nat} {s : List α} (h : b.Within depth s) :
    0 ≤ b.excess s ∧ b.excess s ≤ depth := h s List.prefix_rfl

lemma Within.concat {depth : Nat} {s : List α} {a : α} (h : b.Within depth s)
    (hlast : 0 ≤ b.excess (s ++ [a]) ∧ b.excess (s ++ [a]) ≤ depth) :
    b.Within depth (s ++ [a]) := by
  intro p hp
  rcases List.prefix_concat_iff.mp hp with rfl | hp
  · exact hlast
  · exact h p hp

/-- A balanced block may be added where the excess leaves room for its own depth. -/
lemma Within.append {depth inner : Nat} {s block : List α} (h : b.Within (depth + inner) s)
    (hs : 0 ≤ b.excess s ∧ b.excess s ≤ depth) (hblock : b.BalancedWithin inner block) :
    b.Within (depth + inner) (s ++ block) := by
  intro p hp
  rcases prefix_append_cases hp with hp | ⟨q, hq, rfl⟩
  · exact h p hp
  · have hlow := hblock.nonneg q hq
    have hhigh := hblock.le_depth q hq
    rw [excess_append]
    omega

lemma balancedWithin_of_forall (depth : Nat) {s : List α}
    (h : ∀ a ∈ s, b.opens a = false ∧ b.closes a = false) : b.BalancedWithin depth s := by
  have hbegin : ∀ p, p <+: s → b.excess p = 0 := by
    intro p hp
    exact b.excess_eq_zero_of_forall fun a ha => h a (hp.subset ha)
  rw [balancedWithin_iff]
  refine ⟨?_, hbegin s List.prefix_rfl⟩
  intro p hp
  rw [hbegin p hp]
  omega

end Bracketing

end LSystem
