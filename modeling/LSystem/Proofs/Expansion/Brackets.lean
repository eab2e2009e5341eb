import LSystem.Expansion
import LSystem.Proofs.Bracketing

/-!
# Brackets in expansions

Rules that keep their brackets to themselves keep a whole expansion bracketed.  Every pass puts
balanced blocks in the places of symbols that are no brackets, and leaves the brackets alone, so
the excess of a prefix that ends between two blocks is that of the symbols which the blocks came
from, and inside a block it is larger by no more than the depth of the block.  Each generation can
therefore nest deeper by the depth of the rules, and no more (`KeepsBrackets.expand`).
-/

namespace LSystem

/-- The opening and the closing bracket. -/
def Sequence.brackets : Bracketing Symbol where
  opens c := c == '['
  closes c := c == ']'

open Sequence

/-- Brackets have no rules, and what other symbols are replaced by is balanced within a depth. -/
structure RuleSet.KeepsBrackets (set : RuleSet) (depth : Nat) : Prop where
  lookup_opening : set.lookup '[' = none
  lookup_closing : set.lookup ']' = none
  balancedWithin : ∀ c rule, set.lookup c = some rule →
    ∀ a ∈ rule.alternatives, brackets.BalancedWithin depth a.replacement

lemma excess_of_ne_brackets {c : Symbol} (hopening : c ≠ '[') (hclosing : c ≠ ']') :
    brackets.excess [c] = 0 := by
  simp [Bracketing.excess, brackets, hopening, hclosing]

namespace RuleSet.KeepsBrackets

variable {set : RuleSet} {inner : Nat}

/-- A symbol stays as it is, or is no bracket and becomes a balanced block. -/
lemma successor_cases (h : set.KeepsBrackets inner) (c : Symbol) (s : DrawStream) :
    (set.successor c s).1 = [c] ∨
      brackets.excess [c] = 0 ∧ brackets.BalancedWithin inner (set.successor c s).1 := by
  cases hlookup : set.lookup c with
  | none =>
    rw [successor_of_lookup_eq_none hlookup]
    exact .inl rfl
  | some rule =>
    have hopening : c ≠ '[' := by
      rintro rfl
      simp [h.lookup_opening] at hlookup
    have hclosing : c ≠ ']' := by
      rintro rfl
      simp [h.lookup_closing] at hlookup
    rw [successor_of_lookup_eq_some hlookup]
    refine .inr ⟨excess_of_ne_brackets hopening hclosing, ?_⟩
    by_cases hnil : rule.alternatives = []
    · rw [Rule.select_of_alternatives_eq_nil hnil]
      exact Bracketing.balancedWithin_of_forall inner (by simp)
    · obtain ⟨a, ha, heq⟩ := Rule.exists_select_eq hnil s
      rw [heq]
      exact h.balancedWithin c rule hlookup a ha

/-- One pass keeps the excess, and its prefixes go deeper by no more than the rules do. -/
lemma step (h : set.KeepsBrackets inner) {depth : Nat} {cs : Sequence}
    (hcs : brackets.Within depth cs) (s : DrawStream) :
    brackets.excess (set.step cs s).1 = brackets.excess cs ∧
      brackets.Within (depth + inner) (set.step cs s).1 := by
  induction cs using List.reverseRecOn with
  | nil => exact ⟨rfl, Bracketing.within_nil _⟩
  | append_singleton cs c ih =>
    obtain ⟨hexcess, hwithin⟩ := ih hcs.left
    have hroom := hcs.left.excess
    have hlast := hcs.excess
    rw [step_append, step_singleton]
    rcases h.successor_cases c (set.step cs s).2 with hsame | ⟨hzero, hblock⟩
    · rw [hsame]
      have hsum : brackets.excess ((set.step cs s).1 ++ [c]) = brackets.excess (cs ++ [c]) := by
        rw [Bracketing.excess_append, Bracketing.excess_append, hexcess]
      exact ⟨hsum, hwithin.concat (by omega)⟩
    · have hsum : brackets.excess ((set.step cs s).1 ++ (set.successor c (set.step cs s).2).1) =
          brackets.excess (cs ++ [c]) := by
        rw [Bracketing.excess_append, Bracketing.excess_append, hexcess, hblock.total, hzero]
      exact ⟨hsum, hwithin.append (by omega) hblock⟩

/-- Each generation goes deeper by no more than the rules do. -/
lemma expand (h : set.KeepsBrackets inner) (n : Nat) {depth : Nat} {cs : Sequence}
    (hcs : brackets.BalancedWithin depth cs) (s : DrawStream) :
    brackets.BalancedWithin (depth + n * inner) (set.expand n cs s).1 := by
  induction n generalizing depth cs s with
  | zero => simpa using hcs
  | succ n ih =>
    obtain ⟨hwithin, htotal⟩ := Bracketing.balancedWithin_iff.mp hcs
    obtain ⟨hexcess, hnext⟩ := h.step hwithin s
    have hgeneration : brackets.BalancedWithin (depth + inner) (set.step cs s).1 :=
      Bracketing.balancedWithin_iff.mpr ⟨hnext, hexcess.trans htotal⟩
    have hdepth : depth + inner + n * inner = depth + (n + 1) * inner := by
      rw [Nat.succ_mul]
      omega
    rw [expand_succ, ← hdepth]
    exact ih hgeneration _

end RuleSet.KeepsBrackets

end LSystem
