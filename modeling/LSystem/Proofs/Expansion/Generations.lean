import Mathlib.Algebra.BigOperators.Group.List.Basic
import Mathlib.Algebra.Ring.Nat
import Mathlib.Logic.Function.Iterate
import LSystem.Expansion

/-!
# Ways to expand

A sequence can be expanded in four ways: by a number of passes at once, by one pass after another,
by the calls of an expander, and by asking for generation after generation.  All of them thread one
random stream through the same passes, and so they agree, in the sequence and in what they leave of
the stream.

Expanding by `n + m` passes is expanding by `n` and then by `m` (`RuleSet.expand_add`).  The other
ways are reduced to that law: a pass is an expansion by one, an expander carries the stream that
the rule set would hand on (`Expander.expand_eq`), and what is left of the generations after `k` of
them is the expander that an expansion by the last of them leaves (`Generations.next_iterate`).
-/

namespace LSystem

/-! ## Passes -/

namespace RuleSet

variable (set : RuleSet)

/-- Expanding by some passes, and the result by some more. -/
lemma expand_add (n m : Nat) (current : Sequence) (s : DrawStream) :
    set.expand (n + m) current s =
      set.expand m (set.expand n current s).1 (set.expand n current s).2 := by
  induction n generalizing current s with
  | zero => rw [Nat.zero_add, expand_zero]
  | succ n ih => rw [Nat.succ_add, expand_succ, ih, expand_succ]

lemma expand_eq_iterate (n : Nat) (current : Sequence) (s : DrawStream) :
    set.expand n current s = (fun p => set.step p.1 p.2)^[n] (current, s) := by
  induction n generalizing current s with
  | zero => rfl
  | succ n ih => rw [expand_succ, ih, Function.iterate_succ_apply]

end RuleSet

/-! ## Calls of an expander -/

namespace Expander

variable (e : Expander)

/-- An expander keeps its rules, and hands its stream on. -/
lemma expand_eq (n : Nat) (current : Sequence) :
    e.expand n current =
      ((e.rules.expand n current e.stream).1,
        ⟨e.rules, (e.rules.expand n current e.stream).2⟩) := rfl

lemma step_eq_expand (current : Sequence) : e.step current = e.expand 1 current := rfl

lemma expand_add (n m : Nat) (current : Sequence) :
    e.expand (n + m) current = (e.expand n current).2.expand m (e.expand n current).1 := by
  simp only [expand_eq, RuleSet.expand_add]

lemma expand_succ (n : Nat) (current : Sequence) :
    e.expand (n + 1) current = (e.expand n current).2.step (e.expand n current).1 := by
  rw [expand_add, step_eq_expand]

lemma expand_eq_iterate (n : Nat) (current : Sequence) :
    e.expand n current = (fun p => p.2.step p.1)^[n] (current, e) := by
  induction n with
  | zero => rfl
  | succ n ih => rw [expand_succ, Function.iterate_succ_apply', ← ih]

/-- Any number of calls in a row is one call for all their passes. -/
lemma foldl_expand (calls : List Nat) (current : Sequence) :
    calls.foldl (fun p n => p.2.expand n p.1) (current, e) = e.expand calls.sum current := by
  induction calls generalizing current e with
  | nil => rfl
  | cons n calls ih => rw [List.foldl_cons, List.sum_cons, expand_add, ← ih]

end Expander

/-! ## Generations -/

namespace Generations

/-- What comes after the next generation. -/
abbrev rest (g : Generations) : Generations := g.next.2

/-- When `k` generations have been taken, the next one is what `k` passes give, and the expander
inside has taken the draws of these passes and no others. -/
lemma next_iterate (e : Expander) (seed : Sequence) (k : Nat) :
    (rest^[k] (e.generations seed)).next =
      ((e.expand k seed).1, ⟨(e.expand k seed).2, (e.expand k seed).1, true⟩) := by
  induction k with
  | zero => rfl
  | succ k ih =>
    have hrest : rest^[k + 1] (e.generations seed) =
        ⟨(e.expand k seed).2, (e.expand k seed).1, true⟩ := by
      rw [Function.iterate_succ_apply', rest, ih]
    rw [hrest, Expander.expand_succ]
    rfl

lemma take_eq (count : Nat) (g : Generations) :
    g.take count = (List.range count).map fun k => (rest^[k] g).next.1 := by
  induction count generalizing g with
  | zero => rfl
  | succ count ih =>
    rw [List.range_succ_eq_map, List.map_cons, List.map_map]
    change g.next.1 :: take count g.rest = _
    rw [ih]
    rfl

end Generations

/-- **All ways to expand agree.**  Expanding by `n + m` passes is expanding by `n` and then by `m`
on the stream that is left, and it is as many single passes; the same holds of the calls of one
expander, however the passes are spread over them; and generation `k` is what a fresh expander of
the same stream gives for `k` passes, generation `0` being the sequence itself with no draw
taken. -/
theorem expand_paths_agree (set : RuleSet) (stream : DrawStream) (seed : Sequence) :
    (∀ n m, set.expand (n + m) seed stream =
      set.expand m (set.expand n seed stream).1 (set.expand n seed stream).2) ∧
    (∀ n, set.expand n seed stream = (fun p => set.step p.1 p.2)^[n] (seed, stream)) ∧
    let e : Expander := ⟨set, stream⟩
    (∀ n, e.expand n seed =
      ((set.expand n seed stream).1, ⟨set, (set.expand n seed stream).2⟩)) ∧
    e.step seed = e.expand 1 seed ∧
    (∀ calls : List Nat, calls.foldl (fun p n => p.2.expand n p.1) (seed, e) =
      e.expand calls.sum seed) ∧
    (∀ n, e.expand n seed = (fun p => p.2.step p.1)^[n] (seed, e)) ∧
    (∀ count, (e.generations seed).take count =
      (List.range count).map fun k => (e.expand k seed).1) ∧
    (∀ k, (Generations.rest^[k] (e.generations seed)).next =
      ((e.expand k seed).1, ⟨(e.expand k seed).2, (e.expand k seed).1, true⟩)) ∧
    (e.generations seed).next = (seed, ⟨e, seed, true⟩) := by
  refine ⟨fun n m => set.expand_add n m seed stream, fun n => set.expand_eq_iterate n seed stream,
    ?_⟩
  intro e
  refine ⟨fun n => e.expand_eq n seed, e.step_eq_expand seed, fun calls => e.foldl_expand calls seed,
    fun n => e.expand_eq_iterate n seed, ?_, fun k => Generations.next_iterate e seed k, rfl⟩
  intro count
  rw [Generations.take_eq]
  simp only [Generations.next_iterate]

end LSystem
