import LSystem.Pipeline
import LSystem.Proofs.Interpreter.Brackets

/-!
# Bracketed systems are drawn

Expansion and interpretation meet in the brackets.  Rules that keep their brackets balanced within
a depth let each generation nest deeper by that depth at most, so the nesting of an expansion is
known before a single draw is taken; and an interpreter whose stack is as deep as that draws every
such expansion, whatever the random choices were, and ends with no branch open.
-/

namespace LSystem

open Sequence

/-- **Bracketed systems are drawn.**  Let the rules keep their brackets balanced within `inner`,
and let the seed be balanced within `depth`.  Then every expansion by `n` generations is balanced
within `depth + n * inner`; every interpreter with a stack of that depth, whose table binds the
brackets and lets other symbols alone with saved poses and handlers, draws it and leaves no
branch open; and under the usual bindings it draws one segment for each `F` and each `G`. -/
theorem interpretFrom_expand_of_keepsBrackets {set : RuleSet} {inner depth : Nat}
    (hset : set.KeepsBrackets inner) {seed : Sequence}
    (hseed : brackets.BalancedWithin depth seed) (n : Nat) (stream : DrawStream) :
    brackets.BalancedWithin (depth + n * inner) (set.expand n seed stream).1 ∧
    (∀ i : Interpreter, i.table.BindsBrackets → depth + n * inner ≤ i.config.maxStackDepth →
      ∀ initial, ∃ d, i.interpretFrom (set.expand n seed stream).1 initial = .ok d ∧
        d.openBranches = 0) ∧
    ∀ (i : Interpreter) (angle : Float32), i.table = .standard angle →
      depth + n * inner ≤ i.config.maxStackDepth →
      ∀ initial, ∃ d, i.interpretFrom (set.expand n seed stream).1 initial = .ok d ∧
        d.openBranches = 0 ∧
        d.segments.size = (set.expand n seed stream).1.count 'F' +
          (set.expand n seed stream).1.count 'G' := by
  have hexpansion := hset.expand n hseed stream
  refine ⟨hexpansion, ?_, ?_⟩
  · intro i htable hdepth initial
    obtain ⟨hok, hopen⟩ :=
      Interpreter.exists_interpretFrom_of_balancedWithin htable hdepth hexpansion initial
    exact ⟨_, hok, hopen⟩
  · intro i angle htable hdepth initial
    have hbinds : i.table.BindsBrackets := htable ▸ ActionTable.bindsBrackets_standard angle
    obtain ⟨hok, hopen⟩ :=
      Interpreter.exists_interpretFrom_of_balancedWithin hbinds hdepth hexpansion initial
    refine ⟨_, hok, hopen, ?_⟩
    have hsize := Run.size_segments_afterAll i.handlers (.start initial)
      (i.table.primitives (set.expand n seed stream).1)
    rw [htable, ActionTable.primitives, ActionTable.countP_draws_standard] at hsize
    rw [← Nat.zero_add (_ + _), Interpreter.finalRun, htable]
    exact hsize

/-- Some symbols are replaced by branches and others by segments, as it is drawn, and the branches
are nested as deep as the rules allow and the stack can hold. -/
theorem interpretFrom_expand_of_keepsBrackets_at_full_depth :
    let set := RuleSet.ofList [⟨'X', [⟨1.0, "[XX]".toList⟩, ⟨1.0, "F".toList⟩]⟩]
    let i : Interpreter := { config := { maxStackDepth := 4 }, table := .standard 1.0 }
    let stream := DrawStream.ofList [0, 0, 0x8000000000000000, 0, 0x8000000000000000]
    let expansion := (set.expand 3 "[X]".toList stream).1
    set.KeepsBrackets 1 ∧ brackets.BalancedWithin 1 "[X]".toList ∧
      expansion = "[[[[XX]F]F]]".toList ∧
      brackets.BalancedWithin (1 + 3 * 1) expansion ∧ ¬brackets.BalancedWithin 3 expansion ∧
      ∃ d, i.interpretFrom expansion {} = .ok d ∧ d.openBranches = 0 ∧
        d.segments.size = expansion.count 'F' + expansion.count 'G' ∧ d.segments.size = 2 := by
  intro set i stream expansion
  have hset : set.KeepsBrackets 1 := by
    have hlookup : ∀ c, set.lookup c = if 'X' = c then
        some ⟨'X', [⟨1.0, "[XX]".toList⟩, ⟨1.0, "F".toList⟩]⟩ else none :=
      fun c => RuleSet.lookup_insert _ _ c
    refine ⟨rfl, rfl, ?_⟩
    intro c rule hrule a ha
    rw [hlookup] at hrule
    split_ifs at hrule
    cases hrule
    rcases List.mem_pair.mp ha with rfl | rfl
    · decide
    · decide
  have hseed : brackets.BalancedWithin 1 "[X]".toList := by decide
  have hexpansion : expansion = "[[[[XX]F]F]]".toList := by decide +kernel
  have hfull : ¬brackets.BalancedWithin 3 expansion := by
    rw [hexpansion]
    decide
  obtain ⟨hbalanced, -, hdrawn⟩ := interpretFrom_expand_of_keepsBrackets hset hseed 3 stream
  obtain ⟨d, hd, hopen, hsize⟩ := hdrawn i 1.0 rfl (by decide) {}
  have hcount : expansion.count 'F' + expansion.count 'G' = 2 := by
    rw [hexpansion]
    decide
  exact ⟨hset, hseed, hexpansion, hbalanced, hfull, d, hd, hopen, hsize, hsize.trans hcount⟩

end LSystem
