import LSystem.Proofs.Expansion.Brackets
import LSystem.Proofs.Interpreter.Height

/-!
# Interpreting bracketed sequences

A table may bind the brackets to saving and restoring the pose and let no other symbol touch the
saved poses or call a handler.  Under such a table the excess of a sequence in brackets is its
excess in open branches, so a sequence that is balanced within the depth allowed is drawn.

The usual bindings are such a table.  Under them each of `F` and `G` draws one segment, and
nothing else draws any.
-/

namespace LSystem

open Sequence Primitive

/-- Commands that touch no saved pose and call no handler. -/
structure Command.Inert (c : Command) : Prop where
  ne_push : c ≠ .push
  ne_pop : c ≠ .pop
  ne_custom : ∀ name params, c ≠ .custom name params

/-- The brackets save and restore the pose, and other symbols have inert commands only. -/
structure ActionTable.BindsBrackets (table : ActionTable) : Prop where
  get?_opening : table.get? '[' = some (.command .push)
  get?_closing : table.get? ']' = some (.command .pop)
  inert : ∀ c action, table.get? c = some action → c ≠ '[' → c ≠ ']' →
    ∀ command ∈ action.commands, command.Inert

/-! ## Inert commands -/

lemma Limits.firstFault?_eq_none_of_inert (limits : Limits) (height : Nat) {ps : List Primitive}
    (h : ∀ p ∈ ps, p.command.Inert) : limits.firstFault? height ps = none := by
  induction ps generalizing height with
  | nil => rfl
  | cons p ps ih =>
    have hp := h p (by simp)
    have hfault : limits.fault? height p = none := by
      unfold fault?
      split
      · exact absurd ‹_› hp.ne_push
      · exact absurd ‹_› hp.ne_pop
      · exact absurd ‹_› (hp.ne_custom _ _)
      · rfl
    rw [firstFault?, hfault, Option.none_or]
    exact ih _ fun q hq => h q (by simp [hq])

lemma excess_eq_zero_of_inert {ps : List Primitive} (h : ∀ p ∈ ps, p.command.Inert) :
    branching.excess ps = 0 := by
  apply branching.excess_eq_zero_of_forall
  intro p hp
  have hinert := h p hp
  simp [branching, hinert.ne_push, hinert.ne_pop]

/-! ## Sequences under a table that binds the brackets -/

namespace ActionTable.BindsBrackets

variable {table : ActionTable}

lemma inert_primitives (h : table.BindsBrackets) {c : Symbol} (hopening : c ≠ '[')
    (hclosing : c ≠ ']') : ∀ p ∈ table.primitives [c], p.command.Inert := by
  intro p hp
  rw [primitives, primitivesFrom_singleton, primitivesAt] at hp
  cases hget : table.get? c with
  | none => simp [hget] at hp
  | some action =>
    simp only [hget, List.mem_map] at hp
    obtain ⟨command, hcommand, rfl⟩ := hp
    exact h.inert c action hget hopening hclosing command hcommand

/-- One symbol opens as many branches as it is worth in brackets, and meets no fault if there is
room for it. -/
lemma firstFault?_singleton (h : table.BindsBrackets) (limits : Limits) {height : Nat}
    {c : Symbol} (hlow : 0 ≤ height + brackets.excess [c])
    (hhigh : height + brackets.excess [c] ≤ limits.maxStackDepth) :
    branching.excess (table.primitives [c]) = brackets.excess [c] ∧
      limits.firstFault? height (table.primitives [c]) = none := by
  by_cases hopening : c = '['
  · subst hopening
    have hvalue : brackets.excess ['['] = 1 := rfl
    have hroom : ¬ limits.maxStackDepth ≤ height := by omega
    rw [primitives_singleton h.get?_opening, excess_push, Limits.firstFault?_singleton]
    exact ⟨rfl, by simp [Limits.fault?, hroom]⟩
  by_cases hclosing : c = ']'
  · subst hclosing
    have hvalue : brackets.excess [']'] = -1 := rfl
    have hheight : height ≠ 0 := by omega
    rw [primitives_singleton h.get?_closing, excess_pop, Limits.firstFault?_singleton]
    exact ⟨rfl, by simp [Limits.fault?, hheight]⟩
  have hinert := h.inert_primitives hopening hclosing
  rw [excess_of_ne_brackets hopening hclosing]
  exact ⟨excess_eq_zero_of_inert hinert, limits.firstFault?_eq_none_of_inert height hinert⟩

end ActionTable.BindsBrackets

/-- A sequence that keeps within the depth allowed meets no fault, and leaves as many branches
open as brackets. -/
lemma Interpreter.fault?_eq_none_of_within {i : Interpreter} (h : i.table.BindsBrackets)
    {s : Sequence} (hs : brackets.Within i.config.maxStackDepth s) (initial : Turtle) :
    i.fault? s = none ∧ ((i.finalRun s initial).saved.length : Int) = brackets.excess s := by
  induction s using List.reverseRecOn with
  | nil => exact ⟨rfl, rfl⟩
  | append_singleton s c ih =>
    obtain ⟨hfault, hlength⟩ := ih hs.left
    have hlast := hs.excess
    -- The excess after `c` is within the depth; with `hlength` it bounds the height instead.
    rw [Bracketing.excess_append, ← hlength] at hlast
    obtain ⟨hexcess, hnone⟩ := h.firstFault?_singleton i.limits hlast.1 hlast.2
    have hafter := Run.length_saved_afterAll hnone
    have hheight := heightAfterAll_eq hnone
    rw [fault?_append i s [c] initial, hfault, hnone, finalRun_append, Bracketing.excess_append]
    refine ⟨rfl, ?_⟩
    change ((Run.afterAll i.limits.handlers _ _).saved.length : Int) = _
    omega

/-- A balanced sequence within the depth allowed is drawn and leaves no branch open. -/
lemma Interpreter.exists_interpretFrom_of_balancedWithin {i : Interpreter}
    (h : i.table.BindsBrackets) {depth : Nat} (hdepth : depth ≤ i.config.maxStackDepth)
    {s : Sequence} (hs : brackets.BalancedWithin depth s) (initial : Turtle) :
    i.interpretFrom s initial = .ok (i.finalRun s initial).finish ∧
      (i.finalRun s initial).finish.openBranches = 0 := by
  have hwithin : brackets.Within i.config.maxStackDepth s := by
    intro p hp
    have hlow := hs.nonneg p hp
    have hhigh := hs.le_depth p hp
    omega
  obtain ⟨hfault, hlength⟩ := fault?_eq_none_of_within h hwithin initial
  rw [hs.total] at hlength
  refine ⟨interpretFrom_of_fault?_eq_none hfault initial, ?_⟩
  exact Int.natCast_eq_zero.mp hlength

/-! ## The usual bindings -/

lemma ActionTable.bindsBrackets_standard (angle : Float32) :
    (standard angle).BindsBrackets where
  get?_opening := get?_ofList _ _
  get?_closing := get?_ofList _ _
  inert c action hget hopening hclosing command hcommand := by
    have hmem := mem_of_get?_ofList hget
    simp only [standardBindings, List.mem_cons, Prod.mk.injEq, hopening, hclosing, false_and,
      or_false, List.not_mem_nil] at hmem
    -- Each of the other six symbols is bound to a single command.
    obtain ⟨single, hsingle, rfl⟩ : ∃ single : Command, single.Inert ∧ action = single := by
      rcases hmem with ⟨-, rfl⟩ | ⟨-, rfl⟩ | ⟨-, rfl⟩ | ⟨-, rfl⟩ | ⟨-, rfl⟩ | ⟨-, rfl⟩ <;>
        exact ⟨_, ⟨by simp, by simp, by simp⟩, rfl⟩
    rw [Action.commands_command, List.mem_singleton] at hcommand
    exact hcommand ▸ hsingle

/-- Commands that draw a segment. -/
def Command.draws : Command → Bool
  | forward _ => true
  | _ => false

/-- A run draws a segment for each command that draws, and no other. -/
lemma Run.size_segments_afterAll (handlers : Std.ExtTreeMap String Handler) (run : Run)
    (ps : List Primitive) :
    (run.afterAll handlers ps).drawing.segments.size =
      run.drawing.segments.size + ps.countP (fun p => p.command.draws) := by
  induction ps generalizing run with
  | nil => rfl
  | cons p ps ih =>
    have hstep : (run.after handlers p.command).drawing.segments.size =
        run.drawing.segments.size + if p.command.draws then 1 else 0 := by
      obtain ⟨place, c⟩ := p
      cases c with
      | forward distance => simp [after, drawAhead, Command.draws]
      | pop =>
        simp only [after]
        split <;> rfl
      | custom name params =>
        simp only [after]
        split
        · rfl
        · simp [applyEffect, Command.draws]
      | _ => rfl
    rw [afterAll_cons, ih, hstep, List.countP_cons]
    omega

lemma ActionTable.countP_draws_primitivesAt_standard (angle : Float32) (place : Occurrence) :
    ((standard angle).primitivesAt place).countP (fun p => p.command.draws) =
      (if place.symbol = 'F' then 1 else 0) + if place.symbol = 'G' then 1 else 0 := by
  obtain ⟨index, c⟩ := place
  have hget : (standard angle).get? c = (standardBindings angle).reverse.lookup c := get?_ofList _ _
  by_cases hF : c = 'F'
  · subst hF
    rw [primitivesAt, hget]
    rfl
  by_cases hG : c = 'G'
  · subst hG
    rw [primitivesAt, hget]
    rfl
  rw [if_neg hF, if_neg hG, primitivesAt]
  cases hcase : (standard angle).get? c with
  | none => rfl
  | some action =>
    have hmem := mem_of_get?_ofList hcase
    simp only [standardBindings, List.mem_cons, Prod.mk.injEq, hF, hG, false_and, false_or,
      List.not_mem_nil, or_false] at hmem
    rcases hmem with ⟨-, rfl⟩ | ⟨-, rfl⟩ | ⟨-, rfl⟩ | ⟨-, rfl⟩ | ⟨-, rfl⟩ | ⟨-, rfl⟩ <;> rfl

lemma ActionTable.countP_draws_standard (angle : Float32) (index : Nat) (s : Sequence) :
    ((standard angle).primitivesFrom index s).countP (fun p => p.command.draws) =
      s.count 'F' + s.count 'G' := by
  induction s generalizing index with
  | nil => rfl
  | cons c s ih =>
    rw [primitivesFrom_cons, List.countP_append, countP_draws_primitivesAt_standard, ih,
      List.count_cons, List.count_cons]
    simp only [beq_iff_eq]
    omega

end LSystem
