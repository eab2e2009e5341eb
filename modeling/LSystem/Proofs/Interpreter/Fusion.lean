import Mathlib.Data.List.Basic
import Mathlib.Logic.Function.Iterate
import LSystem.Proofs.Expansion.Deterministic
import LSystem.Proofs.Interpreter.Outcome

/-!
# Fusing expansion into the table

If nothing is left to chance, it makes no difference whether a sequence is first expanded and then
interpreted, or whether the table lets a symbol do at once what the symbols do that replace it.  The
second way is a table in which each symbol with a rule is bound to a composite action
(`ActionTable.fuse`), as deep as there are generations.

The two ways obey the same commands in the same order; only the occurrences on whose behalf they are
obeyed differ.  `ActionTable.Inlines` is this relation between two tables, and it is all that is
used of them: the run to the end depends on the commands alone (`Run.afterAll_congr`), and an error
is the same but for its occurrence, which is the symbol whose block holds the one at fault
(`ActionTable.Inlines.firstFault?_cases`).
-/

namespace LSystem

/-! ## Occurrences of errors -/

/-- The index of the occurrence at fault. -/
def InterpretError.index : InterpretError → Nat
  | stackUnderflow index _ => index
  | stackOverflow index _ _ => index
  | unknownAction index _ => index

/-- The same cause at another occurrence. -/
def InterpretError.relocate (place : Occurrence) : InterpretError → InterpretError
  | stackUnderflow _ _ => stackUnderflow place.index place.symbol
  | stackOverflow _ _ depth => stackOverflow place.index place.symbol depth
  | unknownAction _ name => unknownAction place.index name

/-- The same command on behalf of another occurrence. -/
def Primitive.relocate (place : Occurrence) (p : Primitive) : Primitive := ⟨place, p.command⟩

namespace Limits

variable (limits : Limits)

lemma firstFault?_map_relocate (place : Occurrence) (height : Nat) (ps : List Primitive) :
    limits.firstFault? height (ps.map (Primitive.relocate place)) =
      (limits.firstFault? height ps).map (InterpretError.relocate place) := by
  have hcommand : ∀ p : Primitive, (p.relocate place).command = p.command := fun _ => rfl
  refine firstFault?_map hcommand ?_ height ps
  rintro height ⟨place', c⟩
  cases c with
  | push => simp only [fault?, Primitive.relocate]; split <;> rfl
  | pop => simp only [fault?, Primitive.relocate]; split <;> rfl
  | custom name params => simp only [fault?, Primitive.relocate]; split <;> rfl
  | _ => rfl

/-- An error is that of one of the primitives. -/
lemma exists_mem_of_firstFault? {height : Nat} {ps : List Primitive} {e : InterpretError}
    (h : limits.firstFault? height ps = some e) : ∃ p ∈ ps, e.index = p.place.index := by
  induction ps generalizing height with
  | nil => cases h
  | cons p ps ih =>
    rw [firstFault?, Option.or_eq_some_iff] at h
    rcases h with hfault | ⟨-, hrest⟩
    · refine ⟨p, List.mem_cons_self, ?_⟩
      obtain ⟨place, c⟩ := p
      cases c with
      | push | pop | custom =>
        simp only [fault?, Option.ite_none_right_eq_some, Option.some.injEq] at hfault
        rw [← hfault.2]
        rfl
      | _ => cases hfault
    · obtain ⟨q, hq, hindex⟩ := ih hrest
      exact ⟨q, List.mem_cons_of_mem _ hq, hindex⟩

end Limits

/-! ## What depends on commands alone -/

lemma Primitive.heightAfterAll_map_relocate (place : Occurrence) (height : Nat)
    (ps : List Primitive) :
    heightAfterAll height (ps.map (relocate place)) = heightAfterAll height ps := by
  rw [heightAfterAll, List.foldl_map]
  rfl

/-- A run to the end depends on the commands only, not on the occurrences. -/
lemma Run.afterAll_congr {ps qs : List Primitive}
    (h : ps.map Primitive.command = qs.map Primitive.command)
    (handlers : Std.ExtTreeMap String Handler) (run : Run) :
    run.afterAll handlers ps = run.afterAll handlers qs := by
  have hcommands : ∀ ps : List Primitive, run.afterAll handlers ps =
      (ps.map Primitive.command).foldl (fun run c => run.after handlers c) run := by
    intro ps
    rw [List.foldl_map]
    rfl
  rw [hcommands ps, hcommands qs, h]

namespace ActionTable

lemma index_of_mem_primitivesFrom {table : ActionTable} {index : Nat} {s : Sequence}
    {p : Primitive} (h : p ∈ table.primitivesFrom index s) :
    index ≤ p.place.index ∧ p.place.index < index + s.length := by
  obtain ⟨⟨c, k⟩, hmem, hp⟩ := List.mem_flatMap.mp h
  change p ∈ table.primitivesAt ⟨k, c⟩ at hp
  rw [primitivesAt_eq] at hp
  obtain ⟨command, -, rfl⟩ := List.mem_map.mp hp
  obtain ⟨hlow, hhigh, -⟩ := List.mem_zipIdx hmem
  exact ⟨hlow, hhigh⟩

/-! ## Tables that do at once what others do for a block -/

/-- Each symbol does in the first table what the symbols of its block do in the second. -/
def Inlines (fused table : ActionTable) (block : Symbol → Sequence) : Prop :=
  ∀ c, fused.commandsOf c = (block c).flatMap table.commandsOf

namespace Inlines

variable {fused table : ActionTable} {block : Symbol → Sequence}

lemma primitivesAt_eq (h : Inlines fused table block) (place : Occurrence) (index : Nat) :
    fused.primitivesAt place =
      (table.primitivesFrom index (block place.symbol)).map (Primitive.relocate place) := by
  rw [ActionTable.primitivesAt_eq, h place.symbol, ← map_command_primitivesFrom table index,
    List.map_map]
  rfl

lemma afterAll_eq (h : Inlines fused table block) (s : Sequence)
    (handlers : Std.ExtTreeMap String Handler) (run : Run) :
    run.afterAll handlers (fused.primitives s) =
      run.afterAll handlers (table.primitives (s.flatMap block)) := by
  apply Run.afterAll_congr
  rw [primitives, primitives, map_command_primitivesFrom, map_command_primitivesFrom,
    List.flatMap_assoc]
  exact congrArg (List.flatMap · s) (funext h)

/-- The two tables meet no fault, or they meet the same at the same time: one on behalf of a symbol,
the other on behalf of an occurrence in the block of that symbol. -/
lemma firstFault?_cases (h : Inlines fused table block) (limits : Limits) (s : Sequence)
    (height index index' : Nat) :
    (limits.firstFault? height (fused.primitivesFrom index s) = none ∧
      limits.firstFault? height (table.primitivesFrom index' (s.flatMap block)) = none) ∨
    ∃ u c v e, s = u ++ c :: v ∧
      limits.firstFault? height (table.primitivesFrom index' (s.flatMap block)) = some e ∧
      limits.firstFault? height (fused.primitivesFrom index s) =
        some (e.relocate ⟨index + u.length, c⟩) ∧
      index' + (u.flatMap block).length ≤ e.index ∧
      e.index < index' + (u.flatMap block).length + (block c).length := by
  induction s generalizing height index index' with
  | nil => exact .inl ⟨rfl, rfl⟩
  | cons c s ih =>
    rw [primitivesFrom_cons, List.flatMap_cons, primitivesFrom_append, Limits.firstFault?_append,
      Limits.firstFault?_append, h.primitivesAt_eq _ index', Limits.firstFault?_map_relocate,
      Primitive.heightAfterAll_map_relocate]
    cases hblock : limits.firstFault? height (table.primitivesFrom index' (block c)) with
    | some e =>
      obtain ⟨p, hp, hindex⟩ := limits.exists_mem_of_firstFault? hblock
      obtain ⟨hlow, hhigh⟩ := index_of_mem_primitivesFrom hp
      exact .inr ⟨[], c, s, e, rfl, rfl, rfl, by simp [hindex, hlow], by simp [hindex, hhigh]⟩
    | none =>
      rw [Option.map_none, Option.none_or, Option.none_or]
      rcases ih (Primitive.heightAfterAll height (table.primitivesFrom index' (block c)))
          (index + 1) (index' + (block c).length) with
        hnone | ⟨u, d, v, e, rfl, hfault, hfused, hlow, hhigh⟩
      · exact .inl hnone
      · have hindex : index + 1 + u.length = index + (c :: u).length := by
          rw [List.length_cons]
          omega
        rw [hindex] at hfused
        refine .inr ⟨c :: u, d, v, e, rfl, hfault, hfused, ?_, ?_⟩ <;>
          (rw [List.flatMap_cons, List.length_append]; omega)

end Inlines

/-! ## Fused tables -/

/-- The table in which a symbol with a rule does what the symbols do that it is replaced by, as far
as they are bound. -/
def fuse (set : RuleSet) (table : ActionTable) : ActionTable :=
  table.extend (set.rules.keys.map fun c => (c, .combine ((set.image c).filterMap table.get?)))

lemma get?_fuse (set : RuleSet) (table : ActionTable) (c : Symbol) :
    (table.fuse set).get? c =
      if (set.lookup c).isSome then some (.combine ((set.image c).filterMap table.get?))
      else table.get? c := by
  have hkey : c ∈ set.rules.keys.reverse ↔ (set.lookup c).isSome := by
    rw [List.mem_reverse, Std.ExtTreeMap.mem_keys, Std.ExtTreeMap.mem_iff_isSome_getElem?]
    rfl
  rw [fuse, get?_extend, ← List.map_reverse]
  split
  next h => rw [List.lookup_graph _ (hkey.mpr h), Option.some_or]
  next h =>
    have habsent : (set.rules.keys.reverse.map fun c =>
        (c, Action.combine ((set.image c).filterMap table.get?))).lookup c = none := by
      rw [List.lookup_eq_none_iff]
      intro binding hbinding
      obtain ⟨d, hd, rfl⟩ := List.mem_map.mp hbinding
      have hcd : c ≠ d := by
        rintro rfl
        exact h (hkey.mp hd)
      exact bne_iff_ne.mpr hcd
    rw [habsent, Option.none_or]

lemma flatMap_commandsOf (table : ActionTable) (s : Sequence) :
    s.flatMap table.commandsOf = (s.filterMap table.get?).flatMap Action.commands := by
  induction s with
  | nil => rfl
  | cons c s ih =>
    rw [List.flatMap_cons, ih, commandsOf]
    cases hget : table.get? c with
    | none => rw [List.filterMap_cons_none hget]; rfl
    | some action => rw [List.filterMap_cons_some hget]; rfl

/-- A fused table does for a symbol what the table does for its image. -/
lemma commandsOf_fuse (set : RuleSet) (table : ActionTable) (c : Symbol) :
    (table.fuse set).commandsOf c = (set.image c).flatMap table.commandsOf := by
  rw [commandsOf, get?_fuse]
  split
  next =>
    rw [flatMap_commandsOf]
    exact Action.commands_combine _
  next h =>
    have himage := RuleSet.image_of_lookup_eq_none (Option.not_isSome_iff_eq_none.mp h)
    rw [himage, List.flatMap_singleton]
    rfl

/-- Fused once for each generation, a table does for a symbol what the table does for the block that
the symbol develops into. -/
lemma inlines_iterate_fuse (set : RuleSet) (table : ActionTable) (n : Nat) :
    Inlines ((fuse set)^[n] table) table (set.block n) := by
  intro c
  induction n generalizing c with
  | zero => exact (List.flatMap_singleton _ _).symm
  | succ n ih =>
    rw [Function.iterate_succ_apply', commandsOf_fuse, RuleSet.block, List.flatMap_assoc]
    exact congrArg (List.flatMap · (set.image c)) (funext ih)

end ActionTable

/-- **Expansion fuses into composite actions.**  Fusing a table binds each symbol with a rule to the
composite of what the symbols of its replacement are bound to, those that are not bound being left
out, and keeps the other bindings.  Let the rules leave nothing to chance, and fuse the table of an
interpreter once for each of `n` generations.  Then either both draw the same, the fused one from
the sequence and the other from its expansion; or both fail with the same error but for its
occurrence, which in the sequence is the symbol `c` in whose block of the expansion the error of the
other one lies. -/
theorem interpretFrom_iterate_fuse {set : RuleSet} (hset : set.isDeterministic) (i : Interpreter)
    (n : Nat) (s : Sequence) (stream : DrawStream) (initial : Turtle) :
    (∀ (table : ActionTable) (c : Symbol), (table.fuse set).get? c =
      match set.lookup c with
      | some rule => some (.combine (rule.firstReplacement.filterMap table.get?))
      | none => table.get? c) ∧
    let fused := i.withTable ((ActionTable.fuse set)^[n] i.table)
    let expansion := fun s => (set.expand n s stream).1
    (∃ d, fused.interpretFrom s initial = .ok d ∧
      i.interpretFrom (expansion s) initial = .ok d) ∨
    ∃ u c v e, s = u ++ c :: v ∧ expansion s = expansion u ++ expansion [c] ++ expansion v ∧
      i.interpretFrom (expansion s) initial = .error e ∧
      fused.interpretFrom s initial = .error (e.relocate ⟨u.length, c⟩) ∧
      (expansion u).length ≤ e.index ∧
      e.index < (expansion u).length + (expansion [c]).length := by
  have hlaw : ∀ (table : ActionTable) (c : Symbol), (table.fuse set).get? c =
      match set.lookup c with
      | some rule => some (.combine (rule.firstReplacement.filterMap table.get?))
      | none => table.get? c := by
    intro table c
    rw [ActionTable.get?_fuse]
    cases hlookup : set.lookup c with
    | none => rfl
    | some rule => rw [RuleSet.image_of_lookup_eq_some hlookup]; rfl
  refine ⟨hlaw, ?_⟩
  intro fused expansion
  have hexpansion : ∀ s, expansion s = s.flatMap (set.block n) := fun s =>
    congrArg Prod.fst (RuleSet.expand_eq_flatMap hset n s stream)
  have hinlines := ActionTable.inlines_iterate_fuse set i.table n
  simp only [hexpansion]
  rcases hinlines.firstFault?_cases i.limits s 0 0 0 with
    ⟨hfused, htable⟩ | ⟨u, c, v, e, rfl, htable, hfused, hlow, hhigh⟩
  · have hfused : fused.fault? s = none := hfused
    have htable : i.fault? (s.flatMap (set.block n)) = none := htable
    refine .inl ⟨_, Interpreter.interpretFrom_of_fault?_eq_none hfused initial, ?_⟩
    rw [Interpreter.interpretFrom_of_fault?_eq_none htable, Interpreter.finalRun,
      ← hinlines.afterAll_eq]
    rfl
  · rw [Nat.zero_add] at hfused hlow hhigh
    refine .inr ⟨u, c, v, e, rfl, ?_, Interpreter.interpretFrom_eq_error_iff.mpr htable,
      Interpreter.interpretFrom_eq_error_iff.mpr hfused, hlow, ?_⟩
    · rw [List.flatMap_append, List.flatMap_cons, List.flatMap_singleton, List.append_assoc]
    · rwa [List.flatMap_singleton]

/-- The block of `B` closes a branch that nothing opened; without `B` there is a drawing. -/
theorem interpretFrom_iterate_fuse_of_unbalanced_block :
    let set := RuleSet.ofList [⟨'A', [⟨1.0, ['[', 'B']⟩]⟩, ⟨'B', [⟨1.0, [']', 'F']⟩]⟩,
      ⟨'X', [⟨1.0, []⟩]⟩]
    let i : Interpreter := { table := .standard 1.0 }
    let fused := i.withTable ((ActionTable.fuse set)^[2] i.table)
    let expansion := fun s => (set.expand 2 s (.ofList [])).1
    set.isDeterministic ∧ expansion ['A', 'X', 'Q', 'B', 'A'] = "[]FQ]F[]F".toList ∧
    i.interpretFrom (expansion ['A', 'X', 'Q', 'B', 'A']) {} = .error (.stackUnderflow 4 ']') ∧
    fused.interpretFrom ['A', 'X', 'Q', 'B', 'A'] {} = .error (.stackUnderflow 3 'B') ∧
    ∃ d, fused.interpretFrom ['A', 'X', 'Q', 'A'] {} = .ok d ∧
      i.interpretFrom (expansion ['A', 'X', 'Q', 'A']) {} = .ok d := by
  intro set i fused expansion
  have hset : set.isDeterministic := by decide +kernel
  have hexpansion : expansion ['A', 'X', 'Q', 'B', 'A'] = "[]FQ]F[]F".toList := by decide +kernel
  have hfault : fused.fault? ['A', 'X', 'Q', 'B', 'A'] = some (.stackUnderflow 3 'B') := by
    decide +kernel
  have hfault' : i.fault? (expansion ['A', 'X', 'Q', 'B', 'A']) = some (.stackUnderflow 4 ']') := by
    decide +kernel
  have hnone : fused.fault? ['A', 'X', 'Q', 'A'] = none := by decide +kernel
  refine ⟨hset, hexpansion, Interpreter.interpretFrom_eq_error_iff.mpr hfault',
    Interpreter.interpretFrom_eq_error_iff.mpr hfault, ?_⟩
  rcases (interpretFrom_iterate_fuse hset i 2 ['A', 'X', 'Q', 'A'] (.ofList []) {}).2 with
    hdrawn | ⟨u, c, v, e, -, -, -, herror, -⟩
  · exact hdrawn
  · rw [Interpreter.interpretFrom_eq_error_iff, hnone] at herror
    cases herror

end LSystem
