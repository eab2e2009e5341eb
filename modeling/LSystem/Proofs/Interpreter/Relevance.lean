import LSystem.Proofs.Interpreter.Fusion
import LSystem.Proofs.Traversal

/-!
# What an interpretation depends on

An interpretation depends on what its symbols are bound to and on what handles the custom commands
among that, on the depth allowed, and on nothing else.

Symbols without a binding have no primitives.  Without them a sequence has the same primitives, each
at the number of bound symbols before it (`ActionTable.primitives_filter`), and so it is drawn the
same, or fails in the same way but for the index.  Two sequences with the same bound symbols in
order are compared through the sequence of these.

Two interpreters that allow the same depth obey primitives alike if they have the same handlers for
the names in them (`Run.follow_congr`).
-/

namespace LSystem

/-! ## Symbols without a binding -/

namespace ActionTable

/-- Whether a symbol is bound. -/
def binds (table : ActionTable) (c : Symbol) : Bool := (table.get? c).isSome

variable (table : ActionTable)

lemma primitivesAt_of_not_binds {place : Occurrence} (h : table.binds place.symbol = false) :
    table.primitivesAt place = [] := by
  rw [binds, Option.isSome_eq_false_iff, Option.isNone_iff_eq_none] at h
  simp only [primitivesAt, h]

lemma primitives_concat (s : Sequence) (c : Symbol) :
    table.primitives (s ++ [c]) = table.primitives s ++ table.primitivesAt ⟨s.length, c⟩ := by
  rw [primitives, primitivesFrom_append, Nat.zero_add, primitivesFrom_singleton]
  rfl

/-- Without the symbols that are not bound, a sequence has the same primitives, and the index of
each is the number of bound symbols before it. -/
lemma primitives_filter (s : Sequence) :
    table.primitives (s.filter table.binds) =
      (table.primitives s).map (Primitive.mapIndex fun k => (s.take k).countP table.binds) := by
  induction s using List.reverseRecOn with
  | nil => rfl
  | append_singleton s c ih =>
    have hbefore : (table.primitives s).map
          (Primitive.mapIndex fun k => ((s ++ [c]).take k).countP table.binds) =
        table.primitives (s.filter table.binds) := by
      rw [ih]
      refine List.map_congr_left fun p hp => ?_
      obtain ⟨-, hindex⟩ := index_of_mem_primitivesFrom hp
      have htake : (s ++ [c]).take p.place.index = s.take p.place.index :=
        List.take_append_of_le_length (by omega)
      simp only [Primitive.mapIndex, Occurrence.mapIndex, htake]
    have hlast : Occurrence.mapIndex (fun k => ((s ++ [c]).take k).countP table.binds)
        ⟨s.length, c⟩ = ⟨(s.filter table.binds).length, c⟩ := by
      simp only [Occurrence.mapIndex, List.take_left, List.countP_eq_length_filter]
    rw [primitives_concat, List.map_append, hbefore, ← primitivesAt_mapIndex, hlast,
      List.filter_append]
    cases hc : table.binds c with
    | true => rw [List.filter_singleton, hc, cond_true, primitives_concat]
    | false =>
      rw [List.filter_singleton, hc, cond_false, List.append_nil,
        primitivesAt_of_not_binds table hc, List.append_nil]

/-- A primitive belongs to an occurrence of a bound symbol. -/
lemma exists_of_mem_primitives {table : ActionTable} {s : Sequence} {p : Primitive}
    (h : p ∈ table.primitives s) :
    ∃ u c v, s = u ++ c :: v ∧ table.binds c = true ∧ p.place = ⟨u.length, c⟩ := by
  induction s using List.reverseRecOn with
  | nil => cases h
  | append_singleton s c ih =>
    rw [primitives_concat, List.mem_append] at h
    rcases h with hbefore | hlast
    · obtain ⟨u, d, v, rfl, hd, hplace⟩ := ih hbefore
      exact ⟨u, d, v ++ [c], List.append_assoc u (d :: v) [c], hd, hplace⟩
    · cases hc : table.binds c with
      | true =>
        rw [primitivesAt_eq] at hlast
        obtain ⟨command, -, rfl⟩ := List.mem_map.mp hlast
        exact ⟨s, c, [], rfl, hc, rfl⟩
      | false =>
        rw [primitivesAt_of_not_binds table hc] at hlast
        cases hlast

end ActionTable

namespace InterpretError

lemma index_mapIndex (f : Nat → Nat) (e : InterpretError) : (e.mapIndex f).index = f e.index := by
  cases e <;> rfl

/-- Errors that are the same at some indices differ in their own indices at most. -/
lemma eq_mapIndex_of_mapIndex_eq {e e' : InterpretError} {f f' : Nat → Nat}
    (h : e'.mapIndex f' = e.mapIndex f) : e' = e.mapIndex fun _ => e'.index := by
  cases e <;> cases e' <;> simp_all [mapIndex, index]

end InterpretError

namespace Interpreter

section

variable (i : Interpreter) (s : Sequence) (initial : Turtle)

/-- Without the symbols that are not bound, a sequence is drawn the same, or fails in the same way
at the index that its occurrence at fault has then. -/
lemma interpretFrom_filter :
    i.interpretFrom (s.filter i.table.binds) initial =
      (i.interpretFrom s initial).mapError
        (InterpretError.mapIndex fun k => (s.take k).countP i.table.binds) := by
  rw [interpretFrom_eq, interpretFrom_eq, fault?, fault?, finalRun, finalRun,
    ActionTable.primitives_filter, Limits.firstFault?_map_mapIndex, Run.afterAll_map_mapIndex]
  cases i.limits.firstFault? 0 (i.table.primitives s) <;> rfl

/-- An error is that of an occurrence of a bound symbol. -/
lemma exists_of_interpretFrom_eq_error {e : InterpretError}
    (h : i.interpretFrom s initial = .error e) :
    ∃ u c v, s = u ++ c :: v ∧ i.table.binds c = true ∧ e.index = u.length := by
  obtain ⟨p, hp, hindex⟩ := i.limits.exists_mem_of_firstFault? (interpretFrom_eq_error_iff.mp h)
  obtain ⟨u, c, v, hs, hc, hplace⟩ := ActionTable.exists_of_mem_primitives hp
  exact ⟨u, c, v, hs, hc, by rw [hindex, hplace]⟩

end

/-- At these indices two sequences have the same bound symbol, with the same bound symbols before
it. -/
structure SameOccurrence (binds : Symbol → Bool) (s : Sequence) (k : Nat) (s' : Sequence)
    (k' : Nat) : Prop where
  bound : ∃ c, s[k]? = some c ∧ s'[k']? = some c ∧ binds c = true
  before : (s'.take k').filter binds = (s.take k).filter binds

/-- Sequences with the same bound symbols in order are drawn the same, or fail in the same way on
behalf of the same occurrence. -/
lemma interpretFrom_of_filter_eq {i : Interpreter} {s s' : Sequence}
    (h : s'.filter i.table.binds = s.filter i.table.binds) (initial : Turtle) :
    (∃ d, i.interpretFrom s initial = .ok d ∧ i.interpretFrom s' initial = .ok d) ∨
    ∃ e k, i.interpretFrom s initial = .error e ∧
      i.interpretFrom s' initial = .error (e.mapIndex fun _ => k) ∧
      SameOccurrence i.table.binds s e.index s' k := by
  have hfilter := i.interpretFrom_filter s' initial
  rw [h, interpretFrom_filter] at hfilter
  cases hs : i.interpretFrom s initial with
  | ok d =>
    cases hs' : i.interpretFrom s' initial with
    | ok d' =>
      rw [hs, hs'] at hfilter
      exact .inl ⟨d, rfl, hfilter.symm⟩
    | error e' =>
      rw [hs, hs'] at hfilter
      cases hfilter
  | error e =>
    cases hs' : i.interpretFrom s' initial with
    | ok d' =>
      rw [hs, hs'] at hfilter
      cases hfilter
    | error e' =>
      rw [hs, hs'] at hfilter
      have hmap := Except.error.inj hfilter
      obtain ⟨u, c, v, rfl, hc, hindex⟩ := exists_of_interpretFrom_eq_error i s initial hs
      obtain ⟨u', c', v', rfl, hc', hindex'⟩ := exists_of_interpretFrom_eq_error i s' initial hs'
      have hcount := congrArg InterpretError.index hmap
      rw [InterpretError.index_mapIndex, InterpretError.index_mapIndex, hindex, hindex',
        List.take_left, List.take_left, List.countP_eq_length_filter,
        List.countP_eq_length_filter] at hcount
      -- As many bound symbols before the two occurrences, so both lists split at the same place.
      rw [List.filter_append, List.filter_append, List.filter_cons_of_pos hc,
        List.filter_cons_of_pos hc'] at h
      obtain ⟨hbefore, hbehind⟩ := List.append_inj h hcount.symm
      obtain ⟨rfl, -⟩ := List.cons_eq_cons.mp hbehind
      refine .inr ⟨e, u'.length, rfl, ?_, ⟨⟨c', ?_, ?_, hc⟩, ?_⟩⟩
      · rw [← hindex', ← InterpretError.eq_mapIndex_of_mapIndex_eq hmap.symm]
      · rw [hindex]
        simp
      · simp
      · rw [hindex, List.take_left, List.take_left, hbefore]

end Interpreter

/-! ## Other bindings and handlers -/

namespace Run

/-- Limits of the same depth and with the same handler for a custom command obey it alike. -/
lemma execute_congr {limits other : Limits} {c : Command}
    (hdepth : other.maxStackDepth = limits.maxStackDepth)
    (hhandlers : ∀ name params, c = .custom name params →
      other.handlers[name]? = limits.handlers[name]?) (run : Run) (place : Occurrence) :
    run.execute other place c = run.execute limits place c := by
  cases c with
  | push => simp only [execute, hdepth]
  | custom name params => simp only [execute, hhandlers name params rfl]
  | _ => rfl

lemma follow_congr {limits other : Limits} {ps : List Primitive}
    (hdepth : other.maxStackDepth = limits.maxStackDepth)
    (hhandlers : ∀ p ∈ ps, ∀ name params, p.command = .custom name params →
      other.handlers[name]? = limits.handlers[name]?) (run : Run) :
    run.follow other ps = run.follow limits ps := by
  induction ps generalizing run with
  | nil => rfl
  | cons p ps ih =>
    obtain ⟨hfirst, hrest⟩ := List.forall_mem_cons.mp hhandlers
    rw [follow_cons, follow_cons, execute_congr hdepth hfirst]
    exact congrArg (Except.bind _) (funext fun next => ih hrest next)

end Run

/-! ## Interpretations -/

namespace Interpreter

/-- An interpreter that agrees with another one on what a sequence needs interprets it alike. -/
lemma interpretFrom_congr {i j : Interpreter} {s : Sequence}
    (hdepth : j.config.maxStackDepth = i.config.maxStackDepth)
    (htable : ∀ c ∈ s, j.table.get? c = i.table.get? c)
    (hhandlers : ∀ c ∈ s, ∀ name params, .custom name params ∈ i.table.commandsOf c →
      j.handlers[name]? = i.handlers[name]?) (initial : Turtle) :
    j.interpretFrom s initial = i.interpretFrom s initial := by
  have hprimitives : j.table.primitivesFrom 0 s = i.table.primitivesFrom 0 s := by
    refine ActionTable.primitivesFrom_congr (fun c hc => ?_) 0
    rw [ActionTable.commandsOf, htable c hc, ActionTable.commandsOf]
  rw [interpretFrom, interpretFrom, walk_eq_follow, walk_eq_follow, hprimitives]
  refine congrArg (Except.bind · _) (Run.follow_congr hdepth ?_ _)
  intro p hp name params hcommand
  have hmem : p.command ∈ s.flatMap i.table.commandsOf := by
    rw [← ActionTable.map_command_primitivesFrom i.table 0 s]
    exact List.mem_map_of_mem hp
  obtain ⟨c, hc, hname⟩ := List.mem_flatMap.mp hmem
  exact hhandlers c hc name params (hcommand ▸ hname)

/-- **Only the bindings that are met matter.**  Without the symbols that are not bound, a sequence
is drawn the same, or it fails in the same way at the index that its occurrence at fault has then,
which is the number of bound symbols before it.  Two sequences that have the same bound symbols in
order, with any others between them, are drawn the same, or they fail in the same way on behalf of
the same occurrence.  And two interpreters come to the same if they allow the same depth, agree on
what the symbols of the sequence are bound to, and agree on what handles the custom commands among
that, if anything does; everything else about them may differ. -/
theorem interpretFrom_of_bindings_met (i : Interpreter) (s : Sequence) (initial : Turtle) :
    i.interpretFrom (s.filter i.table.binds) initial =
      (i.interpretFrom s initial).mapError
        (InterpretError.mapIndex fun k => (s.take k).countP i.table.binds) ∧
    (∀ s' : Sequence, s'.filter i.table.binds = s.filter i.table.binds →
      (∃ d, i.interpretFrom s initial = .ok d ∧ i.interpretFrom s' initial = .ok d) ∨
      ∃ e k, i.interpretFrom s initial = .error e ∧
        i.interpretFrom s' initial = .error (e.mapIndex fun _ => k) ∧
        SameOccurrence i.table.binds s e.index s' k) ∧
    ∀ j : Interpreter, j.config.maxStackDepth = i.config.maxStackDepth →
      (∀ c ∈ s, j.table.get? c = i.table.get? c) →
      (∀ c ∈ s, ∀ name params, .custom name params ∈ i.table.commandsOf c →
        j.handlers[name]? = i.handlers[name]?) →
      j.interpretFrom s initial = i.interpretFrom s initial := by
  refine ⟨i.interpretFrom_filter s initial, ?_, ?_⟩
  · exact fun s' h => interpretFrom_of_filter_eq h initial
  · exact fun j hdepth htable hhandlers => interpretFrom_congr hdepth htable hhandlers initial

/-- A bracket is closed that nothing opened, with symbols around it that are not bound; the other
interpreter starts elsewhere, binds one more symbol and has one more handler. -/
theorem interpretFrom_of_bindings_met_at_a_pop :
    let table := ActionTable.ofList [('F', Command.forward none), (']', Command.pop),
      ('X', .combine [Command.push, .combine [Command.custom "dot" [], Command.rotate 1.0]])]
    let i : Interpreter :=
      { table, handlers := (∅ : Std.ExtTreeMap _ _).insert "dot" Handler.dotMarker }
    let j : Interpreter :=
      { config := { stepLength := 9.0, origin := ⟨1.0, 2.0⟩, heading := 0.0 },
        table := table.insert 'Z' Command.push,
        handlers := i.handlers.insert "ring" Handler.circleMarker }
    let s := "aFX]]bF".toList
    let s' := "FXcc]dd]F".toList
    i.interpretFrom s {} = .error (.stackUnderflow 4 ']') ∧
    i.interpretFrom (s.filter i.table.binds) {} = .error (.stackUnderflow 3 ']') ∧
    s'.filter i.table.binds = s.filter i.table.binds ∧
    (∃ k, i.interpretFrom s' {} = .error (.stackUnderflow k ']') ∧
      SameOccurrence i.table.binds s 4 s' k) ∧
    j.interpretFrom s {} = .error (.stackUnderflow 4 ']') := by
  intro table i j s s'
  have hfault : i.fault? s = some (.stackUnderflow 4 ']') := by decide +kernel
  have hfails : i.interpretFrom s {} = .error (.stackUnderflow 4 ']') :=
    interpretFrom_eq_error_iff.mpr hfault
  have hsame : s'.filter i.table.binds = s.filter i.table.binds := by decide +kernel
  have hbound : ∀ c ∈ s, j.table.get? c = i.table.get? c := by
    intro c hc
    have hne : 'Z' ≠ c := by
      rintro rfl
      exact absurd hc (by decide)
    exact (ActionTable.get?_insert table 'Z' c _).trans (if_neg hne)
  have hhandled : ∀ c ∈ s, ∀ name params, .custom name params ∈ i.table.commandsOf c →
      j.handlers[name]? = i.handlers[name]? := by
    intro c hc name params hmem
    have hcommands : s.flatMap i.table.commandsOf =
        [.forward none, .push, .custom "dot" [], .rotate 1.0, .pop, .pop, .forward none] := by
      decide +kernel
    have hname := List.mem_flatMap.mpr ⟨c, hc, hmem⟩
    rw [hcommands] at hname
    obtain ⟨rfl, -⟩ : name = "dot" ∧ params = [] := by simpa using hname
    rfl
  obtain ⟨hfilter, hothers, hinterpreters⟩ := interpretFrom_of_bindings_met i s {}
  refine ⟨hfails, ?_, hsame, ?_, ?_⟩
  · rw [hfilter, hfails]
    rfl
  · rcases hothers s' hsame with ⟨d, hd, -⟩ | ⟨e, k, he, hk, hoccurrence⟩
    · rw [hfails] at hd
      cases hd
    · rw [hfails] at he
      cases he
      exact ⟨k, hk, hoccurrence⟩
  · rw [hinterpreters j rfl hbound hhandled, hfails]

end Interpreter

end LSystem
