import LSystem.Interpreter.Basic
import LSystem.Proofs.Turtle.ActionTable

/-!
# Runs of edits to a table

A table is built by a run of edits.  Some of them are made to the table itself, others through the
interpreter that holds it; some write one binding, others write many at once or put another table in
its place.  Here the table under edit is always that of an interpreter.

Each edit comes down to events in the life of single bindings: a symbol is bound, its binding is
taken away, or all bindings are taken away since the table is replaced.  `TableEdit.table_perform`
says so, one case per edit, and then the history of a run, which is the list of its events, says
what each symbol is bound to: what the last event that concerns the symbol left behind
(`TableEvent.get?_applyAll`).
-/

namespace LSystem

/-! ## Events -/

/-- What can happen to bindings. -/
inductive TableEvent where
  /-- A symbol is bound. -/
  | write (c : Symbol) (a : Action)
  /-- The binding of a symbol is taken away. -/
  | erase (c : Symbol)
  /-- All bindings are taken away. -/
  | clear

namespace TableEvent

/-- What an event does to a table. -/
def apply (table : ActionTable) : TableEvent → ActionTable
  | write c a => table.insert c a
  | erase c => table.erase c
  | clear => ∅

/-- Whether an event decides about the binding of a symbol. -/
def concerns (c : Symbol) : TableEvent → Bool
  | write d _ | erase d => d = c
  | clear => true

/-- The action that an event leaves the symbols bound to that it concerns. -/
def action? : TableEvent → Option Action
  | write _ a => some a
  | erase _ | clear => none

/-- What several events do to a table, one after the other. -/
def applyAll (table : ActionTable) (events : List TableEvent) : ActionTable :=
  events.foldl apply table

/-- The events of binding the symbols of a list, in order. -/
def writes (bindings : List (Symbol × Action)) : List TableEvent :=
  bindings.map fun binding => write binding.1 binding.2

lemma get?_apply (table : ActionTable) (event : TableEvent) (c : Symbol) :
    (event.apply table).get? c = if event.concerns c then event.action? else table.get? c := by
  cases event with
  | write d a => simp only [apply, concerns, action?, ActionTable.get?_insert, decide_eq_true_eq]
  | erase d => simp only [apply, concerns, action?, ActionTable.get?_erase, decide_eq_true_eq]
  | clear => exact ActionTable.get?_empty c

lemma eq_write_iff {event : TableEvent} {c : Symbol} {a : Action} :
    event = write c a ↔ event.concerns c = true ∧ event.action? = some a := by
  cases event <;> simp [concerns, action?]

lemma applyAll_append (table : ActionTable) (events events' : List TableEvent) :
    applyAll table (events ++ events') = applyAll (applyAll table events) events' :=
  List.foldl_append

lemma applyAll_writes (table : ActionTable) (bindings : List (Symbol × Action)) :
    applyAll table (writes bindings) = table.extend bindings :=
  List.foldl_map

/-- The last event that concerns a symbol says what it is bound to, and the table is asked if there
is none. -/
lemma get?_applyAll (table : ActionTable) (events : List TableEvent) (c : Symbol) :
    (applyAll table events).get? c =
      ((events.reverse.find? (concerns c)).map action?).getD (table.get? c) := by
  induction events using List.reverseRecOn with
  | nil => rfl
  | append_singleton events event ih =>
    rw [applyAll_append, List.reverse_concat, List.find?_cons]
    refine (get?_apply _ event c).trans ?_
    cases event.concerns c with
    | true => rfl
    | false => exact ih

/-- A symbol is bound to the action of the last write to it that nothing undid later. -/
lemma get?_applyAll_empty_iff {events : List TableEvent} {c : Symbol} {a : Action} :
    (applyAll ∅ events).get? c = some a ↔
      ∃ before after, events = before ++ write c a :: after ∧
        ∀ event ∈ after, event.concerns c = false := by
  rw [get?_applyAll, ActionTable.get?_empty]
  constructor
  · intro h
    obtain ⟨event, hfind, ha⟩ : ∃ event, events.reverse.find? (concerns c) = some event ∧
        event.action? = some a := by
      cases hfind : events.reverse.find? (concerns c) with
      | none => simp [hfind] at h
      | some event => exact ⟨event, rfl, by simpa [hfind] using h⟩
    obtain ⟨hconcerns, after, before, hsplit, hafter⟩ := List.find?_eq_some_iff_append.mp hfind
    obtain rfl := eq_write_iff.mpr ⟨hconcerns, ha⟩
    refine ⟨before.reverse, after.reverse, ?_, ?_⟩
    · rw [← List.reverse_reverse events, hsplit]
      simp
    · simpa using hafter
  · rintro ⟨before, after, rfl, hafter⟩
    have hfind : (before ++ write c a :: after).reverse.find? (concerns c) = some (write c a) := by
      refine List.find?_eq_some_iff_append.mpr ⟨?_, after.reverse, before.reverse, ?_, ?_⟩
      · simp [concerns]
      · simp
      · simpa using hafter
    rw [hfind]
    rfl

end TableEvent

/-! ## Edits -/

/-- An edit of the table of an interpreter. -/
inductive TableEdit where
  /-- Binds a symbol, for an answer. -/
  | set (c : Symbol) (a : Action)
  /-- Binds a symbol. -/
  | insert (c : Symbol) (a : Action)
  /-- Takes the binding of a symbol away. -/
  | remove (c : Symbol)
  /-- Binds the symbols of a list. -/
  | extend (bindings : List (Symbol × Action))
  /-- Puts the table of a list in the place of the one that was there. -/
  | collect (bindings : List (Symbol × Action))
  /-- Binds a symbol for the interpreter. -/
  | bind (c : Symbol) (a : Action)
  /-- Gives the interpreter another table. -/
  | replace (table : ActionTable)
  /-- Gives the interpreter the usual bindings. -/
  | bindStandard (angle : Float32)

namespace TableEdit

/-- Makes an edit. -/
def perform (i : Interpreter) : TableEdit → Interpreter
  | set c a => i.withTable (i.table.set c a).2
  | insert c a => i.withTable (i.table.insert c a)
  | remove c => i.withTable (i.table.remove c).2
  | extend bindings => i.withTable (i.table.extend bindings)
  | collect bindings => i.withTable (.ofList bindings)
  | bind c a => i.bind c a
  | replace table => i.withTable table
  | bindStandard angle => i.bindStandard angle

/-- Makes several edits, one after the other. -/
def run (edits : List TableEdit) (i : Interpreter) : Interpreter := edits.foldl perform i

/-- What happens to bindings when an edit is made, in order. -/
def events : TableEdit → List TableEvent
  | set c a | insert c a | bind c a => [.write c a]
  | remove c => [.erase c]
  | extend bindings => TableEvent.writes bindings
  | collect bindings => .clear :: TableEvent.writes bindings
  | replace table => .clear :: TableEvent.writes table.toList
  | bindStandard angle => TableEvent.writes (ActionTable.standardBindings angle)

end TableEdit

/-! ## The usual bindings -/

lemma ActionTable.map_fst_standardBindings (angle : Float32) :
    (standardBindings angle).map Prod.fst = "FGf+-|[]".toList := rfl

lemma ActionTable.extend_standard_toList (table : ActionTable) (angle : Float32) :
    table.extend (standard angle).toList = table.extend (standardBindings angle) := by
  refine ext_get? fun c => ?_
  rw [get?_extend_toList, get?_extend, standard, get?_ofList]

namespace Interpreter

variable {angle : Float32} {c : Symbol} {a : Action}

lemma get?_bindStandard (i : Interpreter) (angle : Float32) (c : Symbol) :
    (i.bindStandard angle).table.get? c =
      ((ActionTable.standard angle).get? c).or (i.table.get? c) :=
  i.table.get?_extend_toList _ c

lemma get?_bindStandard_of_mem (i : Interpreter)
    (hmem : (c, a) ∈ ActionTable.standardBindings angle) :
    (i.bindStandard angle).table.get? c = some a := by
  have hnodup : ((ActionTable.standardBindings angle).map Prod.fst).Nodup := by
    rw [ActionTable.map_fst_standardBindings]
    decide
  rw [get?_bindStandard, ActionTable.standard, ActionTable.get?_ofList_of_mem hnodup hmem,
    Option.some_or]

lemma get?_bindStandard_of_not_mem (i : Interpreter) (hc : c ∉ "FGf+-|[]".toList) :
    (i.bindStandard angle).table.get? c = i.table.get? c := by
  rw [← ActionTable.map_fst_standardBindings angle] at hc
  rw [get?_bindStandard, ActionTable.standard, ActionTable.get?_ofList_eq_none hc, Option.none_or]

end Interpreter

namespace TableEdit

/-- **Step lemma.**  An edit does to the table what its events do. -/
lemma table_perform (i : Interpreter) (edit : TableEdit) :
    (perform i edit).table = TableEvent.applyAll i.table edit.events := by
  cases edit with
  | set c a | insert c a | bind c a | remove c => rfl
  | extend bindings => exact (TableEvent.applyAll_writes i.table bindings).symm
  | collect bindings => exact (TableEvent.applyAll_writes ∅ bindings).symm
  | replace table =>
    calc table = ActionTable.ofList table.toList := table.ofList_toList_self.symm
      _ = _ := (TableEvent.applyAll_writes ∅ table.toList).symm
  | bindStandard angle =>
    exact (i.table.extend_standard_toList angle).trans
      (TableEvent.applyAll_writes i.table _).symm

/-- **Run lemma.**  A run of edits does to the table what its history does. -/
lemma table_run (edits : List TableEdit) (i : Interpreter) :
    (run edits i).table = TableEvent.applyAll i.table (edits.flatMap events) := by
  induction edits generalizing i with
  | nil => rfl
  | cons edit edits ih =>
    rw [List.flatMap_cons, TableEvent.applyAll_append, ← table_perform]
    exact ih (perform i edit)

/-- **The table is a finite map over whole runs.**  Whatever edits are made to a table that was
empty, a symbol is bound to the action of the last write to it that no later removal or replacement
undid, and to none if there is no such write; the answers of the table are those of a finite map.
Two runs leave tables that agree exactly if for each symbol the actions agree, and the same table if
they leave the same actions, which then also agrees with itself unless a number is NaN.  The usual
bindings go before those of their eight symbols, and all others are kept. -/
theorem run_isFiniteMap (edits : List TableEdit) (config : Config) :
    let i := run edits { config }
    (∀ c a, i.table.get? c = some a ↔
      ∃ before after, edits.flatMap events = before ++ .write c a :: after ∧
        ∀ event ∈ after, event.concerns c = false) ∧
    i.table.IsFiniteMap ∧
    (∀ (edits' : List TableEdit) (config' : Config),
      let other := (run edits' { config := config' }).table
      (other.agrees i.table = true ↔
        ∀ c, optionAgrees Action.agrees (other.get? c) (i.table.get? c) = true) ∧
      ((∀ c, other.get? c = i.table.get? c) →
        other = i.table ∧
        ((∀ x ∈ i.table.numbers, x.isNaN = false) → other.agrees i.table = true))) ∧
    ∀ angle,
      (ActionTable.standardBindings angle).map Prod.fst = "FGf+-|[]".toList ∧
      (∀ c a, (c, a) ∈ ActionTable.standardBindings angle →
        (i.bindStandard angle).table.get? c = some a) ∧
      ∀ c ∉ "FGf+-|[]".toList, (i.bindStandard angle).table.get? c = i.table.get? c := by
  intro i
  refine ⟨fun c a => ?_, i.table.isFiniteMap, fun edits' config' => ?_, fun angle => ?_⟩
  · rw [table_run edits { config }]
    exact TableEvent.get?_applyAll_empty_iff
  · refine ⟨ActionTable.agrees_iff, fun hget => ?_⟩
    have heq := ActionTable.ext_get? hget
    exact ⟨heq, fun hnan => heq ▸ i.table.agrees_self_iff.mpr hnan⟩
  · exact ⟨ActionTable.map_fst_standardBindings angle,
      fun c a hmem => i.get?_bindStandard_of_mem hmem,
      fun c hc => i.get?_bindStandard_of_not_mem hc⟩

/-- The same bindings come about in two ways, with symbols that are bound again, bindings that are
taken away, and a list in the place of what was there. -/
theorem run_isFiniteMap_of_two_orders :
    let edits := [.set 'X' (Command.forward (some 2.0)), .insert 'B' Command.turnAround,
      .extend [('+', Command.push), ('+', Command.rotate 9.0)], .remove 'B']
    let edits' := [.replace (.ofList [('B', Command.pop)]), .bindStandard 9.0,
      .collect [('+', Command.rotate 9.0), ('X', Command.push)],
      .bind 'X' (Command.forward (some 2.0))]
    let i := run edits {}
    let table' := (run edits' {}).table
    i.table.get? 'X' = some (Command.forward (some 2.0)) ∧
    table' = i.table ∧ table'.agrees i.table = true ∧
    (i.table.remove 'B').1 = none ∧ i.table.size = 2 ∧
    (i.bindStandard 0.25).table.get? 'X' = some (Command.forward (some 2.0)) ∧
    (i.bindStandard 0.25).table.get? '+' = some (Command.rotate 0.25) := by
  intro edits edits' i table'
  have hlist : i.table.toList =
      [('+', .command (.rotate 9.0)), ('X', .command (.forward (some 2.0)))] := by
    rfl
  have hlist' : table'.toList = i.table.toList := by
    rfl
  have hnan : ∀ x ∈ i.table.numbers, x.isNaN = false := by
    rw [ActionTable.numbers, ActionTable.distances, ActionTable.operands, hlist]
    decide +kernel
  obtain ⟨hhistory, hmap, hothers, hstandard⟩ := run_isFiniteMap edits {}
  have hX : i.table.get? 'X' = some (.command (.forward (some 2.0))) :=
    (hhistory 'X' _).mpr ⟨[], [.write 'B' (.command .turnAround), .write '+' (.command .push),
      .write '+' (.command (.rotate 9.0)), .erase 'B'], rfl, by decide⟩
  have hB : i.table.get? 'B' = none := by
    refine Option.eq_none_iff_forall_ne_some.mpr fun a ha => ?_
    have hmem := (hmap.mem_toList_iff 'B' a).mpr ha
    rw [hlist] at hmem
    simp at hmem
  have hget : ∀ c, table'.get? c = i.table.get? c := by
    refine fun c => Option.ext fun a => ?_
    rw [← ActionTable.mem_toList_iff, hlist', ActionTable.mem_toList_iff]
  have hsize : i.table.size = 2 := by
    rfl
  obtain ⟨heq, hagrees⟩ := (hothers edits' {}).2 hget
  obtain ⟨-, hnew, hkept⟩ := hstandard 0.25
  refine ⟨hX, heq, hagrees hnan, (hmap.remove_answer 'B').trans hB, hsize, ?_, ?_⟩
  · exact (hkept 'X' (by decide)).trans hX
  · exact hnew '+' _ (by simp [ActionTable.standardBindings])

end TableEdit

end LSystem
