import LSystem.Interpreter.Basic
import Mathlib.Tactic.Common

/-!
# Primitives

A walk goes over the symbols of a sequence and, for each, down into the nesting of its action.
What it does in the end is to obey commands one after the other, each on behalf of an occurrence.
A `Primitive` is such a command with its occurrence, and the primitives of a sequence are all of
them, in order.

The main statement, `walk_eq_follow`, is that a walk follows the primitives of its sequence.  The
laws of interpretation are proved about lists of primitives, where there is neither nesting nor
an unbound symbol, and come back to sequences through it.
-/

namespace LSystem

/-- A command, with the occurrence whose action it belongs to. -/
structure Primitive where
  place : Occurrence
  command : Command
deriving DecidableEq, Repr

/-! ## The primitives of a sequence -/

namespace ActionTable

/-- The primitives of an occurrence, none if its symbol is not bound. -/
def primitivesAt (table : ActionTable) (place : Occurrence) : List Primitive :=
  match table.get? place.symbol with
  | none => []
  | some action => action.commands.map (Primitive.mk place)

/-- The primitives of a sequence whose first symbol has the given index. -/
def primitivesFrom (table : ActionTable) (index : Nat) (s : Sequence) : List Primitive :=
  (s.zipIdx index).flatMap fun (c, k) => table.primitivesAt ⟨k, c⟩

/-- The primitives of a sequence. -/
def primitives (table : ActionTable) (s : Sequence) : List Primitive := table.primitivesFrom 0 s

@[simp] lemma primitivesFrom_nil (table : ActionTable) (index : Nat) :
    table.primitivesFrom index [] = [] := rfl

lemma primitivesFrom_cons (table : ActionTable) (index : Nat) (c : Symbol) (s : Sequence) :
    table.primitivesFrom index (c :: s) =
      table.primitivesAt ⟨index, c⟩ ++ table.primitivesFrom (index + 1) s := by
  simp only [primitivesFrom, List.zipIdx_cons, List.flatMap_cons]

lemma primitivesFrom_append (table : ActionTable) (index : Nat) (s t : Sequence) :
    table.primitivesFrom index (s ++ t) =
      table.primitivesFrom index s ++ table.primitivesFrom (index + s.length) t := by
  simp only [primitivesFrom, List.zipIdx_append, List.flatMap_append]

lemma primitivesFrom_singleton (table : ActionTable) (index : Nat) (c : Symbol) :
    table.primitivesFrom index [c] = table.primitivesAt ⟨index, c⟩ := by
  rw [primitivesFrom_cons, primitivesFrom_nil, List.append_nil]

lemma primitives_singleton {table : ActionTable} {c : Symbol} {command : Command}
    (h : table.get? c = some (.command command)) :
    table.primitives [c] = [⟨⟨0, c⟩, command⟩] := by
  rw [primitives, primitivesFrom_singleton]
  simp [primitivesAt, h]

/-! ### Their commands -/

/-- The commands that a symbol is bound to, none if it is not bound. -/
def commandsOf (table : ActionTable) (c : Symbol) : List Command :=
  ((table.get? c).map Action.commands).getD []

lemma primitivesAt_eq (table : ActionTable) (place : Occurrence) :
    table.primitivesAt place = (table.commandsOf place.symbol).map (Primitive.mk place) := by
  unfold primitivesAt commandsOf
  cases table.get? place.symbol <;> rfl

lemma map_command_primitivesFrom (table : ActionTable) (index : Nat) (s : Sequence) :
    (table.primitivesFrom index s).map Primitive.command = s.flatMap table.commandsOf := by
  induction s generalizing index with
  | nil => rfl
  | cons c s ih =>
    have hat : (table.primitivesAt ⟨index, c⟩).map Primitive.command = table.commandsOf c := by
      rw [primitivesAt_eq, List.map_map]
      exact List.map_id _
    rw [primitivesFrom_cons, List.map_append, hat, ih, List.flatMap_cons]

lemma commandsOf_insert (table : ActionTable) (c d : Symbol) (a : Action) :
    (table.insert c a).commandsOf d = if c = d then a.commands else table.commandsOf d := by
  rw [commandsOf, get?_insert]
  split <;> rfl

/-- Tables that bind the symbols of a sequence to the same commands, however these are nested, have
the same primitives there. -/
lemma primitivesFrom_congr {table other : ActionTable} {s : Sequence}
    (h : ∀ c ∈ s, table.commandsOf c = other.commandsOf c) (index : Nat) :
    table.primitivesFrom index s = other.primitivesFrom index s := by
  induction s generalizing index with
  | nil => rfl
  | cons c s ih =>
    obtain ⟨hc, hs⟩ := List.forall_mem_cons.mp h
    rw [primitivesFrom_cons, primitivesFrom_cons, primitivesAt_eq, primitivesAt_eq, hc, ih hs]

end ActionTable

/-! ## Renumbering

Where a sequence stands decides about the indices of its primitives, and about nothing else. -/

/-- The same symbol at another index. -/
def Occurrence.mapIndex (f : Nat → Nat) (place : Occurrence) : Occurrence :=
  { place with index := f place.index }

/-- The same command at another index. -/
def Primitive.mapIndex (f : Nat → Nat) (p : Primitive) : Primitive :=
  { p with place := p.place.mapIndex f }

/-- The same cause at another index. -/
def InterpretError.mapIndex (f : Nat → Nat) : InterpretError → InterpretError
  | stackUnderflow index symbol => stackUnderflow (f index) symbol
  | stackOverflow index symbol depth => stackOverflow (f index) symbol depth
  | unknownAction index name => unknownAction (f index) name

@[simp] lemma Primitive.command_mapIndex (f : Nat → Nat) (p : Primitive) :
    (p.mapIndex f).command = p.command := rfl

lemma ActionTable.primitivesAt_mapIndex (table : ActionTable) (f : Nat → Nat)
    (place : Occurrence) :
    table.primitivesAt (place.mapIndex f) =
      (table.primitivesAt place).map (Primitive.mapIndex f) := by
  have hsymbol : (place.mapIndex f).symbol = place.symbol := rfl
  unfold primitivesAt
  rw [hsymbol]
  cases table.get? place.symbol with
  | none => rfl
  | some action =>
    rw [List.map_map]
    rfl

/-- A sequence that stands further to the right has the same primitives, renumbered. -/
lemma ActionTable.primitivesFrom_add (table : ActionTable) (index offset : Nat) (s : Sequence) :
    table.primitivesFrom (index + offset) s =
      (table.primitivesFrom index s).map (Primitive.mapIndex (· + offset)) := by
  induction s generalizing index with
  | nil => rfl
  | cons c s ih =>
    have hplace : (⟨index + offset, c⟩ : Occurrence) =
        Occurrence.mapIndex (· + offset) ⟨index, c⟩ := rfl
    have hindex : index + offset + 1 = index + 1 + offset := by omega
    rw [primitivesFrom_cons, primitivesFrom_cons, List.map_append, hplace,
      primitivesAt_mapIndex, hindex, ih]

lemma ActionTable.primitives_append (table : ActionTable) (s t : Sequence) :
    table.primitives (s ++ t) =
      table.primitives s ++ (table.primitives t).map (Primitive.mapIndex (· + s.length)) := by
  unfold primitives
  rw [primitivesFrom_append, Nat.zero_add, ← primitivesFrom_add, Nat.zero_add]

/-! ## Following primitives -/

namespace Run

/-- Obeys several primitives, from left to right. -/
def follow (limits : Limits) (run : Run) (ps : List Primitive) : Except InterpretError Run :=
  ps.foldlM (fun run p => run.execute limits p.place p.command) run

lemma follow_cons (limits : Limits) (run : Run) (p : Primitive) (ps : List Primitive) :
    run.follow limits (p :: ps) =
      (run.execute limits p.place p.command).bind fun run => run.follow limits ps :=
  List.foldlM_cons

lemma follow_append (limits : Limits) (run : Run) (ps qs : List Primitive) :
    run.follow limits (ps ++ qs) =
      (run.follow limits ps).bind fun run => run.follow limits qs :=
  List.foldlM_append

lemma follow_map_mk (limits : Limits) (run : Run) (place : Occurrence) (cs : List Command) :
    run.follow limits (cs.map (Primitive.mk place)) = run.executeAll limits place cs :=
  List.foldlM_map

end Run

/-- A walk follows the primitives of its sequence. -/
theorem Interpreter.walk_eq_follow (i : Interpreter) (index : Nat) (s : Sequence) (run : Run) :
    i.walk index s run = run.follow i.limits (i.table.primitivesFrom index s) := by
  induction s generalizing index run with
  | nil => rfl
  | cons c s ih =>
    rw [ActionTable.primitivesFrom_cons, Run.follow_append, ActionTable.primitivesAt]
    cases hget : i.table.get? c with
    | none =>
      rw [walk_cons_of_get?_eq_none hget, ih]
      rfl
    | some action =>
      simp only [walk_cons_of_get?_eq_some hget, Run.follow_map_mk, Run.perform_eq_executeAll, ih]

/-- Tables with the same primitives lead to the same interpretation. -/
lemma Interpreter.interpretFrom_withTable {i : Interpreter} {other : ActionTable} {s : Sequence}
    (h : ∀ c ∈ s, other.commandsOf c = i.table.commandsOf c) (initial : Turtle) :
    (i.withTable other).interpretFrom s initial = i.interpretFrom s initial := by
  rw [interpretFrom, interpretFrom, walk_eq_follow, walk_eq_follow]
  have hprimitives : (i.withTable other).table.primitivesFrom 0 s = i.table.primitivesFrom 0 s :=
    ActionTable.primitivesFrom_congr h 0
  rw [hprimitives]
  rfl

end LSystem
