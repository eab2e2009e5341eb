import LSystem.Interpreter.Run
import LSystem.Number.Power
import LSystem.Turtle.ActionTable

/-!
# Interpreters

An interpreter walks over a sequence from left to right and performs the actions that its table
binds the symbols to; symbols without an action are passed over, but they count for the indices
of the others.  The walk ends with a drawing, or with the first failure.

An interpreter has a configuration, from which its turtle starts unless another turtle is given,
and handlers for custom commands.  Its table and its handlers can be replaced entry by entry.

The function `interpret` is the walk without an interpreter: no handlers, and a stack that is not
limited by anything but the size of a machine word.
-/

namespace LSystem

/-! ## Configuration -/

/-- How an interpreter starts, and how deep branches may be nested. -/
structure Config where
  stepLength : Float32 := 1.0
  origin : Point := .origin
  heading : Float32 := quarterTurn
  maxStackDepth : Nat := 1024
deriving DecidableEq, Repr, Inhabited

/-- The turtle that a configuration starts with. -/
def Config.initialTurtle (config : Config) : Turtle :=
  { position := config.origin, heading := config.heading, stepLength := config.stepLength }

/-- A table with the means to perform its actions. -/
structure Interpreter where
  config : Config := {}
  table : ActionTable := ∅
  handlers : Std.ExtTreeMap String Handler := ∅

namespace Interpreter

instance : Inhabited Interpreter := ⟨{}⟩

/-- What limits the runs of an interpreter. -/
def limits (i : Interpreter) : Limits := ⟨i.config.maxStackDepth, i.handlers⟩

/-! ## Bindings -/

/-- Replaces the whole table. -/
def withTable (i : Interpreter) (table : ActionTable) : Interpreter := { i with table }

/-- Binds a symbol. -/
def bind (i : Interpreter) (c : Symbol) (a : Action) : Interpreter :=
  { i with table := i.table.insert c a }

/-- Adds the usual bindings, keeping the others. -/
def bindStandard (i : Interpreter) (angle : Float32) : Interpreter :=
  { i with table := i.table.extend (ActionTable.standard angle).toList }

/-- Gives the custom commands of a name their meaning. -/
def register (i : Interpreter) (name : String) (handler : Handler) : Interpreter :=
  { i with handlers := i.handlers.insert name handler }

/-! ## Walking -/

/-- Walks over a sequence whose first symbol has the given index. -/
def walk (i : Interpreter) : Nat → Sequence → Run → Except InterpretError Run
  | _, [], run => .ok run
  | index, c :: rest, run =>
    match i.table.get? c with
    | none => i.walk (index + 1) rest run
    | some action => do i.walk (index + 1) rest (← run.perform i.limits ⟨index, c⟩ action)

/-- The drawing of a sequence, begun by the given turtle. -/
def interpretFrom (i : Interpreter) (s : Sequence) (initial : Turtle) :
    Except InterpretError Drawing :=
  return (← i.walk 0 s (.start initial)).finish

/-- The drawing of a sequence, begun by the turtle of the configuration. -/
def interpret (i : Interpreter) (s : Sequence) : Except InterpretError Drawing :=
  i.interpretFrom s i.config.initialTurtle

@[simp] theorem walk_nil (i : Interpreter) (index : Nat) (run : Run) :
    i.walk index [] run = .ok run := rfl

theorem walk_cons_of_get?_eq_none {i : Interpreter} {c : Symbol} (h : i.table.get? c = none)
    (index : Nat) (rest : Sequence) (run : Run) :
    i.walk index (c :: rest) run = i.walk (index + 1) rest run := by
  simp [walk, h]

theorem walk_cons_of_get?_eq_some {i : Interpreter} {c : Symbol} {action : Action}
    (h : i.table.get? c = some action) (index : Nat) (rest : Sequence) (run : Run) :
    i.walk index (c :: rest) run =
      (run.perform i.limits ⟨index, c⟩ action).bind fun run => i.walk (index + 1) rest run := by
  simp [walk, h, Bind.bind]

/-- A walk over two sequences is a walk over the first and then over the second. -/
theorem walk_append (i : Interpreter) (index : Nat) (s t : Sequence) (run : Run) :
    i.walk index (s ++ t) run =
      (i.walk index s run).bind fun run => i.walk (index + s.length) t run := by
  induction s generalizing index run with
  | nil => simp [Except.bind]
  | cons c s ih =>
    have hindex : index + 1 + s.length = index + (c :: s).length := by
      simp only [List.length_cons]
      omega
    cases hget : i.table.get? c with
    | none =>
      rw [List.cons_append, walk_cons_of_get?_eq_none hget, walk_cons_of_get?_eq_none hget, ih,
        hindex]
    | some action =>
      rw [List.cons_append, walk_cons_of_get?_eq_some hget, walk_cons_of_get?_eq_some hget]
      cases run.perform i.limits ⟨index, c⟩ action with
      | error e => rfl
      | ok next => simp only [Except.bind, ih, hindex]

end Interpreter

/-- The drawing of a sequence under a table, without handlers and with a stack as deep as a
machine word can count. -/
def interpret (s : Sequence) (table : ActionTable) (initial : Turtle) :
    Except InterpretError Drawing :=
  Interpreter.interpretFrom { config := { maxStackDepth := wordCount - 1 }, table } s initial

end LSystem
