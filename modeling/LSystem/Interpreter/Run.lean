import Std.Data.ExtTreeMap
import LSystem.Interpreter.Error
import LSystem.Interpreter.Handler
import LSystem.Turtle.Action

/-!
# Runs

A run is the state of a walk: the turtle, the poses that were saved, the last one first, and the
drawing so far.  This module says what one command and one action do to a run.

Two things limit a run: how many poses may be saved at once, and which names have a handler.  They
are the `Limits` of a run, and all else about an interpreter is of no concern to it.  A command
that exceeds them fails, and its failure names the occurrence, that is the symbol and its index,
whose action it belongs to.

`Run.perform` goes down into nested actions.  It depends on their commands only, in order.
-/

namespace LSystem

/-- What limits a run. -/
structure Limits where
  /-- How many poses may be saved at once. -/
  maxStackDepth : Nat
  handlers : Std.ExtTreeMap String Handler

/-- A symbol at a place of the sequence. -/
structure Occurrence where
  index : Nat
  symbol : Symbol
deriving DecidableEq, Repr, Inhabited

/-- The state of a walk. -/
structure Run where
  turtle : Turtle
  saved : List Pose
  drawing : Drawing

namespace Run

/-- The run of a turtle that has not done anything yet. -/
def start (turtle : Turtle) : Run := ⟨turtle, [], .start turtle⟩

/-- The drawing of a run that has come to its end. -/
def finish (run : Run) : Drawing :=
  { run.drawing with turtle := run.turtle, openBranches := run.saved.length }

/-! ## What commands do -/

/-- Draws a segment ahead. -/
def drawAhead (run : Run) (distance : Float32) : Run :=
  let turtle := run.turtle.advance distance
  { run with
    turtle
    drawing := run.drawing.addSegment run.turtle.position turtle.position }

/-- Applies what the handler of a name asked for. -/
def applyEffect (run : Run) (name : String) (effect : Effect) : Run :=
  { run with
    turtle := (run.turtle.displace effect.offset).rotate effect.angle
    drawing := run.drawing.addMarks name effect.marks }

/-- Obeys one command. -/
def execute (limits : Limits) (place : Occurrence) (run : Run) :
    Command → Except InterpretError Run
  | .forward distance => .ok (run.drawAhead (distance.getD run.turtle.stepLength))
  | .move distance =>
    .ok { run with turtle := run.turtle.advance (distance.getD run.turtle.stepLength) }
  | .rotate angle => .ok { run with turtle := run.turtle.rotate angle }
  | .turnAround => .ok { run with turtle := run.turtle.rotate halfTurn }
  | .push =>
    if limits.maxStackDepth ≤ run.saved.length then
      .error (.stackOverflow place.index place.symbol limits.maxStackDepth)
    else .ok { run with saved := run.turtle.toPose :: run.saved }
  | .pop =>
    match run.saved with
    | [] => .error (.stackUnderflow place.index place.symbol)
    | pose :: rest => .ok { run with turtle := run.turtle.restore pose, saved := rest }
  | .custom name params =>
    match limits.handlers[name]? with
    | none => .error (.unknownAction place.index name)
    | some handler => .ok (run.applyEffect name (handler run.turtle params))

/-! ## What actions do -/

mutual

/-- Performs an action. -/
def perform (limits : Limits) (place : Occurrence) : Action → Run → Except InterpretError Run
  | .command c, run => run.execute limits place c
  | .combine parts, run => performAll limits place parts run

/-- Performs several actions, from left to right. -/
def performAll (limits : Limits) (place : Occurrence) :
    List Action → Run → Except InterpretError Run
  | [], run => .ok run
  | a :: rest, run => do performAll limits place rest (← perform limits place a run)

end

/-- Obeys several commands, from left to right. -/
def executeAll (limits : Limits) (place : Occurrence) (run : Run) (commands : List Command) :
    Except InterpretError Run :=
  commands.foldlM (execute limits place) run

@[simp] theorem executeAll_nil (limits : Limits) (place : Occurrence) (run : Run) :
    run.executeAll limits place [] = .ok run := rfl

theorem executeAll_append (limits : Limits) (place : Occurrence) (run : Run)
    (cs ds : List Command) :
    run.executeAll limits place (cs ++ ds) =
      (run.executeAll limits place cs).bind fun run => run.executeAll limits place ds :=
  List.foldlM_append

mutual

/-- Performing an action is obeying its commands. -/
theorem perform_eq_executeAll (limits : Limits) (place : Occurrence) :
    ∀ (a : Action) (run : Run),
      perform limits place a run = run.executeAll limits place a.commands
  | .command c, run => by
    rw [perform, Action.commands_command, executeAll, List.foldlM_cons]
    cases run.execute limits place c <;> rfl
  | .combine parts, run => by
    rw [perform, Action.commands_combine]
    exact performAll_eq_executeAll limits place parts run

/-- Performing several actions is obeying their commands one after the other. -/
theorem performAll_eq_executeAll (limits : Limits) (place : Occurrence) :
    ∀ (parts : List Action) (run : Run),
      performAll limits place parts run =
        run.executeAll limits place (parts.flatMap Action.commands)
  | [], run => rfl
  | a :: rest, run => by
    rw [performAll, perform_eq_executeAll limits place a run, List.flatMap_cons,
      executeAll_append]
    cases run.executeAll limits place a.commands with
    | error e => rfl
    | ok next => exact performAll_eq_executeAll limits place rest next

end

end Run

end LSystem
