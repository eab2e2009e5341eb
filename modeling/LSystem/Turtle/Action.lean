import LSystem.Turtle.Basic

/-!
# Commands and actions

A command is one thing that a turtle can be told.  An action is what a symbol is bound to: a
single command, or several actions in order, nested to any depth.  The commands of an action,
read from left to right through all nesting, are its `commands`.

Besides equality, which compares bit patterns, actions have a numerical comparison, `agrees`:
the two zeros agree, and a number that is not a number agrees with nothing.
-/

namespace LSystem

/-- One thing that a turtle can be told. -/
inductive Command where
  /-- Draws a segment ahead, as long as given or as the step length. -/
  | forward (distance : Option Float32)
  /-- Moves ahead without drawing. -/
  | move (distance : Option Float32)
  /-- Turns by an angle. -/
  | rotate (angle : Float32)
  /-- Turns by half a turn. -/
  | turnAround
  /-- Saves the pose. -/
  | push
  /-- Restores the pose that was saved last. -/
  | pop
  /-- Calls the handler of that name. -/
  | custom (name : String) (params : List Float32)
deriving DecidableEq, Repr, Inhabited

/-- What a symbol does when the turtle reads it. -/
inductive Action where
  | command (c : Command)
  /-- Several actions, from left to right. -/
  | combine (parts : List Action)
deriving Repr, Inhabited

namespace Action

instance : Coe Command Action := ⟨command⟩

/-! ## Commands in order -/

mutual

/-- The commands of an action, from left to right. -/
def commands : Action → List Command
  | command c => [c]
  | combine parts => commandsOfAll parts

/-- The commands of several actions, from left to right. -/
def commandsOfAll : List Action → List Command
  | [] => []
  | a :: rest => a.commands ++ commandsOfAll rest

end

@[simp] theorem commands_command (c : Command) : (command c).commands = [c] := rfl

@[simp] theorem commands_combine (parts : List Action) :
    (combine parts).commands = parts.flatMap commands := by
  have hall : ∀ parts : List Action, commandsOfAll parts = parts.flatMap commands := by
    intro parts
    induction parts with
    | nil => rfl
    | cons a rest ih => rw [commandsOfAll, List.flatMap_cons, ih]
  exact hall parts

end Action

/-! ## Numerical comparison -/

/-- Whether two lists have the same length and agree place by place. -/
def listAgrees {α : Type} (agrees : α → α → Bool) : List α → List α → Bool
  | [], [] => true
  | a :: as, b :: bs => agrees a b && listAgrees agrees as bs
  | _, _ => false

/-- Whether both are absent, or both present and agree. -/
def optionAgrees {α : Type} (agrees : α → α → Bool) : Option α → Option α → Bool
  | none, none => true
  | some a, some b => agrees a b
  | _, _ => false

/-- Whether two commands are the same, numbers being compared numerically. -/
def Command.agrees : Command → Command → Bool
  | forward d, forward e => optionAgrees (· == ·) d e
  | move d, move e => optionAgrees (· == ·) d e
  | rotate a, rotate b => a == b
  | turnAround, turnAround => true
  | push, push => true
  | pop, pop => true
  | custom n ps, custom m qs => decide (n = m) && listAgrees (· == ·) ps qs
  | _, _ => false

namespace Action

mutual

/-- Whether two actions are the same, numbers being compared numerically. -/
def agrees : Action → Action → Bool
  | command c, command d => c.agrees d
  | combine as, combine bs => allAgree as bs
  | _, _ => false

/-- Whether two lists of actions are the same, numbers being compared numerically. -/
def allAgree : List Action → List Action → Bool
  | [], [] => true
  | a :: as, b :: bs => a.agrees b && allAgree as bs
  | _, _ => false

end

end Action

end LSystem
