import LSystem.Drawing.Basic

/-!
# Handlers

A handler gives a meaning to the custom commands of one name.  It is a pure function of the
turtle and the parameters of the command.  It cannot draw or move anything itself: its answer, an
effect, lists the marks to be recorded, an offset for the position and an angle for the heading,
and the interpreter applies them without drawing.
-/

namespace LSystem

/-- What a handler asks for. -/
structure Effect where
  marks : List Mark := []
  offset : Point := .origin
  angle : Float32 := 0.0
deriving DecidableEq, Repr, Inhabited

/-- The meaning of the custom commands of one name. -/
abbrev Handler := Turtle → List Float32 → Effect

namespace Handler

/-- Marks a circle around the turtle.  Its radius is the first parameter, or else half of the
step length. -/
def circleMarker : Handler := fun turtle params =>
  { marks := [.circle turtle.position (params.head?.getD (turtle.stepLength * 0.5))] }

/-- Marks the position of the turtle. -/
def dotMarker : Handler := fun turtle _ => { marks := [.point turtle.position] }

end Handler

end LSystem
