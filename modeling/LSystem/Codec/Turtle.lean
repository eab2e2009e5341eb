import LSystem.Interpreter.Basic
import LSystem.Json.Basic

/-!
# Saving points, turtles and configurations

A point is saved as an array of its two coordinates.  Turtles and configurations are saved as
records with one field for each part; the fields of the pose of a turtle stand directly among
those of the turtle.
-/

namespace LSystem

/-! ## Points -/

/-- The tree of a point. -/
def Point.toJson (p : Point) : Json := .array [.ofSingle p.x, .ofSingle p.y]

/-- The point of a tree. -/
def Point.ofJson? : Json → Option Point
  | .array [x, y] => do return ⟨← x.single?, ← y.single?⟩
  | _ => none

/-! ## Turtles -/

/-- The tree of a turtle. -/
def Turtle.toJson (t : Turtle) : Json :=
  .object [("position", t.position.toJson), ("heading", .ofSingle t.heading),
    ("step_length", .ofSingle t.stepLength)]

/-- The turtle of a tree. -/
def Turtle.ofJson? (j : Json) : Option Turtle := do
  let [position, heading, stepLength] ← j.record? ["position", "heading", "step_length"] | none
  return {
    position := ← Point.ofJson? position
    heading := ← heading.single?
    stepLength := ← stepLength.single? }

/-! ## Configurations -/

/-- The tree of a configuration. -/
def Config.toJson (c : Config) : Json :=
  .object [("step_length", .ofSingle c.stepLength), ("origin", c.origin.toJson),
    ("heading", .ofSingle c.heading), ("max_stack_depth", .ofNat c.maxStackDepth)]

/-- The configuration of a tree. -/
def Config.ofJson? (j : Json) : Option Config := do
  let [stepLength, origin, heading, maxStackDepth] ←
    j.record? ["step_length", "origin", "heading", "max_stack_depth"] | none
  return {
    stepLength := ← stepLength.single?
    origin := ← Point.ofJson? origin
    heading := ← heading.single?
    maxStackDepth := ← maxStackDepth.nat? }

end LSystem
