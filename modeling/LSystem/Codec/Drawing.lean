import LSystem.Codec.Turtle
import LSystem.Drawing.Basic

/-!
# Saving drawings

Segments are saved as records of their two ends, marks as objects with a tag as their single
field, and drawings as records.  The marks of a drawing are an object with a field for each name;
if a name occurs twice, the last list counts, and a list may be empty.
-/

namespace LSystem

/-- The tree of a segment. -/
def Segment.toJson (s : Segment) : Json :=
  .object [("start", s.start.toJson), ("end", s.stop.toJson)]

/-- The segment of a tree. -/
def Segment.ofJson? (j : Json) : Option Segment := do
  let [start, stop] ← j.record? ["start", "end"] | none
  return ⟨← Point.ofJson? start, ← Point.ofJson? stop⟩

/-- The tree of a mark. -/
def Mark.toJson : Mark → Json
  | point p => .object [("Point", p.toJson)]
  | circle center radius =>
    .object [("Circle", .object [("center", center.toJson), ("radius", .ofSingle radius)])]
  | polyline points => .object [("Polyline", .ofList Point.toJson points)]

/-- The circle of a record. -/
def Mark.circleOfJson? (j : Json) : Option Mark := do
  let [center, radius] ← j.record? ["center", "radius"] | none
  return .circle (← Point.ofJson? center) (← radius.single?)

/-- The mark of a tree. -/
def Mark.ofJson? : Json → Option Mark
  | .object [(tag, content)] =>
    if tag = "Point" then (Point.ofJson? content).map .point
    else if tag = "Circle" then circleOfJson? content
    else if tag = "Polyline" then (content.list? Point.ofJson?).map .polyline
    else none
  | _ => none

/-- The tree of a drawing. -/
def Drawing.toJson (d : Drawing) : Json :=
  .object [("segments", .ofList Segment.toJson d.segments.toList),
    ("auxiliary", .object (d.marks.toList.map fun (name, marks) =>
      (name, .ofList Mark.toJson marks.toList))),
    ("final_state", d.turtle.toJson), ("open_branches", .ofNat d.openBranches)]

/-- The marks of a field. -/
def Drawing.marksOfField? (field : String × Json) : Option (String × Array Mark) :=
  (field.2.list? Mark.ofJson?).map fun marks => (field.1, marks.toArray)

/-- The drawing of a tree. -/
def Drawing.ofJson? (j : Json) : Option Drawing := do
  let [segments, .object marks, turtle, openBranches] ←
    j.record? ["segments", "auxiliary", "final_state", "open_branches"] | none
  return {
    segments := (← segments.list? Segment.ofJson?).toArray
    marks := .ofList (← marks.mapM marksOfField?)
    turtle := ← Turtle.ofJson? turtle
    openBranches := ← openBranches.nat? }

end LSystem
