import LSystem.Drawing.Basic

/-!
# Bounds

The bounds of a drawing are the smallest upright box around its segments and marks.  Its corners
are accumulated over the points that pull at them, from corners at infinity on the wrong side, so
a drawing that covers no point leaves a box with its sides exchanged, which is no box.

A circle pulls the lower corner to its own lower left corner and the upper corner to its own
upper right one; a mark of any other kind pulls both corners to the same points.

The marks are visited list by list, in an order that is a parameter of `boundsIn`; `bounds` takes
the order of the names.  As long as only numbers pull at the corners the order does not matter.  A
coordinate that is not a number takes the place of what was accumulated and gives way to the next,
so then the box may depend on what is visited after it.
-/

namespace LSystem

/-- An upright box. -/
structure Box where
  lower : Point
  upper : Point
deriving DecidableEq, Repr, Inhabited

/-- The points to which a mark pulls the lower corner of a box. -/
def Mark.lowPoints : Mark → List Point
  | point p => [p]
  | circle center radius => [center - .diagonal radius.abs]
  | polyline points => points

/-- The points to which a mark pulls the upper corner of a box. -/
def Mark.highPoints : Mark → List Point
  | point p => [p]
  | circle center radius => [center + .diagonal radius.abs]
  | polyline points => points

namespace Drawing

/-- Positive infinity. -/
def infinity : Float32 := Float32.ofBits 0x7F800000

/-- The ends of segments, in order. -/
def endpoints (segments : List Segment) : List Point :=
  segments.flatMap fun s => [s.start, s.stop]

/-- The points that pull the lower corner, the marks being visited in a given order. -/
def lowPoints (d : Drawing) (marks : List (Array Mark)) : List Point :=
  endpoints d.segments.toList ++ marks.flatMap fun group => group.toList.flatMap Mark.lowPoints

/-- The points that pull the upper corner, the marks being visited in a given order. -/
def highPoints (d : Drawing) (marks : List (Array Mark)) : List Point :=
  endpoints d.segments.toList ++ marks.flatMap fun group => group.toList.flatMap Mark.highPoints

/-- The corners that the points of a drawing pull out. -/
def corners (d : Drawing) (marks : List (Array Mark)) : Box :=
  { lower := (d.lowPoints marks).foldl Point.lower (.diagonal infinity)
    upper := (d.highPoints marks).foldl Point.upper (.diagonal (-infinity)) }

/-- The box around a drawing, the marks being visited in a given order. -/
def boundsIn (d : Drawing) (marks : List (Array Mark)) : Option Box :=
  let box := d.corners marks
  if box.lower.x ≤ box.upper.x then some box else none

/-- The box around a drawing, absent if it covers nothing. -/
def bounds (d : Drawing) : Option Box := d.boundsIn d.marks.values

end Drawing

end LSystem
