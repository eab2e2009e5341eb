import Std.Data.ExtTreeMap
import LSystem.Turtle.Basic

/-!
# Drawings

A drawing is what a turtle leaves behind: the segments it drew, in the order of drawing; the
marks that handlers emitted, grouped by the name of the handler; the turtle as it ended; and the
number of branches that were opened and not closed.

A name has an entry only if something was emitted under it, so adding no marks adds no entry.
-/

namespace LSystem

/-- A straight stroke. -/
structure Segment where
  start : Point
  stop : Point
deriving DecidableEq, Repr, Inhabited

/-- The distance between the ends of a segment. -/
def Segment.length (s : Segment) : Float32 := s.start.distance s.stop

/-- A piece of geometry that is not a stroke of the pen. -/
inductive Mark where
  | point (position : Point)
  | circle (center : Point) (radius : Float32)
  | polyline (points : List Point)
deriving DecidableEq, Repr, Inhabited

/-- What a turtle leaves behind. -/
structure Drawing where
  segments : Array Segment
  marks : Std.ExtTreeMap String (Array Mark)
  turtle : Turtle
  openBranches : Nat

namespace Drawing

/-- The drawing of a turtle that has not done anything yet. -/
def start (turtle : Turtle) : Drawing := ⟨#[], ∅, turtle, 0⟩

instance : Inhabited Drawing := ⟨start {}⟩

/-- Adds a segment at the end. -/
def addSegment (d : Drawing) (start stop : Point) : Drawing :=
  { d with segments := d.segments.push ⟨start, stop⟩ }

/-- The marks under a name, in the order in which they were added. -/
def marksOf (d : Drawing) (name : String) : Array Mark := d.marks.getD name #[]

/-- Adds marks under a name. -/
def addMarks (d : Drawing) (name : String) (marks : List Mark) : Drawing :=
  if marks.isEmpty then d
  else { d with marks := d.marks.insert name (d.marksOf name ++ marks) }

/-- The lengths of the segments, in order. -/
def lengths (d : Drawing) : List Float32 := d.segments.toList.map Segment.length

@[simp] theorem segments_addSegment (d : Drawing) (p q : Point) :
    (d.addSegment p q).segments = d.segments.push ⟨p, q⟩ := rfl

@[simp] theorem marks_addSegment (d : Drawing) (p q : Point) :
    (d.addSegment p q).marks = d.marks := rfl

@[simp] theorem addMarks_nil (d : Drawing) (name : String) : d.addMarks name [] = d := rfl

@[simp] theorem segments_addMarks (d : Drawing) (name : String) (marks : List Mark) :
    (d.addMarks name marks).segments = d.segments := by
  unfold addMarks
  split <;> rfl

/-- Marks are added behind those of the same name, and leave all others alone. -/
theorem marksOf_addMarks (d : Drawing) (name other : String) (marks : List Mark) :
    (d.addMarks name marks).marksOf other =
      if name = other then d.marksOf other ++ marks else d.marksOf other := by
  unfold addMarks
  split
  · simp_all
  · by_cases h : name = other
    · simp [marksOf, h, Std.ExtTreeMap.getD_insert_self]
    · simp [marksOf, h, Std.ExtTreeMap.getD_insert]

end Drawing

end LSystem
