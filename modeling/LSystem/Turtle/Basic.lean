import LSystem.Turtle.Point

/-!
# The turtle

A turtle has a pose, which is its position and its heading, and a step length.  Only the pose is
saved and restored at branches; the step length is the same throughout a drawing.

Headings are radians, counter-clockwise from the first axis.  They are added up without being
brought back into one turn, so a heading records all turns that were made, with their rounding.
-/

namespace LSystem

/-- The single nearest to half of π. -/
def quarterTurn : Float32 := Float32.ofBits 0x3FC90FDB

/-- The single nearest to π. -/
def halfTurn : Float32 := Float32.ofBits 0x40490FDB

/-- Where a turtle is and where it is looking. -/
structure Pose where
  position : Point := .origin
  heading : Float32 := quarterTurn
deriving DecidableEq, Repr, Inhabited

/-- A turtle; unless told otherwise it starts at the origin, looking up, with steps of one. -/
structure Turtle extends Pose where
  stepLength : Float32 := 1.0
deriving DecidableEq, Repr, Inhabited

namespace Turtle

/-- The displacement of length one along the heading. -/
def direction (t : Turtle) : Point := .ofAngle t.heading

/-- The turtle turned by an angle, counter-clockwise when positive. -/
def rotate (t : Turtle) (angle : Float32) : Turtle := { t with heading := t.heading + angle }

/-- The turtle displaced by an offset, with the same heading. -/
def displace (t : Turtle) (offset : Point) : Turtle := { t with position := t.position + offset }

/-- The turtle moved by a distance along its heading. -/
def advance (t : Turtle) (distance : Float32) : Turtle :=
  t.displace (t.direction.scale distance)

/-- The turtle in a pose that was saved. -/
def restore (t : Turtle) (pose : Pose) : Turtle := { t with toPose := pose }

@[simp] theorem position_rotate (t : Turtle) (a : Float32) : (t.rotate a).position = t.position :=
  rfl

@[simp] theorem heading_rotate (t : Turtle) (a : Float32) :
    (t.rotate a).heading = t.heading + a := rfl

@[simp] theorem stepLength_rotate (t : Turtle) (a : Float32) :
    (t.rotate a).stepLength = t.stepLength := rfl

@[simp] theorem position_displace (t : Turtle) (offset : Point) :
    (t.displace offset).position = t.position + offset := rfl

@[simp] theorem heading_displace (t : Turtle) (offset : Point) :
    (t.displace offset).heading = t.heading := rfl

@[simp] theorem stepLength_displace (t : Turtle) (offset : Point) :
    (t.displace offset).stepLength = t.stepLength := rfl

@[simp] theorem position_advance (t : Turtle) (d : Float32) :
    (t.advance d).position = t.position + t.direction.scale d := rfl

@[simp] theorem heading_advance (t : Turtle) (d : Float32) : (t.advance d).heading = t.heading :=
  rfl

@[simp] theorem stepLength_advance (t : Turtle) (d : Float32) :
    (t.advance d).stepLength = t.stepLength := rfl

@[simp] theorem toPose_restore (t : Turtle) (pose : Pose) : (t.restore pose).toPose = pose := rfl

@[simp] theorem stepLength_restore (t : Turtle) (pose : Pose) :
    (t.restore pose).stepLength = t.stepLength := rfl

end Turtle

end LSystem
