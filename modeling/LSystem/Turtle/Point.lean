/-!
# Points of the plane

Coordinates are single-precision numbers, and every operation on points is done component by
component, each step rounded.  So the results do not depend on anything but the order of the
operations, which is the order in which they are written here.

Two notions of sameness occur.  Equality of points is equality of their bit patterns.  Points
*meet* when their coordinates are numerically equal: the two zeros meet, and a point with a
coordinate that is not a number meets no point, not even itself.
-/

namespace LSystem

/-- A point, or a displacement, in the plane. -/
structure Point where
  x : Float32
  y : Float32
deriving DecidableEq, Repr, Inhabited

namespace Point

/-- The point with both coordinates equal to `a`. -/
def diagonal (a : Float32) : Point := ⟨a, a⟩

/-- The origin of the plane. -/
def origin : Point := diagonal 0.0

instance : Add Point := ⟨fun p q => ⟨p.x + q.x, p.y + q.y⟩⟩

instance : Sub Point := ⟨fun p q => ⟨p.x - q.x, p.y - q.y⟩⟩

/-- The displacement stretched by a factor. -/
def scale (p : Point) (a : Float32) : Point := ⟨p.x * a, p.y * a⟩

@[simp] theorem x_add (p q : Point) : (p + q).x = p.x + q.x := rfl

@[simp] theorem y_add (p q : Point) : (p + q).y = p.y + q.y := rfl

@[simp] theorem x_sub (p q : Point) : (p - q).x = p.x - q.x := rfl

@[simp] theorem y_sub (p q : Point) : (p - q).y = p.y - q.y := rfl

/-- The displacement of length one in a direction given in radians from the first axis. -/
def ofAngle (angle : Float32) : Point := ⟨angle.cos, angle.sin⟩

/-- The length of a displacement. -/
def norm (p : Point) : Float32 := (p.x * p.x + p.y * p.y).sqrt

/-- The distance between two points. -/
def distance (p q : Point) : Float32 := (p - q).norm

/-- Whether two points are numerically the same. -/
def meets (p q : Point) : Bool := p.x == q.x && p.y == q.y

/-! ## Corners

The corners of a box are accumulated one point at a time.  The comparison keeps the accumulated
coordinate only if it is strictly better, so a coordinate that is not a number replaces what was
accumulated, and is replaced itself by the next coordinate. -/

/-- The smaller of an accumulated coordinate and a new one. -/
def lesser (acc new : Float32) : Float32 := if acc < new then acc else new

/-- The larger of an accumulated coordinate and a new one. -/
def greater (acc new : Float32) : Float32 := if acc > new then acc else new

/-- The lower left corner of the box of an accumulated corner and a new point. -/
def lower (acc new : Point) : Point := ⟨lesser acc.x new.x, lesser acc.y new.y⟩

/-- The upper right corner of the box of an accumulated corner and a new point. -/
def upper (acc new : Point) : Point := ⟨greater acc.x new.x, greater acc.y new.y⟩

end Point

end LSystem
