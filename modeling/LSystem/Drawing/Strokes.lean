import LSystem.Drawing.Basic

/-!
# Strokes

A stroke is a polyline that the pen draws without being lifted.  Segments make up one stroke as
long as each starts where the one before it stopped; a segment that starts elsewhere opens a new
stroke.  Starting where the other stopped is meant numerically, so a zero continues a negative
zero, and nothing continues a segment that stopped at a coordinate that is not a number.
-/

namespace LSystem

/-- Whether the pen can draw a segment right after another. -/
def Segment.continues (before after : Segment) : Bool := before.stop.meets after.start

namespace Drawing

/-- The points of a run of segments: where it starts, and where each segment stops. -/
def strokeOfRun : List Segment → List Point
  | [] => []
  | first :: rest => first.start :: first.stop :: rest.map Segment.stop

/-- The longest runs of segments of which each continues the one before. -/
def runs (segments : List Segment) : List (List Segment) := segments.splitBy Segment.continues

/-- The strokes of a drawing, in order. -/
def strokes (d : Drawing) : List (List Point) := (runs d.segments.toList).map strokeOfRun

@[simp] theorem runs_nil : runs [] = [] := rfl

/-- A run has a point more than segments. -/
theorem length_strokeOfRun {run : List Segment} (h : run ≠ []) :
    (strokeOfRun run).length = run.length + 1 := by
  cases run with
  | nil => exact absurd rfl h
  | cons first rest => simp [strokeOfRun]

end Drawing

end LSystem
