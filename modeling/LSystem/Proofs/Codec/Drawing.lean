import LSystem.Codec.Drawing
import LSystem.Proofs.Json.Tree

/-!
# What is read back from records

Points, turtles, configurations, segments, marks and drawings are read back from their trees exactly
if the numbers in them are finite and the counts fit a machine word.  A record is read field by
field, so its law is put together from those of its fields; that the fields are found in the tree
at all is by computation, since their names are written out on both sides.
-/

namespace LSystem

open Json

/-! ## Numbers of values -/

/-- The numbers of a point. -/
def Point.numbers (p : Point) : List Float32 := [p.x, p.y]

/-- The numbers of a turtle. -/
def Turtle.numbers (t : Turtle) : List Float32 := t.position.numbers ++ [t.heading, t.stepLength]

/-- The numbers of a configuration. -/
def Config.numbers (c : Config) : List Float32 := [c.stepLength] ++ c.origin.numbers ++ [c.heading]

/-- The numbers of a segment. -/
def Segment.numbers (s : Segment) : List Float32 := s.start.numbers ++ s.stop.numbers

/-- The numbers of a mark. -/
def Mark.numbers : Mark → List Float32
  | point p => p.numbers
  | circle center radius => center.numbers ++ [radius]
  | polyline points => points.flatMap Point.numbers

/-- The numbers of a drawing. -/
def Drawing.numbers (d : Drawing) : List Float32 :=
  d.segments.toList.flatMap Segment.numbers ++
    d.marks.toList.flatMap (fun entry => entry.2.toList.flatMap Mark.numbers) ++ d.turtle.numbers

/-! ## Records -/

lemma Point.reads (p : Point) : Reads (ofJson? p.toJson) (AllFinite p.numbers) p := by
  have hread : Reads ((ofSingle p.x).single?.bind fun x =>
      (ofSingle p.y).single?.bind fun y => some ⟨x, y⟩) _ p :=
    (reads_single p.x).bind ((reads_single p.y).bind (.some _))
  refine hread.congr ?_
  simp [numbers]

lemma Turtle.reads (t : Turtle) : Reads (ofJson? t.toJson) (AllFinite t.numbers) t := by
  have hread : Reads ((Point.ofJson? t.position.toJson).bind fun position =>
      (ofSingle t.heading).single?.bind fun heading =>
        (ofSingle t.stepLength).single?.bind fun stepLength =>
          some { position, heading, stepLength }) _ t :=
    t.position.reads.bind ((reads_single _).bind ((reads_single _).bind (.some _)))
  refine hread.congr ?_
  simp [numbers]

lemma Config.reads (c : Config) :
    Reads (ofJson? c.toJson) (AllFinite c.numbers ∧ c.maxStackDepth < wordCount) c := by
  have hread : Reads ((ofSingle c.stepLength).single?.bind fun stepLength =>
      (Point.ofJson? c.origin.toJson).bind fun origin =>
        (ofSingle c.heading).single?.bind fun heading =>
          (ofNat c.maxStackDepth).nat?.bind fun maxStackDepth =>
            some { stepLength, origin, heading, maxStackDepth }) _ c :=
    (reads_single _).bind (c.origin.reads.bind
      ((reads_single _).bind ((reads_nat _).bind (.some _))))
  refine hread.congr ?_
  simp [numbers, and_assoc]

lemma Segment.reads (s : Segment) : Reads (ofJson? s.toJson) (AllFinite s.numbers) s := by
  have hread : Reads ((Point.ofJson? s.start.toJson).bind fun start =>
      (Point.ofJson? s.stop.toJson).bind fun stop => some ⟨start, stop⟩) _ s :=
    s.start.reads.bind (s.stop.reads.bind (.some _))
  refine hread.congr ?_
  simp [numbers]

/-! ## Marks -/

lemma Mark.reads (m : Mark) : Reads (ofJson? m.toJson) (AllFinite m.numbers) m := by
  cases m with
  | point p => exact p.reads.map point
  | circle center radius =>
    have hread : Reads ((Point.ofJson? center.toJson).bind fun center =>
        (ofSingle radius).single?.bind fun radius => some (circle center radius)) _
          (circle center radius) :=
      center.reads.bind ((reads_single radius).bind (.some _))
    refine hread.congr ?_
    simp [numbers]
  | polyline points =>
    have hread := (reads_list fun p (_ : p ∈ points) => p.reads).map polyline
    rw [List.map_id'] at hread
    exact hread.congr allFinite_flatMap.symm

/-! ## Drawings -/

lemma Drawing.reads_marksOfField (name : String) (marks : Array Mark) :
    Reads (marksOfField? (name, .ofList Mark.toJson marks.toList))
      (AllFinite (marks.toList.flatMap Mark.numbers)) (name, marks) := by
  have hread := (reads_list fun m (_ : m ∈ marks.toList) => m.reads).map fun marks =>
    (name, marks.toArray)
  rw [List.map_id'] at hread
  exact hread.congr allFinite_flatMap.symm

lemma Drawing.reads (d : Drawing) :
    Reads (ofJson? d.toJson) (AllFinite d.numbers ∧ d.openBranches < wordCount) d := by
  have hsegments := reads_list fun s (_ : s ∈ d.segments.toList) => s.reads
  have hmarks := Reads.mapM fun entry (_ : entry ∈ d.marks.toList) =>
    reads_marksOfField entry.1 entry.2
  rw [List.map_id'] at hsegments hmarks
  have hwhole : Reads (some (⟨d.segments.toList.toArray, .ofList d.marks.toList, d.turtle,
      d.openBranches⟩ : Drawing)) True d := by
    rw [ofList_toList]
    exact .some d
  have hread : Reads (((ofList Segment.toJson d.segments.toList).list? Segment.ofJson?).bind
      fun segments => ((d.marks.toList.map fun entry =>
        (entry.1, Json.ofList Mark.toJson entry.2.toList)).mapM marksOfField?).bind
          fun marks => (Turtle.ofJson? d.turtle.toJson).bind
            fun turtle => (ofNat d.openBranches).nat?.bind
              fun openBranches => some ⟨segments.toArray, .ofList marks, turtle, openBranches⟩)
      _ d :=
    hsegments.bind (hmarks.bind (d.turtle.reads.bind ((reads_nat _).bind hwhole)))
  refine hread.congr ?_
  simp [numbers, allFinite_flatMap, and_assoc]

end LSystem
