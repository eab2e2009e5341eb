import LSystem.Proofs.Drawing.Strokes
import LSystem.Proofs.Interpreter.Trace

/-!
# Where the pen is lifted

A turtle jumps when it moves without drawing: back to a saved pose, ahead, or by what a handler asks
for.  As long as it does not jump, it stands where its last segment stopped, whatever it turns or
saves.  So the next segment starts there, bit by bit, and continues the stroke, unless the turtle
stands at a point that is not made of numbers, which nothing continues.

`Run.PenDown` counts with this.  There is one stroke more than jumps and segments that cannot be
joined at most, and if there are that many, then the pen is where the turtle stands.
-/

namespace LSystem

/-- Whether a command may take the turtle elsewhere without drawing. -/
def Command.jumps : Command → Bool
  | move _ | pop | custom _ _ => true
  | forward _ | rotate _ | turnAround | push => false

/-- The number of segments that no segment can be joined to, for they start at a point that is not
made of numbers. -/
def Drawing.unjoinable (d : Drawing) : Nat :=
  d.segments.toList.countP fun s => decide ¬s.start.IsNumber

lemma Drawing.unjoinable_eq_zero_iff {d : Drawing} :
    d.unjoinable = 0 ↔ ∀ s ∈ d.segments.toList, s.start.IsNumber := by
  simp [unjoinable]

/-! ## Stages between jumps -/

namespace Stage

/-- A stage that neither draws nor jumps. -/
def Rests (stage : Stage) : Prop :=
  stage.segment? = none ∧ stage.primitive.command.jumps = false

lemma eq_of_segment?_eq_some {stage : Stage} {s : Segment} (h : stage.segment? = some s) :
    s = ⟨stage.before.position, stage.after.position⟩ := by
  obtain ⟨⟨place, c⟩, before, after⟩ := stage
  cases c <;> cases h
  rfl

/-- A turtle that neither draws nor jumps stays where it is. -/
lemma Rests.position_eq {limits : Limits} {run next : Run} {p : Primitive}
    (h : Rests ⟨p, run.turtle, next.turtle⟩)
    (hfirst : run.execute limits p.place p.command = .ok next) :
    next.turtle.position = run.turtle.position := by
  obtain ⟨place, c⟩ := p
  obtain ⟨hsegment, hjumps⟩ := h
  cases c with
  | forward distance => cases hsegment
  | move | pop | custom => cases hjumps
  | rotate | turnAround =>
    cases hfirst
    rfl
  | push =>
    simp only [Run.execute] at hfirst
    split at hfirst
    · cases hfirst
    · cases hfirst
      rfl

end Stage

namespace Run

variable {limits : Limits} {run last : Run}

lemma Traces.of_append {stages more : List Stage} (h : Traces limits run (stages ++ more) last) :
    ∃ middle, Traces limits run stages middle ∧ Traces limits middle more last := by
  induction stages generalizing run with
  | nil => exact ⟨run, .nil, h⟩
  | cons stage stages ih =>
    cases h with
    | cons hfirst hrest =>
      obtain ⟨middle, hstages, hmore⟩ := ih hrest
      exact ⟨middle, .cons hfirst hstages, hmore⟩

lemma Traces.position_eq {stages : List Stage} (h : Traces limits run stages last)
    (hrests : ∀ stage ∈ stages, stage.Rests) : last.turtle.position = run.turtle.position := by
  induction h with
  | nil => rfl
  | cons hfirst _ ih =>
    obtain ⟨hstage, hstages⟩ := List.forall_mem_cons.mp hrests
    exact (ih hstages).trans (hstage.position_eq hfirst)

/-- A segment starts, bit by bit, where the one before stopped, if there was no jump in between. -/
lemma Traces.stop_eq_start {before middle after : List Stage} {a b : Stage} {x y : Segment}
    (h : Traces limits run (before ++ a :: (middle ++ b :: after)) last)
    (hx : a.segment? = some x) (hy : b.segment? = some y)
    (hrests : ∀ stage ∈ middle, stage.Rests) : x.stop = y.start := by
  obtain ⟨_, -, htail⟩ := h.of_append
  rw [Stage.eq_of_segment?_eq_some hx, Stage.eq_of_segment?_eq_some hy]
  cases htail with
  | cons _ hrest =>
    obtain ⟨_, hmiddle, hafter⟩ := hrest.of_append
    have hposition := hmiddle.position_eq hrests
    cases hafter
    exact hposition.symm

/-! ## Counting strokes -/

/-- There are at most as many strokes as jumps and segments that cannot be joined, and one more; and
if there are as many, then the pen is where the turtle stands. -/
structure PenDown (run : Run) (jumps : Nat) : Prop where
  length_le : run.drawing.strokes.length ≤ jumps + run.drawing.unjoinable + 1
  pen_eq : run.drawing.strokes.length = jumps + run.drawing.unjoinable + 1 →
    Drawing.pen? run.drawing.strokes = some run.turtle.position

lemma PenDown.start (initial : Turtle) : PenDown (.start initial) 0 where
  length_le := Nat.zero_le _
  pen_eq := nofun

/-- A segment that is drawn ahead continues the last stroke, or else there were fewer strokes than
there could be, or it cannot be joined to anything. -/
lemma PenDown.drawAhead {jumps : Nat} (h : run.PenDown jumps) (distance : Float32) :
    (run.drawAhead distance).PenDown jumps := by
  obtain ⟨hlength, hpen⟩ := h
  let s : Segment := ⟨run.turtle.position, (run.turtle.advance distance).position⟩
  have hsegments : (run.drawAhead distance).drawing.segments.toList =
      run.drawing.segments.toList ++ [s] := Array.toList_push
  have hunjoinable : (run.drawAhead distance).drawing.unjoinable =
      run.drawing.unjoinable + if s.start.IsNumber then 0 else 1 := by
    rw [Drawing.unjoinable, hsegments, List.countP_append]
    by_cases hnumber : s.start.IsNumber <;> simp [Drawing.unjoinable, hnumber]
  have hgrows : Drawing.Grows s run.drawing.strokes (run.drawAhead distance).drawing.strokes := by
    rw [Drawing.strokes, Drawing.strokes, hsegments]
    exact Drawing.grows_strokesOf _ s
  refine ⟨?_, fun _ => hgrows.pen?_eq⟩
  rw [hunjoinable]
  rcases hgrows.cases_links with ⟨_, _, -, -, -, hsame, -⟩ | ⟨hbreak, hmore, -⟩
  · omega
  rw [hmore]
  split
  next hnumber =>
    -- The pen is not where the turtle stands, since there it could go on.
    have hne : run.drawing.strokes.length ≠ jumps + run.drawing.unjoinable + 1 := by
      intro heq
      have hmeets := Point.meets_self_iff.mpr hnumber
      rw [hbreak _ (hpen heq)] at hmeets
      cases hmeets
    omega
  next => omega

/-- **The step.**  The count is kept, each jump being counted. -/
lemma PenDown.execute {jumps : Nat} {next : Run} {p : Primitive} (h : run.PenDown jumps)
    (hfirst : run.execute limits p.place p.command = .ok next) :
    next.PenDown (jumps + if p.command.jumps then 1 else 0) := by
  have hadds := Stage.adds_of_execute hfirst
  cases hsegment : Stage.segment? ⟨p, run.turtle, next.turtle⟩ with
  | some s =>
    obtain ⟨place, c⟩ := p
    cases c <;> cases hsegment
    cases hfirst
    exact h.drawAhead _
  | none =>
    have hsegments : next.drawing.segments = run.drawing.segments := by
      have hlist := hadds.segments
      rw [hsegment, Option.toList_none, List.append_nil] at hlist
      exact Array.toList_inj.mp hlist
    have hstrokes : next.drawing.strokes = run.drawing.strokes := by
      rw [Drawing.strokes, hsegments, Drawing.strokes]
    have hunjoinable : next.drawing.unjoinable = run.drawing.unjoinable := by
      rw [Drawing.unjoinable, hsegments, Drawing.unjoinable]
    obtain ⟨hlength, hpen⟩ := h
    cases hjumps : p.command.jumps with
    | true =>
      constructor <;> rw [hstrokes, hunjoinable, if_pos rfl]
      · omega
      · intro heq
        omega
    | false =>
      have hposition := Stage.Rests.position_eq ⟨hsegment, hjumps⟩ hfirst
      constructor <;> rw [hstrokes, hunjoinable, if_neg Bool.false_ne_true]
      · exact hlength
      · rw [hposition]
        exact hpen

/-- The count is kept along a trace. -/
lemma Traces.penDown {stages : List Stage} {jumps : Nat} (h : Traces limits run stages last)
    (hpen : run.PenDown jumps) :
    last.PenDown (jumps + stages.countP fun stage => stage.primitive.command.jumps) := by
  induction h generalizing jumps with
  | nil => exact hpen
  | cons hfirst _ ih =>
    rw [List.countP_cons, add_comm (List.countP _ _), ← add_assoc]
    exact ih (hpen.execute hfirst)

end Run

/-! ## Drawings -/

namespace Interpreter

/-- **The pen is lifted only where the turtle jumps.**  If a sequence is drawn, then its primitives
have a trace, and the segments are those of the stages.  Of two segments with nothing but turns and
pushes between them, the second one starts, bit by bit, where the first one stopped, and the two are
in one stroke, unless a coordinate of this point is not a number.  So there is at most one stroke
more than jumps, apart from the segments that start at such a point; and without segments there is
no stroke. -/
theorem interpretFrom_lifts_pen_only_for_jumps {i : Interpreter} {s : Sequence} {initial : Turtle}
    {d : Drawing} (h : i.interpretFrom s initial = .ok d) :
    (∃ stages last, Run.Traces i.limits (.start initial) stages last ∧
      stages.map Stage.primitive = i.table.primitives s ∧
      d.segments.toList = stages.filterMap Stage.segment? ∧
      ∀ before a middle b after x y, stages = before ++ a :: (middle ++ b :: after) →
        a.segment? = some x → b.segment? = some y → (∀ stage ∈ middle, stage.Rests) →
        let k := (before.filterMap Stage.segment?).length
        x.stop = y.start ∧ (d.InOneStroke k (k + 1) ↔ y.start.IsNumber)) ∧
    d.strokes.length ≤
      (i.table.primitives s).countP (fun p => p.command.jumps) + d.unjoinable + 1 ∧
    ((∀ x ∈ d.segments.toList, x.start.IsNumber) →
      d.strokes.length ≤ (i.table.primitives s).countP (fun p => p.command.jumps) + 1) ∧
    (d.segments = #[] → d.strokes = []) := by
  obtain ⟨stages, last, htraces, hprimitives, rfl⟩ :=
    (interpretFrom_eq_ok_iff_traces i s initial).mp h
  have hsegments : last.finish.segments.toList = stages.filterMap Stage.segment? :=
    htraces.segments_eq
  have hcount : last.finish.strokes.length ≤
      (i.table.primitives s).countP (fun p => p.command.jumps) + last.finish.unjoinable + 1 := by
    have hpen := htraces.penDown (.start initial)
    rw [Nat.zero_add] at hpen
    rw [← hprimitives, List.countP_map]
    exact hpen.length_le
  refine ⟨⟨stages, last, htraces, hprimitives, hsegments, ?_⟩, hcount, ?_, ?_⟩
  · rintro before a middle b after x y rfl hx hy hrests k
    have hjoins : x.stop = y.start := htraces.stop_eq_start hx hy hrests
    have hmiddle : middle.filterMap Stage.segment? = [] :=
      List.filterMap_eq_nil_iff.mpr fun stage hstage => (hrests stage hstage).1
    have hsplit : last.finish.segments.toList =
        before.filterMap Stage.segment? ++ x :: y :: after.filterMap Stage.segment? := by
      rw [hsegments, List.filterMap_append, List.filterMap_cons_some hx, List.filterMap_append,
        hmiddle, List.filterMap_cons_some hy, List.nil_append]
    refine ⟨hjoins, ?_⟩
    rw [Drawing.inOneStroke_iff hsplit, hjoins, Point.meets_self_iff]
  · intro hnumbers
    rwa [Drawing.unjoinable_eq_zero_iff.mpr hnumbers] at hcount
  · intro hnone
    rw [Drawing.strokes, hnone]
    rfl

/-- A symbol turns and opens a branch, another one closes it, and one is not bound.  The second
segment goes on from the first one, and the third one comes after the only jump. -/
theorem interpretFrom_lifts_pen_only_for_jumps_of_a_branch :
    let table := ActionTable.ofList [('F', Command.forward none),
      ('T', .combine [Command.rotate 1.0, .combine [Command.push]]), ('B', Command.pop)]
    let i : Interpreter := { table }
    ∃ d first second third, i.interpretFrom ['F', 'Q', 'T', 'F', 'B', 'F'] {} = .ok d ∧
      d.segments.toList = [first, second, third] ∧
      first.stop = second.start ∧ (d.InOneStroke 0 1 ↔ second.start.IsNumber) ∧
      d.strokes.length ≤ 1 + d.unjoinable + 1 := by
  intro table i
  have hfault : i.fault? ['F', 'Q', 'T', 'F', 'B', 'F'] = none := by decide +kernel
  have hdrawn := interpretFrom_of_fault?_eq_none hfault {}
  obtain ⟨⟨stages, last, -, hprimitives, hsegments, hjoined⟩, hcount, -, -⟩ :=
    interpretFrom_lifts_pen_only_for_jumps hdrawn
  have hall : i.table.primitives ['F', 'Q', 'T', 'F', 'B', 'F'] =
      [⟨⟨0, 'F'⟩, .forward none⟩, ⟨⟨2, 'T'⟩, .rotate 1.0⟩, ⟨⟨2, 'T'⟩, .push⟩,
        ⟨⟨3, 'F'⟩, .forward none⟩, ⟨⟨4, 'B'⟩, .pop⟩, ⟨⟨5, 'F'⟩, .forward none⟩] := by
    decide +kernel
  rw [hall] at hprimitives hcount
  simp only [List.map_eq_cons_iff, List.map_eq_nil_iff] at hprimitives
  obtain ⟨⟨_, _, _⟩, _, rfl, rfl, ⟨_, _, _⟩, _, rfl, rfl, ⟨_, _, _⟩, _, rfl, rfl, ⟨_, _, _⟩, _, rfl,
    rfl, ⟨_, _, _⟩, _, rfl, rfl, ⟨_, _, _⟩, _, rfl, rfl, rfl⟩ := hprimitives
  obtain ⟨hjoins, hiff⟩ := hjoined [] _ [_, _] _ [_, _] _ _ rfl rfl rfl
    (List.forall_mem_cons.mpr ⟨⟨rfl, rfl⟩, List.forall_mem_singleton.mpr ⟨rfl, rfl⟩⟩)
  exact ⟨_, _, _, _, hdrawn, hsegments, hjoins, hiff, hcount⟩

end Interpreter

end LSystem
