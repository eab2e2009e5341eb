import LSystem.Proofs.Interpreter.Outcome

/-!
# Runs on top of others

A run that starts with poses already saved and something already drawn does what it would do on
an empty stack and a blank drawing: its turtle is the same, its poses come on top of the saved
ones, and its segments and marks come behind what is there.  `Run.OnTop` is this relation between
the run on the empty stack, the *upper* run, and the other one, the *whole* run.

`Run.OnTop.afterAll` is the frame rule.  It asks for no more than that the upper run meets no
fault, for then it never reaches for a pose below its own.
-/

namespace LSystem

/-! ## Drawings behind drawings -/

/-- The segments and marks of a drawing are those of a first one and behind them those of a
second one. -/
structure Drawing.Appended (before upper whole : Drawing) : Prop where
  segments : whole.segments = before.segments ++ upper.segments
  marksOf : ∀ name, whole.marksOf name = before.marksOf name ++ upper.marksOf name
  mem_marks : ∀ name, name ∈ whole.marks ↔ name ∈ before.marks ∨ name ∈ upper.marks

namespace Drawing

@[simp] lemma segments_start (t : Turtle) : (start t).segments = #[] := rfl

@[simp] lemma marksOf_start (t : Turtle) (name : String) : (start t).marksOf name = #[] :=
  Std.ExtTreeMap.getD_empty

@[simp] lemma not_mem_marks_start (t : Turtle) (name : String) : name ∉ (start t).marks :=
  Std.ExtTreeMap.not_mem_empty

lemma mem_marks_addMarks (d : Drawing) (name other : String) (marks : List Mark) :
    other ∈ (d.addMarks name marks).marks ↔ name = other ∧ marks ≠ [] ∨ other ∈ d.marks := by
  unfold addMarks
  by_cases hmarks : marks = []
  · simp [hmarks]
  · simp [hmarks, Std.ExtTreeMap.mem_insert]

namespace Appended

variable {before upper whole : Drawing}

lemma start (d : Drawing) (t : Turtle) : Appended d (.start t) d where
  segments := by simp
  marksOf name := by simp
  mem_marks name := by simp

lemma addSegment (h : Appended before upper whole) (p q : Point) :
    Appended before (upper.addSegment p q) (whole.addSegment p q) where
  segments := by simp [h.segments]
  marksOf name := h.marksOf name
  mem_marks name := h.mem_marks name

lemma addMarks (h : Appended before upper whole) (name : String) (marks : List Mark) :
    Appended before (upper.addMarks name marks) (whole.addMarks name marks) where
  segments := by simpa using h.segments
  marksOf other := by
    rw [marksOf_addMarks, marksOf_addMarks, h.marksOf other]
    split
    · apply Array.ext'
      simp only [Array.toList_append, Array.toList_appendList, List.append_assoc]
    · rfl
  mem_marks other := by
    rw [mem_marks_addMarks, mem_marks_addMarks, h.mem_marks other]
    exact or_left_comm

end Appended

end Drawing

/-! ## The step length -/

@[simp] lemma Run.stepLength_after (handlers : Std.ExtTreeMap String Handler) (run : Run)
    (c : Command) : (run.after handlers c).turtle.stepLength = run.turtle.stepLength := by
  cases c with
  | pop =>
    simp only [after]
    split <;> rfl
  | custom name params =>
    simp only [after]
    split <;> rfl
  | _ => rfl

@[simp] lemma Run.stepLength_afterAll (handlers : Std.ExtTreeMap String Handler) (run : Run)
    (ps : List Primitive) :
    (run.afterAll handlers ps).turtle.stepLength = run.turtle.stepLength := by
  induction ps generalizing run with
  | nil => rfl
  | cons p ps ih => rw [afterAll_cons, ih, stepLength_after]

/-- A turtle that goes back to the pose of another one with the same step length is that one. -/
lemma Turtle.restore_toPose {t u : Turtle} (h : t.stepLength = u.stepLength) :
    t.restore u.toPose = u := by
  obtain ⟨pose, stepLength⟩ := t
  obtain ⟨pose', stepLength'⟩ := u
  subst h
  rfl

/-! ## Runs on top of others -/

/-- A run on an empty stack and a blank drawing, and the same run with the poses `below` saved
already and the drawing `before` drawn already. -/
structure Run.OnTop (below : List Pose) (before : Drawing) (upper whole : Run) : Prop where
  turtle : whole.turtle = upper.turtle
  saved : whole.saved = upper.saved ++ below
  drawing : Drawing.Appended before upper.drawing whole.drawing

namespace Run.OnTop

variable {below : List Pose} {before : Drawing} {upper whole : Run}

/-- A run is on top of any lower part of its saved poses, and of all that it drew. -/
lemma of_saved_eq (run : Run) (top : List Pose) {below : List Pose}
    (h : run.saved = top ++ below) :
    OnTop below run.drawing ⟨run.turtle, top, .start run.turtle⟩ run where
  turtle := rfl
  saved := h
  drawing := .start _ _

/-- One command keeps a run on top of another, if it finds what it needs in the upper run. -/
lemma after {limits : Limits} {p : Primitive} (h : OnTop below before upper whole)
    (hfault : limits.fault? upper.saved.length p = none) :
    OnTop below before (upper.after limits.handlers p.command)
      (whole.after limits.handlers p.command) := by
  obtain ⟨wturtle, wsaved, wdrawing⟩ := whole
  obtain ⟨rfl, rfl, hdrawing⟩ := h
  obtain ⟨place, c⟩ := p
  cases c with
  | forward distance => exact ⟨rfl, rfl, hdrawing.addSegment _ _⟩
  | pop =>
    cases hsaved : upper.saved with
    | nil => simp [Limits.fault?, hsaved] at hfault
    | cons pose rest =>
      rw [after_pop hsaved]
      exact ⟨rfl, rfl, hdrawing⟩
  | custom name params =>
    simp only [Run.after]
    cases limits.handlers[name]? with
    | none => exact ⟨rfl, rfl, hdrawing⟩
    | some handler => exact ⟨rfl, rfl, hdrawing.addMarks _ _⟩
  | _ => exact ⟨rfl, rfl, hdrawing⟩

/-- **The frame rule.**  Primitives that meet no fault on the upper run keep the whole run on
top of what it started from. -/
lemma afterAll {limits : Limits} {ps : List Primitive} (h : OnTop below before upper whole)
    (hfault : limits.firstFault? upper.saved.length ps = none) :
    OnTop below before (upper.afterAll limits.handlers ps)
      (whole.afterAll limits.handlers ps) := by
  induction ps generalizing upper whole with
  | nil => exact h
  | cons p ps ih =>
    rw [Limits.firstFault?, Option.or_eq_none_iff] at hfault
    obtain ⟨hp, hps⟩ := hfault
    rw [← length_saved_after hp] at hps
    exact ih (h.after hp) hps

end Run.OnTop

end LSystem
