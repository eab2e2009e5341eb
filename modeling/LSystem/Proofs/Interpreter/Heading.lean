import LSystem.Proofs.Interpreter.Depth
import LSystem.Proofs.Interpreter.Trace

/-!
# Headings do not depend on positions

A turtle turns by angles that are written in its commands, and it moves by its heading; where it is
does not matter for either.  So let two turtles look the same way and be sent through the same
sequence from different places.  They look the same way at each stage, save poses that look the
same ways, and come to the same error or to the end.  If their steps are equally long, then they are
displaced by the same offsets as well.

Only a handler could tell the turtles apart, since it is given the whole turtle.  What is asked of
the handlers that are called is that the angle they answer with does not depend on more than the
parameters and the heading (`Handler.TurnsAlike`); their marks and offsets may depend on anything.

The invariant is `Run.LooksLike`.  It compares the saved poses one by one, for a pop can restore a
heading that was saved long before.
-/

namespace LSystem

/-- Given these parameters, a handler turns all turtles that look one way by the same angle. -/
def Handler.TurnsAlike (handler : Handler) (params : List Float32) : Prop :=
  ∀ t u : Turtle, t.heading = u.heading → (handler t params).angle = (handler u params).angle

/-- A command turns all turtles that look one way by the same angle. -/
def Command.TurnsAlike (handlers : Std.ExtTreeMap String Handler) : Command → Prop
  | custom name params => ∀ handler, handlers[name]? = some handler → handler.TurnsAlike params
  | _ => True

/-! ## Stages of a walk -/

namespace Stage

/-- The offset by which a step ahead displaces the turtle, whether it draws or not. -/
def displacement? (stage : Stage) : Option Point :=
  match stage.primitive.command with
  | .forward distance | .move distance =>
    some (stage.before.direction.scale (distance.getD stage.before.stepLength))
  | _ => none

/-- Two stages at which the same command finds two turtles looking the same way, and leaves them
looking the same way. -/
structure LooksLike (stage other : Stage) : Prop where
  primitive : stage.primitive = other.primitive
  before : stage.before.heading = other.before.heading
  after : stage.after.heading = other.after.heading

lemma LooksLike.displacement?_eq {stage other : Stage} (h : stage.LooksLike other)
    (hlength : stage.before.stepLength = other.before.stepLength) :
    stage.displacement? = other.displacement? := by
  have hdirection : stage.before.direction = other.before.direction :=
    congrArg Point.ofAngle h.before
  rw [displacement?, displacement?, h.primitive, hdirection, hlength]

/-- If all steps are equally long, then stages that look alike displace by the same offsets. -/
lemma filterMap_displacement?_eq {stages others : List Stage} {length : Float32}
    (h : List.Forall₂ LooksLike stages others)
    (hstages : ∀ stage ∈ stages, stage.before.stepLength = length)
    (hothers : ∀ stage ∈ others, stage.before.stepLength = length) :
    stages.filterMap displacement? = others.filterMap displacement? := by
  induction h with
  | nil => rfl
  | cons hfirst _ ih =>
    obtain ⟨hstage, hstages⟩ := List.forall_mem_cons.mp hstages
    obtain ⟨hother, hothers⟩ := List.forall_mem_cons.mp hothers
    have hoffset := hfirst.displacement?_eq (hstage.trans hother.symm)
    rw [List.filterMap_cons, List.filterMap_cons, hoffset, ih hstages hothers]

end Stage

namespace Run

/-- The stages that a run goes through as it obeys primitives, up to the first one that it cannot
obey. -/
def stages (limits : Limits) (run : Run) : List Primitive → List Stage
  | [] => []
  | p :: ps =>
    match run.execute limits p.place p.command with
    | .error _ => []
    | .ok next => ⟨p, run.turtle, next.turtle⟩ :: next.stages limits ps

variable {limits : Limits} {run other : Run} {p : Primitive} {ps : List Primitive}

lemma stages_cons_of_error {e : InterpretError}
    (h : run.execute limits p.place p.command = .error e) (ps : List Primitive) :
    run.stages limits (p :: ps) = [] := by
  simp only [stages, h]

lemma stages_cons_of_ok {next : Run} (h : run.execute limits p.place p.command = .ok next)
    (ps : List Primitive) :
    run.stages limits (p :: ps) = ⟨p, run.turtle, next.turtle⟩ :: next.stages limits ps := by
  simp only [stages, h]

/-- The stages trace the run, and what is left after them is nothing or begins with a primitive that
cannot be obeyed. -/
lemma exists_traces_stages (limits : Limits) (run : Run) (ps : List Primitive) :
    ∃ last rest, Traces limits run (run.stages limits ps) last ∧
      (run.stages limits ps).map Stage.primitive ++ rest = ps ∧
      ∀ p ∈ rest.head?, ∃ e, last.execute limits p.place p.command = .error e := by
  induction ps generalizing run with
  | nil => exact ⟨run, [], .nil, rfl, nofun⟩
  | cons p ps ih =>
    cases hfirst : run.execute limits p.place p.command with
    | error e =>
      rw [stages_cons_of_error hfirst]
      refine ⟨run, p :: ps, .nil, rfl, ?_⟩
      rintro _ ⟨rfl⟩
      exact ⟨e, hfirst⟩
    | ok next =>
      obtain ⟨last, rest, htraces, hprimitives, hhalt⟩ := ih next
      rw [stages_cons_of_ok hfirst]
      exact ⟨last, rest, .cons hfirst htraces, congrArg (p :: ·) hprimitives, hhalt⟩

/-! ### Displacements -/

lemma stepLength_of_execute {next : Run} (h : run.execute limits p.place p.command = .ok next) :
    next.turtle.stepLength = run.turtle.stepLength := by
  rw [execute_eq] at h
  split at h
  · cases h
  · cases h
    exact stepLength_after limits.handlers run p.command

lemma position_of_execute {next : Run} (h : run.execute limits p.place p.command = .ok next)
    {offset : Point}
    (hoffset : Stage.displacement? ⟨p, run.turtle, next.turtle⟩ = some offset) :
    next.turtle.position = run.turtle.position + offset := by
  obtain ⟨place, c⟩ := p
  cases c with
  | forward distance | move distance =>
    cases h
    cases hoffset
    rfl
  | _ => cases hoffset

variable {last : Run} {stages : List Stage}

lemma Traces.stepLength_eq (h : Traces limits run stages last) :
    ∀ stage ∈ stages, stage.before.stepLength = run.turtle.stepLength := by
  induction h with
  | nil => exact List.forall_mem_nil _
  | cons hfirst _ ih =>
    rw [stepLength_of_execute hfirst] at ih
    exact List.forall_mem_cons.mpr ⟨rfl, ih⟩

/-- A stage with a displacement adds it to the position. -/
lemma Traces.position_eq_add (h : Traces limits run stages last) :
    ∀ stage ∈ stages, ∀ offset, stage.displacement? = some offset →
      stage.after.position = stage.before.position + offset := by
  induction h with
  | nil => exact List.forall_mem_nil _
  | cons hfirst _ ih => exact List.forall_mem_cons.mpr ⟨fun _ => position_of_execute hfirst, ih⟩

/-! ## Two runs -/

/-- Two runs that look the same way, with as many saved poses that look the same ways in order, and
as many segments. -/
structure LooksLike (run other : Run) : Prop where
  heading : run.turtle.heading = other.turtle.heading
  saved : run.saved.map Pose.heading = other.saved.map Pose.heading
  segments : run.drawing.segments.size = other.drawing.segments.size

namespace LooksLike

lemma start {t u : Turtle} (h : t.heading = u.heading) : LooksLike (.start t) (.start u) :=
  ⟨h, rfl, rfl⟩

lemma length_saved (h : run.LooksLike other) : run.saved.length = other.saved.length := by
  rw [← List.length_map Pose.heading, h.saved, List.length_map]

lemma drawAhead (h : run.LooksLike other) (distance distance' : Float32) :
    (run.drawAhead distance).LooksLike (other.drawAhead distance') where
  heading := h.heading
  saved := h.saved
  segments := by
    simp only [Run.drawAhead, Drawing.segments_addSegment, Array.size_push, h.segments]

lemma pop (h : run.LooksLike other) (handlers : Std.ExtTreeMap String Handler) :
    (run.after handlers .pop).LooksLike (other.after handlers .pop) := by
  have hsaved := h.saved
  cases hrun : run.saved with
  | nil =>
    rw [hrun, List.map_nil, eq_comm, List.map_eq_nil_iff] at hsaved
    simpa only [Run.after, hrun, hsaved] using h
  | cons pose rest =>
    rw [hrun, List.map_cons, eq_comm, List.map_eq_cons_iff] at hsaved
    obtain ⟨pose', rest', hother, hpose, hrest⟩ := hsaved
    rw [after_pop hrun, after_pop hother]
    exact ⟨hpose.symm, hrest.symm, h.segments⟩

lemma applyEffect (h : run.LooksLike other) (name : String) {effect effect' : Effect}
    (hangle : effect.angle = effect'.angle) :
    (run.applyEffect name effect).LooksLike (other.applyEffect name effect') where
  heading := by
    simp only [Run.applyEffect, Turtle.heading_rotate, Turtle.heading_displace, h.heading, hangle]
  saved := h.saved
  segments := by simpa only [Run.applyEffect, Drawing.segments_addMarks] using h.segments

/-- A command that turns both runs by the same angle leaves them looking the same way. -/
lemma after {handlers : Std.ExtTreeMap String Handler} {c : Command} (h : run.LooksLike other)
    (hturns : c.TurnsAlike handlers) :
    (run.after handlers c).LooksLike (other.after handlers c) := by
  cases c with
  | forward distance => exact h.drawAhead _ _
  | move distance => exact ⟨h.heading, h.saved, h.segments⟩
  | rotate angle => exact ⟨congrArg (· + angle) h.heading, h.saved, h.segments⟩
  | turnAround => exact ⟨congrArg (· + halfTurn) h.heading, h.saved, h.segments⟩
  | push => exact ⟨h.heading, congrArg₂ List.cons h.heading h.saved, h.segments⟩
  | pop => exact h.pop handlers
  | custom name params =>
    simp only [Run.after]
    cases hget : handlers[name]? with
    | none => exact h
    | some handler => exact h.applyEffect name (hturns handler hget _ _ h.heading)

/-- **The step.**  Two runs that look the same way refuse a primitive for the same cause, or else
both obey it and look the same way again. -/
lemma execute (h : run.LooksLike other) (limits : Limits) (p : Primitive) :
    (∃ e, run.execute limits p.place p.command = .error e ∧
      other.execute limits p.place p.command = .error e) ∨
    ∃ next next', run.execute limits p.place p.command = .ok next ∧
      other.execute limits p.place p.command = .ok next' ∧
      (p.command.TurnsAlike limits.handlers → next.LooksLike next') := by
  rw [execute_eq, execute_eq, h.length_saved]
  cases limits.fault? other.saved.length p with
  | some e => exact .inl ⟨e, rfl, rfl⟩
  | none => exact .inr ⟨_, _, rfl, rfl, h.after⟩

/-- **The run.**  Two runs that look the same way look the same way at all stages, and come to the
same error or both to the end, if no command that is reached tells them apart. -/
lemma follow (h : run.LooksLike other) (ps : List Primitive)
    (hturns : ∀ stage ∈ run.stages limits ps,
      stage.primitive.command.TurnsAlike limits.handlers) :
    List.Forall₂ Stage.LooksLike (run.stages limits ps) (other.stages limits ps) ∧
    ((∃ e, run.follow limits ps = .error e ∧ other.follow limits ps = .error e) ∨
      ∃ last last', run.follow limits ps = .ok last ∧ other.follow limits ps = .ok last' ∧
        last.LooksLike last') := by
  induction ps generalizing run other with
  | nil => exact ⟨.nil, .inr ⟨run, other, rfl, rfl, h⟩⟩
  | cons p ps ih =>
    rw [follow_cons, follow_cons]
    rcases h.execute limits p with ⟨e, hrun, hother⟩ | ⟨next, next', hrun, hother, hnext⟩
    · rw [stages_cons_of_error hrun, stages_cons_of_error hother, hrun, hother]
      exact ⟨.nil, .inl ⟨e, rfl, rfl⟩⟩
    · rw [stages_cons_of_ok hrun] at hturns
      obtain ⟨hfirst, hrest⟩ := List.forall_mem_cons.mp hturns
      have hlooks : next.LooksLike next' := hnext hfirst
      obtain ⟨hstages, hend⟩ := ih hlooks hrest
      rw [stages_cons_of_ok hrun, stages_cons_of_ok hother, hrun, hother]
      exact ⟨.cons ⟨rfl, h.heading, hlooks.heading⟩ hstages, hend⟩

end LooksLike

end Run

/-! ## Interpretations -/

namespace Interpreter

/-- The stages that the interpretation of a sequence goes through, up to its end or to the primitive
that it fails at. -/
def stages (i : Interpreter) (s : Sequence) (initial : Turtle) : List Stage :=
  (Run.start initial).stages i.limits (i.table.primitives s)

variable {i : Interpreter} {s : Sequence} {t u : Turtle}

/-- **Headings do not depend on positions.**  Let two turtles look the same way, wherever they are
and however long their steps, and let the handlers that are called turn them alike.  Then a sequence
fails with the same error from both, or it is drawn from both, with the same heading in the end, as
many open branches and as many segments; and at each stage on the way the two look the same way.  If
their steps are equally long, then the steps ahead, the drawn ones and the others, displace the two
by the same offsets, in order.  Here the stages trace a walk up to its end or to the primitive that
it fails at, and a displacement is what is added to the position before. -/
theorem interpretFrom_ignores_position (hheading : t.heading = u.heading)
    (hturns : ∀ stage ∈ i.stages s t, stage.primitive.command.TurnsAlike i.handlers) :
    ((∃ e, i.interpretFrom s t = .error e ∧ i.interpretFrom s u = .error e) ∨
      ∃ d d', i.interpretFrom s t = .ok d ∧ i.interpretFrom s u = .ok d' ∧
        d.turtle.heading = d'.turtle.heading ∧ d.openBranches = d'.openBranches ∧
        d.segments.size = d'.segments.size) ∧
    List.Forall₂ Stage.LooksLike (i.stages s t) (i.stages s u) ∧
    (t.stepLength = u.stepLength →
      (i.stages s t).filterMap Stage.displacement? =
        (i.stages s u).filterMap Stage.displacement?) ∧
    ∀ initial,
      (∃ last rest, Run.Traces i.limits (.start initial) (i.stages s initial) last ∧
        (i.stages s initial).map Stage.primitive ++ rest = i.table.primitives s ∧
        ∀ p ∈ rest.head?, ∃ e, last.execute i.limits p.place p.command = .error e) ∧
      ∀ stage ∈ i.stages s initial, ∀ offset, stage.displacement? = some offset →
        stage.after.position = stage.before.position + offset := by
  have htraces := fun initial =>
    Run.exists_traces_stages i.limits (.start initial) (i.table.primitives s)
  have hstart : (Run.start t).LooksLike (.start u) := .start hheading
  obtain ⟨hstages, hend⟩ := hstart.follow (i.table.primitives s) hturns
  refine ⟨?_, hstages, ?_, ?_⟩
  · rw [interpretFrom_eq_follow, interpretFrom_eq_follow]
    rcases hend with ⟨e, ht, hu⟩ | ⟨last, last', ht, hu, hlooks⟩
    · exact .inl ⟨e, by rw [ht]; rfl, by rw [hu]; rfl⟩
    · exact .inr ⟨last.finish, last'.finish, by rw [ht]; rfl, by rw [hu]; rfl, hlooks.heading,
        hlooks.length_saved, hlooks.segments⟩
  · intro hlength
    have hsteps : ∀ v, ∀ stage ∈ i.stages s v, stage.before.stepLength = v.stepLength := by
      intro v
      obtain ⟨_, _, hv, -⟩ := htraces v
      exact hv.stepLength_eq
    refine Stage.filterMap_displacement?_eq hstages (hsteps t) ?_
    rw [hlength]
    exact hsteps u
  · intro initial
    obtain ⟨_, _, hinitial, -⟩ := htraces initial
    exact ⟨htraces initial, hinitial.position_eq_add⟩

/-- A handler that jumps by where the turtle is, and turns by its parameter, is called in a branch;
the other sequence fails after it. -/
theorem interpretFrom_ignores_position_of_a_jump :
    let jump : Handler := fun t params =>
      { marks := [.point t.position], offset := t.position, angle := params.headD 0.0 }
    let table := ActionTable.ofList [('F', Command.forward none), ('f', Command.move (some 3.0)),
      ('X', .combine [Command.push, .combine [Command.custom "jump" [0.5], Command.forward none]]),
      (']', Command.pop)]
    let i : Interpreter := { table, handlers := (∅ : Std.ExtTreeMap _ _).insert "jump" jump }
    let t : Turtle := { position := ⟨3.0, 4.0⟩ }
    let u : Turtle := { stepLength := 2.0 }
    let v : Turtle := {}
    (∃ d d', i.interpretFrom "FXf]F".toList t = .ok d ∧ i.interpretFrom "FXf]F".toList u = .ok d' ∧
      d.turtle.heading = d'.turtle.heading ∧ d.segments.size = d'.segments.size) ∧
    i.interpretFrom "FX]]F".toList t = .error (.stackUnderflow 3 ']') ∧
    i.interpretFrom "FX]]F".toList u = .error (.stackUnderflow 3 ']') ∧
    ((i.stages "FXf]F".toList t).filterMap Stage.displacement?).length = 4 ∧
    (i.stages "FXf]F".toList t).filterMap Stage.displacement? =
      (i.stages "FXf]F".toList v).filterMap Stage.displacement? := by
  intro jump table i t u v
  have hturns : ∀ s, ∀ stage ∈ i.stages s t, stage.primitive.command.TurnsAlike i.handlers := by
    rintro s ⟨⟨place, c⟩, before, after⟩ -
    cases c with
    | custom name params =>
      intro handler hget t u _
      rw [Std.ExtTreeMap.getElem?_insert] at hget
      split at hget
      · cases hget
        rfl
      · rw [Std.ExtTreeMap.getElem?_empty] at hget
        cases hget
    | _ => trivial
  have hdrawn : i.fault? "FXf]F".toList = none := by decide +kernel
  have hfails : i.fault? "FX]]F".toList = some (.stackUnderflow 3 ']') := by decide +kernel
  have hu : t.heading = u.heading := rfl
  have hv : t.heading = v.heading := rfl
  obtain ⟨hsame, -⟩ := interpretFrom_ignores_position hu (hturns "FXf]F".toList)
  obtain ⟨hsame', -⟩ := interpretFrom_ignores_position hu (hturns "FX]]F".toList)
  obtain ⟨-, -, hoffsets, -⟩ := interpretFrom_ignores_position hv (hturns "FXf]F".toList)
  refine ⟨?_, interpretFrom_eq_error_iff.mpr hfails, ?_, by decide +kernel, hoffsets rfl⟩
  · rcases hsame with ⟨e, ht, -⟩ | ⟨d, d', ht, hu, hheading, -, hsize⟩
    · rw [interpretFrom_eq_error_iff, hdrawn] at ht
      cases ht
    · exact ⟨d, d', ht, hu, hheading, hsize⟩
  · rcases hsame' with ⟨e, ht, hu⟩ | ⟨d, d', ht, -⟩
    · rw [interpretFrom_eq_error_iff, hfails] at ht
      cases ht
      exact hu
    · rw [interpretFrom_eq_error_iff.mpr hfails] at ht
      cases ht

end Interpreter

end LSystem
