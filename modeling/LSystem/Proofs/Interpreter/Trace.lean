import LSystem.Proofs.Interpreter.Frame
import LSystem.Proofs.Traversal

/-!
# Traces

A trace of a run lists its stages: each primitive that was obeyed, with the turtle just before it
and the turtle just after it.  `Run.Traces` relates a run to its trace and to the run that is
reached in the end, and there is such a trace whenever primitives are followed to their end
(`Run.follow_eq_ok_iff`).

What a drawing holds can be read off the trace.  A stage adds a segment if it draws, from where the
turtle was to where it is, and marks if it calls a handler, those that the handler gives for the
turtle before (`Stage.adds_of_execute`).  Nothing is taken away and nothing is added in between, so
the segments of a drawing are those of the stages, in order, and so are the marks under each name.

How the commands are nested in actions does not show in a trace, nor in an error
(`Interpreter.interpretFrom_withTable`).
-/

namespace LSystem

/-- A primitive that was obeyed, with the turtle before it and after it. -/
structure Stage where
  primitive : Primitive
  before : Turtle
  after : Turtle

namespace Stage

/-- The segment that a stage draws. -/
def segment? (stage : Stage) : Option Segment :=
  match stage.primitive.command with
  | .forward _ => some ⟨stage.before.position, stage.after.position⟩
  | _ => none

/-- The marks that a stage makes under a name. -/
def marksUnder (handlers : Std.ExtTreeMap String Handler) (name : String) (stage : Stage) :
    List Mark :=
  match stage.primitive.command with
  | .custom called params =>
    match handlers[called]? with
    | some handler => if called = name then (handler stage.before params).marks else []
    | none => []
  | _ => []

/-- A drawing is another one and behind it what a stage draws and marks. -/
structure Adds (handlers : Std.ExtTreeMap String Handler) (stage : Stage) (d d' : Drawing) :
    Prop where
  segments : d'.segments.toList = d.segments.toList ++ stage.segment?.toList
  marksOf : ∀ name,
    (d'.marksOf name).toList = (d.marksOf name).toList ++ stage.marksUnder handlers name
  mem_marks : ∀ name, name ∈ d'.marks ↔ name ∈ d.marks ∨ stage.marksUnder handlers name ≠ []

variable {handlers : Std.ExtTreeMap String Handler} {stage : Stage}

/-- A stage that neither draws nor calls a handler leaves the drawing as it is. -/
lemma adds_self (hsegment : stage.segment? = none)
    (hmarks : ∀ name, stage.marksUnder handlers name = []) (d : Drawing) :
    stage.Adds handlers d d := by
  constructor <;> simp [hsegment, hmarks]

/-- A primitive that is obeyed adds to the drawing what its stage draws and marks. -/
lemma adds_of_execute {limits : Limits} {run next : Run} {p : Primitive}
    (h : run.execute limits p.place p.command = .ok next) :
    Adds limits.handlers ⟨p, run.turtle, next.turtle⟩ run.drawing next.drawing := by
  obtain ⟨place, c⟩ := p
  cases c with
  | forward distance =>
    cases h
    constructor
    · simp [Run.drawAhead, segment?]
    · exact fun name => (List.append_nil _).symm
    · simp [Run.drawAhead, marksUnder]
  | move | rotate | turnAround =>
    cases h
    exact adds_self rfl (fun _ => rfl) _
  | push | pop =>
    simp only [Run.execute] at h
    split at h
    · cases h
    · cases h
      exact adds_self rfl (fun _ => rfl) _
  | custom called params =>
    simp only [Run.execute] at h
    split at h
    · cases h
    · rename_i handler hget
      cases h
      have hmarks : ∀ (name : String) (after : Turtle),
          marksUnder limits.handlers name ⟨⟨place, .custom called params⟩, run.turtle, after⟩ =
            if called = name then (handler run.turtle params).marks else [] := by
        intro name after
        simp only [marksUnder, hget]
      constructor
      · simp [Run.applyEffect, segment?]
      · intro name
        rw [hmarks, Run.applyEffect, Drawing.marksOf_addMarks]
        split <;> simp
      · intro name
        rw [hmarks, Run.applyEffect, Drawing.mem_marks_addMarks, or_comm]
        split <;> simp [*]

end Stage

/-! ## Traces of runs -/

namespace Run

/-- The stages through which a run goes to another. -/
inductive Traces (limits : Limits) : Run → List Stage → Run → Prop
  | nil {run : Run} : Traces limits run [] run
  | cons {run next last : Run} {p : Primitive} {stages : List Stage}
      (hfirst : run.execute limits p.place p.command = .ok next)
      (hrest : Traces limits next stages last) :
      Traces limits run (⟨p, run.turtle, next.turtle⟩ :: stages) last

variable {limits : Limits} {run last : Run} {stages : List Stage}

lemma Traces.follow_eq (h : Traces limits run stages last) :
    run.follow limits (stages.map Stage.primitive) = .ok last := by
  induction h with
  | nil => rfl
  | cons hfirst _ ih =>
    rw [List.map_cons, follow_cons, hfirst]
    exact ih

/-- Primitives are followed to their end exactly if they have a trace. -/
lemma follow_eq_ok_iff {ps : List Primitive} :
    run.follow limits ps = .ok last ↔
      ∃ stages, Traces limits run stages last ∧ stages.map Stage.primitive = ps := by
  constructor
  · intro h
    induction ps generalizing run with
    | nil =>
      cases h
      exact ⟨[], .nil, rfl⟩
    | cons p ps ih =>
      rw [follow_cons] at h
      obtain ⟨next, hfirst, hrest⟩ := bind_eq_ok_iff.mp h
      obtain ⟨stages, htraces, rfl⟩ := ih hrest
      exact ⟨_, .cons hfirst htraces, rfl⟩
  · rintro ⟨stages, htraces, rfl⟩
    exact htraces.follow_eq

/-! ### What is drawn -/

lemma Traces.segments_eq (h : Traces limits run stages last) :
    last.drawing.segments.toList =
      run.drawing.segments.toList ++ stages.filterMap Stage.segment? := by
  induction h with
  | nil => simp
  | cons hfirst _ ih =>
    rw [ih, (Stage.adds_of_execute hfirst).segments, List.append_assoc, List.filterMap_cons]
    cases Stage.segment? _ <;> rfl

lemma Traces.marksOf_eq (h : Traces limits run stages last) (name : String) :
    (last.drawing.marksOf name).toList =
      (run.drawing.marksOf name).toList ++
        stages.flatMap (Stage.marksUnder limits.handlers name) := by
  induction h with
  | nil => simp
  | cons hfirst _ ih =>
    rw [ih, (Stage.adds_of_execute hfirst).marksOf, List.append_assoc, List.flatMap_cons]

lemma Traces.mem_marks_iff (h : Traces limits run stages last) (name : String) :
    name ∈ last.drawing.marks ↔
      name ∈ run.drawing.marks ∨ stages.flatMap (Stage.marksUnder limits.handlers name) ≠ [] := by
  induction h with
  | nil => simp
  | cons hfirst _ ih =>
    rw [ih, (Stage.adds_of_execute hfirst).mem_marks, or_assoc, List.flatMap_cons, ne_eq, ne_eq,
      ne_eq, List.append_eq_nil_iff, not_and_or]

end Run

/-! ## Grouping -/

/-- The same commands in other groups, somewhere in an action. -/
inductive Action.Regroups : Action → Action → Prop
  | single (a : Action) : Regroups (.combine [a]) a
  | spread (as bs cs : List Action) :
      Regroups (.combine (as ++ .combine bs :: cs)) (.combine (as ++ bs ++ cs))
  | inside {a b : Action} (as cs : List Action) (h : Regroups a b) :
      Regroups (.combine (as ++ a :: cs)) (.combine (as ++ b :: cs))
  | symm {a b : Action} (h : Regroups a b) : Regroups b a
  | trans {a b c : Action} (hab : Regroups a b) (hbc : Regroups b c) : Regroups a c

lemma Action.Regroups.commands_eq {a b : Action} (h : a.Regroups b) :
    a.commands = b.commands := by
  induction h with
  | single a => rw [commands_combine, List.flatMap_singleton]
  | spread as bs cs =>
    simp only [commands_combine, List.flatMap_append, List.flatMap_cons, List.append_assoc]
  | inside as cs _ ih => simp only [commands_combine, List.flatMap_append, List.flatMap_cons, ih]
  | symm _ ih => exact ih.symm
  | trans _ _ ihab ihbc => exact ihab.trans ihbc

/-! ## Drawings -/

namespace Interpreter

variable (i : Interpreter) (s : Sequence) (initial : Turtle)

/-- A sequence is drawn exactly if its primitives have a trace. -/
lemma interpretFrom_eq_ok_iff_traces {d : Drawing} :
    i.interpretFrom s initial = .ok d ↔
      ∃ stages last, Run.Traces i.limits (.start initial) stages last ∧
        stages.map Stage.primitive = i.table.primitives s ∧ last.finish = d := by
  rw [interpretFrom, walk_eq_follow, bind_eq_ok_iff]
  constructor
  · rintro ⟨last, hfollow, hfinish⟩
    obtain ⟨stages, htraces, hprimitives⟩ := Run.follow_eq_ok_iff.mp hfollow
    exact ⟨stages, last, htraces, hprimitives, Except.ok.inj hfinish⟩
  · rintro ⟨stages, last, htraces, hprimitives, rfl⟩
    exact ⟨last, Run.follow_eq_ok_iff.mpr ⟨stages, htraces, hprimitives⟩, rfl⟩

/-- **What a drawing holds.**  If a sequence is drawn, then its primitives have a trace.  The
drawing has one segment for each command of the trace that draws, in order, from where the turtle
was just before to where it was just after; under each name it has the marks that the handler of
that name gave, in order, for the turtle just before each call, and an entry only if there are any;
and the step length is that of the beginning.  How the commands are nested does not matter: an
action does what its commands do one after the other, and tables that bind each symbol to the same
commands lead to the same drawing or the same error, in particular if an action is regrouped. -/
theorem interpretFrom_content :
    (∀ d, i.interpretFrom s initial = .ok d →
      ∃ stages last, Run.Traces i.limits (.start initial) stages last ∧
        stages.map Stage.primitive = i.table.primitives s ∧
        d.segments.toList = stages.filterMap Stage.segment? ∧
        (∀ name, (d.marksOf name).toList = stages.flatMap (Stage.marksUnder i.handlers name) ∧
          (name ∈ d.marks ↔ stages.flatMap (Stage.marksUnder i.handlers name) ≠ [])) ∧
        d.turtle = last.turtle ∧ d.turtle.stepLength = initial.stepLength) ∧
    (∀ (limits : Limits) (place : Occurrence) (a : Action) (run : Run),
      run.perform limits place a = run.executeAll limits place a.commands) ∧
    (∀ other : ActionTable, (∀ c ∈ s, other.commandsOf c = i.table.commandsOf c) →
      (i.withTable other).interpretFrom s initial = i.interpretFrom s initial) ∧
    (∀ c a b, a.Regroups b →
      (i.bind c a).interpretFrom s initial = (i.bind c b).interpretFrom s initial) := by
  refine ⟨?_, ?_, ?_, ?_⟩
  · intro d h
    obtain ⟨-, hfinal⟩ := interpretFrom_eq_ok_iff.mp h
    have hlength : d.turtle.stepLength = initial.stepLength := by
      rw [← hfinal]
      exact Run.stepLength_afterAll i.handlers (.start initial) _
    obtain ⟨stages, last, htraces, hprimitives, rfl⟩ :=
      (interpretFrom_eq_ok_iff_traces i s initial).mp h
    refine ⟨stages, last, htraces, hprimitives, htraces.segments_eq, fun name => ?_, rfl, hlength⟩
    refine ⟨?_, ?_⟩
    · exact htraces.marksOf_eq name
    · exact (htraces.mem_marks_iff name).trans
        (or_iff_right (Drawing.not_mem_marks_start initial name))
  · exact fun limits place a run => Run.perform_eq_executeAll limits place a run
  · exact fun other h => interpretFrom_withTable h initial
  · intro c a b h
    refine interpretFrom_withTable (i := i.bind c b) (fun d _ => ?_) initial
    simp only [bind, ActionTable.commandsOf_insert, h.commands_eq]

/-- A symbol opens a branch, marks where it is and steps aside, draws, and closes the branch. -/
theorem interpretFrom_content_of_marked_branch :
    let leaf : Handler := fun t _ => { marks := [.point t.position], offset := ⟨1.0, 0.0⟩ }
    let branch := [Command.push, .custom "leaf" [], .forward (some 2.0), .pop]
    let nested : Action := .combine [Command.push,
      .combine [Command.custom "leaf" [], .combine [Command.forward (some 2.0)]], Command.pop]
    let table := ActionTable.ofList [('F', Command.forward none), ('X', nested)]
    let flat := table.insert 'X' (.combine (branch.map .command))
    let i : Interpreter := { table, handlers := (∅ : Std.ExtTreeMap _ _).insert "leaf" leaf }
    ∃ d stages last, i.interpretFrom ['F', 'X', 'F'] {} = .ok d ∧
      (i.withTable flat).interpretFrom ['F', 'X', 'F'] {} = .ok d ∧
      Run.Traces i.limits (.start {}) stages last ∧
      stages.map (fun stage => stage.primitive.command) =
        [.forward none] ++ branch ++ [.forward none] ∧
      d.segments.toList = stages.filterMap Stage.segment? ∧
      (d.marksOf "leaf").toList = stages.flatMap (Stage.marksUnder i.handlers "leaf") ∧
      d.segments.size = 3 ∧ (d.marksOf "leaf").size = 1 ∧ "root" ∉ d.marks := by
  intro leaf branch nested table flat i
  have hfault : i.fault? ['F', 'X', 'F'] = none := by decide +kernel
  have hdrawn := interpretFrom_of_fault?_eq_none hfault {}
  obtain ⟨hcontent, -, htables, -⟩ := interpretFrom_content i ['F', 'X', 'F'] {}
  obtain ⟨stages, last, htraces, hprimitives, hsegments, hmarks, -⟩ := hcontent _ hdrawn
  have hflat : ∀ c ∈ ['F', 'X', 'F'], flat.commandsOf c = i.table.commandsOf c := by
    have hnested : (Action.combine (branch.map .command)).commands = table.commandsOf 'X' := by
      decide +kernel
    intro c _
    rw [ActionTable.commandsOf_insert]
    split
    next hc => rw [← hc, hnested]
    next => rfl
  have hcommands : (i.table.primitives ['F', 'X', 'F']).map Primitive.command =
      [.forward none] ++ branch ++ [.forward none] := by decide +kernel
  refine ⟨_, stages, last, hdrawn, (htables flat hflat).trans hdrawn, htraces, ?_, hsegments,
    (hmarks "leaf").1, by decide +kernel, by decide +kernel, by decide +kernel⟩
  rw [← hcommands, ← hprimitives, List.map_map]
  rfl

end Interpreter

end LSystem
