import LSystem.Proofs.Interpreter.Primitive

/-!
# Control and effect

Whether a command can be obeyed depends on the run only through the number of poses that it has
saved, its *height*.  What the command does, if it can be obeyed, depends on the turtle, the saved
poses and the drawing, but on no limit except the meaning of the handlers.  So a run comes apart
into two functions of its list of primitives:

* `Limits.firstFault?` follows the height only and finds the primitive that stops the run;
* `Run.afterAll` is total and computes the run that is reached when nothing stops it.

`Interpreter.interpretFrom_eq` says that an interpretation is the first of them if it finds a
fault, and the second otherwise.  Statements about errors are then statements about heights, and
statements about drawings never have to split on errors.
-/

namespace LSystem

/-! ## Heights and faults -/

/-- The number of saved poses after a primitive that is obeyed at a height. -/
def Primitive.heightAfter (p : Primitive) (height : Nat) : Nat :=
  match p.command with
  | .push => height + 1
  | .pop => height - 1
  | _ => height

/-- The number of saved poses after several primitives. -/
def Primitive.heightAfterAll (height : Nat) (ps : List Primitive) : Nat :=
  ps.foldl (fun height p => p.heightAfter height) height

namespace Limits

/-- Why a primitive cannot be obeyed at a height. -/
def fault? (limits : Limits) (height : Nat) (p : Primitive) : Option InterpretError :=
  match p.command with
  | .push =>
    if limits.maxStackDepth ≤ height then
      some (.stackOverflow p.place.index p.place.symbol limits.maxStackDepth)
    else none
  | .pop => if height = 0 then some (.stackUnderflow p.place.index p.place.symbol) else none
  | .custom name _ =>
    if limits.handlers[name]?.isNone then some (.unknownAction p.place.index name) else none
  | _ => none

/-- Why several primitives cannot be obeyed one after the other, from a height on. -/
def firstFault? (limits : Limits) : Nat → List Primitive → Option InterpretError
  | _, [] => none
  | height, p :: ps =>
    (limits.fault? height p).or (limits.firstFault? (p.heightAfter height) ps)

@[simp] lemma firstFault?_nil (limits : Limits) (height : Nat) :
    limits.firstFault? height [] = none := rfl

lemma firstFault?_append (limits : Limits) (height : Nat) (ps qs : List Primitive) :
    limits.firstFault? height (ps ++ qs) =
      (limits.firstFault? height ps).or
        (limits.firstFault? (Primitive.heightAfterAll height ps) qs) := by
  induction ps generalizing height with
  | nil => rfl
  | cons p ps ih =>
    rw [List.cons_append, firstFault?, firstFault?, ih, Option.or_assoc]
    rfl

lemma firstFault?_singleton (limits : Limits) (height : Nat) (p : Primitive) :
    limits.firstFault? height [p] = limits.fault? height p := by
  rw [firstFault?, firstFault?_nil, Option.or_none]

/-- If primitives keep their commands and their faults change in a certain way, then the first fault
changes in that way. -/
lemma firstFault?_map {limits : Limits} {f : Primitive → Primitive}
    {g : InterpretError → InterpretError} (hcommand : ∀ p, (f p).command = p.command)
    (hfault : ∀ height p, limits.fault? height (f p) = (limits.fault? height p).map g)
    (height : Nat) (ps : List Primitive) :
    limits.firstFault? height (ps.map f) = (limits.firstFault? height ps).map g := by
  induction ps generalizing height with
  | nil => rfl
  | cons p ps ih =>
    have hheight : (f p).heightAfter height = p.heightAfter height := by
      rw [Primitive.heightAfter, hcommand]
      rfl
    rw [List.map_cons, firstFault?, firstFault?, hfault, hheight, ih, Option.map_or]

lemma firstFault?_map_mapIndex (limits : Limits) (f : Nat → Nat) (height : Nat)
    (ps : List Primitive) :
    limits.firstFault? height (ps.map (Primitive.mapIndex f)) =
      (limits.firstFault? height ps).map (InterpretError.mapIndex f) := by
  refine firstFault?_map (Primitive.command_mapIndex f) ?_ height ps
  rintro height ⟨place, c⟩
  cases c with
  | push => simp only [fault?, Primitive.mapIndex]; split <;> rfl
  | pop => simp only [fault?, Primitive.mapIndex]; split <;> rfl
  | custom name params => simp only [fault?, Primitive.mapIndex]; split <;> rfl
  | _ => rfl

end Limits

/-! ## Effects -/

namespace Run

/-- What a command makes of a run, if it can be obeyed; otherwise it makes nothing of it. -/
def after (handlers : Std.ExtTreeMap String Handler) (run : Run) : Command → Run
  | .forward distance => run.drawAhead (distance.getD run.turtle.stepLength)
  | .move distance =>
    { run with turtle := run.turtle.advance (distance.getD run.turtle.stepLength) }
  | .rotate angle => { run with turtle := run.turtle.rotate angle }
  | .turnAround => { run with turtle := run.turtle.rotate halfTurn }
  | .push => { run with saved := run.turtle.toPose :: run.saved }
  | .pop =>
    match run.saved with
    | [] => run
    | pose :: rest => { run with turtle := run.turtle.restore pose, saved := rest }
  | .custom name params =>
    match handlers[name]? with
    | none => run
    | some handler => run.applyEffect name (handler run.turtle params)

lemma after_pop {run : Run} {pose : Pose} {rest : List Pose} (h : run.saved = pose :: rest)
    (handlers : Std.ExtTreeMap String Handler) :
    run.after handlers .pop =
      { run with turtle := run.turtle.restore pose, saved := rest } := by
  simp [after, h]

/-- What several primitives make of a run. -/
def afterAll (handlers : Std.ExtTreeMap String Handler) (run : Run) (ps : List Primitive) : Run :=
  ps.foldl (fun run p => run.after handlers p.command) run

@[simp] lemma afterAll_cons (handlers : Std.ExtTreeMap String Handler) (run : Run)
    (p : Primitive) (ps : List Primitive) :
    run.afterAll handlers (p :: ps) = (run.after handlers p.command).afterAll handlers ps := rfl

lemma afterAll_append (handlers : Std.ExtTreeMap String Handler) (run : Run)
    (ps qs : List Primitive) :
    run.afterAll handlers (ps ++ qs) = (run.afterAll handlers ps).afterAll handlers qs :=
  List.foldl_append

lemma afterAll_map_mapIndex (handlers : Std.ExtTreeMap String Handler) (f : Nat → Nat)
    (run : Run) (ps : List Primitive) :
    run.afterAll handlers (ps.map (Primitive.mapIndex f)) = run.afterAll handlers ps := by
  simp only [afterAll, List.foldl_map, Primitive.command_mapIndex]

/-! ## The two together -/

/-- A command is refused for its fault, and obeyed if it has none. -/
lemma execute_eq (limits : Limits) (run : Run) (p : Primitive) :
    run.execute limits p.place p.command =
      match limits.fault? run.saved.length p with
      | some e => .error e
      | none => .ok (run.after limits.handlers p.command) := by
  obtain ⟨place, c⟩ := p
  cases c with
  | push =>
    simp only [execute, Limits.fault?]
    split <;> rfl
  | pop =>
    simp only [execute, Limits.fault?]
    cases hsaved : run.saved with
    | nil => rfl
    | cons pose rest => simp [after_pop hsaved]
  | custom name params =>
    simp only [execute, Limits.fault?]
    cases hget : limits.handlers[name]? with
    | none => rfl
    | some handler => simp [after, hget]
  | _ => rfl

lemma length_saved_after {limits : Limits} {run : Run} {p : Primitive}
    (h : limits.fault? run.saved.length p = none) :
    (run.after limits.handlers p.command).saved.length = p.heightAfter run.saved.length := by
  obtain ⟨place, c⟩ := p
  cases c with
  | pop =>
    cases hsaved : run.saved with
    | nil => simp [Limits.fault?, hsaved] at h
    | cons pose rest => simp [after_pop hsaved, Primitive.heightAfter]
  | custom name params =>
    simp only [after, Primitive.heightAfter]
    split <;> rfl
  | _ => rfl

/-- Primitives are followed up to their first fault, and to the end if there is none. -/
theorem follow_eq (limits : Limits) (run : Run) (ps : List Primitive) :
    run.follow limits ps =
      match limits.firstFault? run.saved.length ps with
      | some e => .error e
      | none => .ok (run.afterAll limits.handlers ps) := by
  induction ps generalizing run with
  | nil => rfl
  | cons p ps ih =>
    rw [follow_cons, execute_eq, Limits.firstFault?]
    cases hfault : limits.fault? run.saved.length p with
    | some e => rfl
    | none =>
      rw [Option.none_or, ← length_saved_after hfault]
      exact ih _

lemma length_saved_afterAll {limits : Limits} {run : Run} {ps : List Primitive}
    (h : limits.firstFault? run.saved.length ps = none) :
    (run.afterAll limits.handlers ps).saved.length =
      Primitive.heightAfterAll run.saved.length ps := by
  induction ps generalizing run with
  | nil => rfl
  | cons p ps ih =>
    rw [Limits.firstFault?, Option.or_eq_none_iff] at h
    obtain ⟨hfault, hrest⟩ := h
    rw [← length_saved_after hfault] at hrest
    rw [afterAll_cons, ih hrest, length_saved_after hfault]
    rfl

end Run

/-! ## Interpretations -/

namespace Interpreter

/-- Why a sequence cannot be interpreted. -/
def fault? (i : Interpreter) (s : Sequence) : Option InterpretError :=
  i.limits.firstFault? 0 (i.table.primitives s)

/-- The run that a sequence leads to, if nothing stops it. -/
def finalRun (i : Interpreter) (s : Sequence) (initial : Turtle) : Run :=
  (Run.start initial).afterAll i.handlers (i.table.primitives s)

lemma finalRun_append (i : Interpreter) (s t : Sequence) (initial : Turtle) :
    i.finalRun (s ++ t) initial =
      (i.finalRun s initial).afterAll i.handlers (i.table.primitives t) := by
  unfold finalRun
  rw [ActionTable.primitives_append, Run.afterAll_append, Run.afterAll_map_mapIndex]

lemma length_saved_finalRun {i : Interpreter} {s : Sequence} (h : i.fault? s = none)
    (initial : Turtle) :
    (i.finalRun s initial).saved.length =
      Primitive.heightAfterAll 0 (i.table.primitives s) :=
  @Run.length_saved_afterAll i.limits (.start initial) _ h

/-- Two sequences in a row are faulty where the first is, or else where the second is at the
height that the first one leaves. -/
lemma fault?_append (i : Interpreter) (s t : Sequence) (initial : Turtle) :
    i.fault? (s ++ t) =
      (i.fault? s).or
        ((i.limits.firstFault? (i.finalRun s initial).saved.length (i.table.primitives t)).map
          (InterpretError.mapIndex (· + s.length))) := by
  unfold fault?
  rw [ActionTable.primitives_append, Limits.firstFault?_append, Limits.firstFault?_map_mapIndex]
  cases hs : i.limits.firstFault? 0 (i.table.primitives s) with
  | some e => rfl
  | none => rw [length_saved_finalRun hs]

/-- An interpretation fails for the first fault of its primitives, and without a fault its drawing
is that of the run they lead to. -/
theorem interpretFrom_eq (i : Interpreter) (s : Sequence) (initial : Turtle) :
    i.interpretFrom s initial =
      match i.fault? s with
      | some e => .error e
      | none => .ok (i.finalRun s initial).finish := by
  have hfollow := Run.follow_eq i.limits (.start initial) (i.table.primitives s)
  have hheight : (Run.start initial).saved.length = 0 := rfl
  rw [hheight] at hfollow
  rw [interpretFrom, walk_eq_follow, ← ActionTable.primitives, hfollow, fault?]
  cases i.limits.firstFault? 0 (i.table.primitives s) <;> rfl

lemma interpretFrom_eq_error_iff {i : Interpreter} {s : Sequence} {initial : Turtle}
    {e : InterpretError} : i.interpretFrom s initial = .error e ↔ i.fault? s = some e := by
  rw [interpretFrom_eq]
  cases i.fault? s <;> simp

lemma interpretFrom_eq_ok_iff {i : Interpreter} {s : Sequence} {initial : Turtle} {d : Drawing} :
    i.interpretFrom s initial = .ok d ↔
      i.fault? s = none ∧ (i.finalRun s initial).finish = d := by
  rw [interpretFrom_eq]
  cases i.fault? s <;> simp

lemma interpretFrom_of_fault?_eq_none {i : Interpreter} {s : Sequence} (h : i.fault? s = none)
    (initial : Turtle) : i.interpretFrom s initial = .ok (i.finalRun s initial).finish :=
  interpretFrom_eq_ok_iff.mpr ⟨h, rfl⟩

end Interpreter

end LSystem
