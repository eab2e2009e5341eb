import LSystem.Proofs.Interpreter.Height
import LSystem.Proofs.Traversal

/-!
# The depth limit

How many poses may be saved decides where a walk is cut short, and nothing else.  Two walks over the
same primitives that differ in this limit go through the same runs, one primitive at a time, until
the one with the lower limit comes to a push that it has no room for.

`Run.Passes` says which runs a walk comes by, and `Limits.Accommodates` when other limits have room
and handlers for all of them.  The lock-step argument is `Run.follow_eq_or_full`: under limits that
accommodate a walk the outcome is the same, or else both walks come to a push for which the first
has no room.  So the outcome of a walk is also that of a walk with a higher limit, unless it is an
overflow, and a walk that succeeds with a higher limit overflows exactly if it saves more poses
somewhere than the lower limit allows.

The walk without an interpreter is one with a very high limit and without handlers, so it compares
in the same way with every interpreter that comes by no custom command.
-/

namespace LSystem

/-! ## Runs that a walk comes by -/

namespace Run

/-- Obeying some primitives, one comes by a run at which certain primitives are left. -/
def Passes (limits : Limits) (run : Run) (ps : List Primitive) (next : Run)
    (rest : List Primitive) : Prop :=
  ∃ qs, qs ++ rest = ps ∧ run.follow limits qs = .ok next

section

variable {limits : Limits} {run next last : Run} {p : Primitive} {ps rest : List Primitive}

lemma Passes.self (limits : Limits) (run : Run) (ps : List Primitive) :
    Passes limits run ps run ps := ⟨[], rfl, rfl⟩

lemma Passes.cons (hfirst : run.execute limits p.place p.command = .ok next)
    (h : Passes limits next ps last rest) : Passes limits run (p :: ps) last rest := by
  obtain ⟨qs, hqs, hfollow⟩ := h
  refine ⟨p :: qs, congrArg (p :: ·) hqs, ?_⟩
  rw [follow_cons, hfirst]
  exact hfollow

/-- What is left at a run that one comes by is still to be followed from there. -/
lemma Passes.follow_eq (h : Passes limits run ps next rest) :
    run.follow limits ps = next.follow limits rest := by
  obtain ⟨qs, rfl, hfollow⟩ := h
  rw [follow_append, hfollow]
  rfl

/-- If all primitives are obeyed, then so is the one that is left at some run. -/
lemma Passes.exists_execute (h : Passes limits run ps next (p :: rest))
    (hfollow : run.follow limits ps = .ok last) :
    ∃ after, next.execute limits p.place p.command = .ok after ∧
      Passes limits run ps after rest := by
  rw [h.follow_eq, follow_cons] at hfollow
  obtain ⟨after, hexecute, -⟩ := bind_eq_ok_iff.mp hfollow
  obtain ⟨qs, hqs, hbegin⟩ := h
  refine ⟨after, hexecute, qs ++ [p], ?_, ?_⟩
  · rw [List.append_assoc, List.singleton_append, hqs]
  · rw [follow_append, hbegin]
    change next.follow limits [p] = .ok after
    rw [follow_cons, hexecute]
    rfl

/-! ### Their heights -/

lemma firstFault?_of_follow (h : run.follow limits ps = .ok next) :
    limits.firstFault? run.saved.length ps = none := by
  rw [follow_eq] at h
  cases hfault : limits.firstFault? run.saved.length ps with
  | none => rfl
  | some e =>
    rw [hfault] at h
    cases h

lemma length_saved_of_follow (h : run.follow limits ps = .ok next) :
    next.saved.length = Primitive.heightAfterAll run.saved.length ps := by
  have hfault := firstFault?_of_follow h
  rw [follow_eq, hfault] at h
  cases h
  exact length_saved_afterAll hfault

lemma length_saved_le_of_follow (h : run.follow limits ps = .ok next)
    (hrun : run.saved.length ≤ limits.maxStackDepth) :
    next.saved.length ≤ limits.maxStackDepth := by
  rw [length_saved_of_follow h]
  exact Primitive.heightAfterAll_le_maxStackDepth (firstFault?_of_follow h) hrun

/-- Where primitives can be obeyed, no run that one comes by under other limits is deeper than the
limit. -/
lemma Passes.length_saved_le {other : Limits} (h : Passes other run ps next rest)
    (hfollow : run.follow limits ps = .ok last)
    (hrun : run.saved.length ≤ limits.maxStackDepth) :
    next.saved.length ≤ limits.maxStackDepth := by
  obtain ⟨qs, rfl, hbegin⟩ := h
  rw [follow_append] at hfollow
  obtain ⟨middle, hmiddle, -⟩ := bind_eq_ok_iff.mp hfollow
  rw [length_saved_of_follow hbegin, ← length_saved_of_follow hmiddle]
  exact length_saved_le_of_follow hmiddle hrun

end

end Run

/-! ## Two walks in lock-step -/

/-- Other limits have room for the poses that a walk saves, and the handlers that it calls. -/
structure Limits.Accommodates (other limits : Limits) (run : Run) (ps : List Primitive) :
    Prop where
  depth : ∀ next rest, Run.Passes limits run ps next rest →
    next.saved.length ≤ other.maxStackDepth
  handlers : ∀ next place name params rest,
    Run.Passes limits run ps next (⟨place, .custom name params⟩ :: rest) →
      other.handlers[name]? = limits.handlers[name]?

namespace Run

variable {limits other : Limits} {run next : Run} {p : Primitive} {ps : List Primitive}

lemma accommodates_tail (h : other.Accommodates limits run (p :: ps))
    (hfirst : run.execute limits p.place p.command = .ok next) :
    other.Accommodates limits next ps where
  depth last rest hpasses := h.depth last rest (hpasses.cons hfirst)
  handlers last place name params rest hpasses :=
    h.handlers last place name params rest (hpasses.cons hfirst)

lemma execute_push_of_full (place : Occurrence) (h : limits.maxStackDepth ≤ run.saved.length) :
    run.execute limits place .push =
      .error (.stackOverflow place.index place.symbol limits.maxStackDepth) := if_pos h

lemma execute_push_of_room (place : Occurrence) (h : run.saved.length < limits.maxStackDepth) :
    run.execute limits place .push = .ok { run with saved := run.turtle.toPose :: run.saved } :=
  if_neg (Nat.not_le.mpr h)

lemma length_saved_of_execute_push {place : Occurrence}
    (h : run.execute limits place .push = .ok next) :
    next.saved.length = run.saved.length + 1 := by
  rcases Nat.lt_or_ge run.saved.length limits.maxStackDepth with hroom | hfull
  · rw [execute_push_of_room place hroom] at h
    cases h
    rfl
  · rw [execute_push_of_full place hfull] at h
    cases h

/-- One command has the same outcome under limits that accommodate it, unless it is a push for
which there is no room. -/
lemma execute_eq_or_full (h : other.Accommodates limits run (p :: ps)) :
    run.execute other p.place p.command = run.execute limits p.place p.command ∨
      p.command = .push ∧ limits.maxStackDepth ≤ run.saved.length := by
  obtain ⟨place, c⟩ := p
  cases c with
  | push =>
    rcases Nat.lt_or_ge run.saved.length limits.maxStackDepth with hroom | hfull
    · have hpush := execute_push_of_room place hroom
      have hother : run.saved.length < other.maxStackDepth :=
        h.depth _ ps ((Passes.self limits _ ps).cons hpush)
      exact .inl (by rw [hpush, execute_push_of_room place hother])
    · exact .inr ⟨rfl, hfull⟩
  | custom name params =>
    have hname := h.handlers run place name params ps (.self ..)
    refine .inl ?_
    simp only [execute, hname]
  | _ => exact .inl rfl

/-- **Lock-step.**  Limits that accommodate a walk lead to the same outcome, or else both walks come
by the same run, where a push is next for which the first one has no room. -/
lemma follow_eq_or_full (h : other.Accommodates limits run ps) :
    run.follow other ps = run.follow limits ps ∨
      ∃ full place rest, Passes limits run ps full (⟨place, .push⟩ :: rest) ∧
        Passes other run ps full (⟨place, .push⟩ :: rest) ∧
        limits.maxStackDepth ≤ full.saved.length := by
  induction ps generalizing run with
  | nil => exact .inl rfl
  | cons p ps ih =>
    rcases execute_eq_or_full h with hexecute | ⟨hpush, hfull⟩
    · rw [follow_cons, follow_cons, hexecute]
      cases hfirst : run.execute limits p.place p.command with
      | error e => exact .inl rfl
      | ok next =>
        rw [hfirst] at hexecute
        rcases ih (accommodates_tail h hfirst) with hsame | ⟨full, place, rest, hl, ho, hfull⟩
        · exact .inl hsame
        · exact .inr ⟨full, place, rest, hl.cons hfirst, ho.cons hexecute, hfull⟩
    · obtain ⟨place, c⟩ := p
      cases hpush
      exact .inr ⟨run, place, ps, .self .., .self .., hfull⟩

end Run

/-! ## Interpretations -/

namespace Interpreter

/-- Interpreting a sequence, one comes by a run at which certain primitives are left. -/
def Passes (i : Interpreter) (s : Sequence) (initial : Turtle) (run : Run)
    (rest : List Primitive) : Prop :=
  Run.Passes i.limits (.start initial) (i.table.primitives s) run rest

lemma Passes.length_saved_le {i : Interpreter} {s : Sequence} {initial : Turtle} {run : Run}
    {rest : List Primitive} (h : i.Passes s initial run rest) :
    run.saved.length ≤ i.config.maxStackDepth := by
  obtain ⟨qs, -, hbegin⟩ := h
  exact Run.length_saved_le_of_follow hbegin (Nat.zero_le _)

/-- Interpreting a sequence, one comes to a push for which there is no room. -/
def Overflows (i : Interpreter) (s : Sequence) (initial : Turtle) : Prop :=
  ∃ index symbol,
    i.interpretFrom s initial = .error (.stackOverflow index symbol i.config.maxStackDepth)

/-- An interpreter does what another one does, but may be cut short. -/
structure CutsShort (shallow deep : Interpreter) (s : Sequence) (initial : Turtle) : Prop where
  /-- What it draws, the other one draws. -/
  drawing : ∀ d, shallow.interpretFrom s initial = .ok d → deep.interpretFrom s initial = .ok d
  /-- If it fails but not for an overflow, then the other one fails for the same cause. -/
  error : ∀ e, shallow.interpretFrom s initial = .error e →
    (∀ index symbol depth, e ≠ .stackOverflow index symbol depth) →
      deep.interpretFrom s initial = .error e
  /-- What the other one draws, it draws as well, unless it overflows. -/
  cut : ∀ d, deep.interpretFrom s initial = .ok d →
    shallow.interpretFrom s initial = .ok d ∨ shallow.Overflows s initial
  /-- It overflows exactly if the other one saves more poses somewhere than it allows. -/
  overflows_iff : ∀ d, deep.interpretFrom s initial = .ok d →
    (shallow.Overflows s initial ↔
      ∃ run rest, deep.Passes s initial run rest ∧
        shallow.config.maxStackDepth < run.saved.length)

variable {shallow deep : Interpreter} {s : Sequence} {initial : Turtle}

lemma interpretFrom_eq_follow (i : Interpreter) (s : Sequence) (initial : Turtle) :
    i.interpretFrom s initial =
      ((Run.start initial).follow i.limits (i.table.primitives s)).map Run.finish := by
  rw [interpretFrom, walk_eq_follow, ← ActionTable.primitives]
  cases (Run.start initial).follow i.limits (i.table.primitives s) <;> rfl

lemma not_overflows_of_ok {i : Interpreter} {d : Drawing} (h : i.interpretFrom s initial = .ok d) :
    ¬ i.Overflows s initial := by
  rintro ⟨index, symbol, hover⟩
  rw [h] at hover
  cases hover

/-- Where an interpreter succeeds, another one over the same table comes by no more poses than the
first one allows. -/
lemma not_deeper_of_ok (htable : deep.table = shallow.table) {d : Drawing}
    (h : shallow.interpretFrom s initial = .ok d) :
    ¬ ∃ run rest, deep.Passes s initial run rest ∧
      shallow.config.maxStackDepth < run.saved.length := by
  rintro ⟨run, rest, hpasses, hlt⟩
  rw [interpretFrom_eq_follow] at h
  obtain ⟨last, hlast, -⟩ := map_eq_ok_iff.mp h
  rw [Passes, htable] at hpasses
  exact absurd (hpasses.length_saved_le hlast (Nat.zero_le _)) (Nat.not_le.mpr hlt)

/-- Of two interpreters in lock-step, the first one overflows or the outcomes are the same.  If it
overflows, and the second one succeeds, then this has saved one pose more. -/
lemma interpretFrom_eq_or_overflows (htable : deep.table = shallow.table)
    (h : deep.limits.Accommodates shallow.limits (.start initial) (shallow.table.primitives s)) :
    deep.interpretFrom s initial = shallow.interpretFrom s initial ∨
      shallow.Overflows s initial ∧ ∀ d, deep.interpretFrom s initial = .ok d →
        ∃ run rest, deep.Passes s initial run rest ∧
          shallow.config.maxStackDepth < run.saved.length := by
  unfold Overflows
  rw [interpretFrom_eq_follow, interpretFrom_eq_follow, htable]
  rcases Run.follow_eq_or_full h with hsame | ⟨full, place, rest, hshallow, hdeep, hfull⟩
  · exact .inl (congrArg (Except.map Run.finish) hsame)
  · refine .inr ⟨⟨place.index, place.symbol, ?_⟩, ?_⟩
    · rw [hshallow.follow_eq, Run.follow_cons, Run.execute_push_of_full place hfull]
      rfl
    · intro d hd
      obtain ⟨last, hlast, -⟩ := map_eq_ok_iff.mp hd
      obtain ⟨after, hafter, hpasses⟩ := hdeep.exists_execute hlast
      have hlength := Run.length_saved_of_execute_push hafter
      refine ⟨after, rest, ?_, hlength ▸ Nat.lt_succ_of_le hfull⟩
      rw [Passes, htable]
      exact hpasses

/-- An interpreter is cut short at most, where the limits of the other one accommodate it. -/
lemma cutsShort_of_accommodates (htable : deep.table = shallow.table)
    (h : deep.limits.Accommodates shallow.limits (.start initial) (shallow.table.primitives s)) :
    shallow.CutsShort deep s initial := by
  rcases interpretFrom_eq_or_overflows htable h with hsame | ⟨hover, hdeeper⟩
  · refine ⟨?_, ?_, ?_, ?_⟩
    · exact fun d hd => hsame.trans hd
    · exact fun e he _ => hsame.trans he
    · exact fun d hd => .inl (hsame.symm.trans hd)
    · intro d hd
      have hd' := hsame.symm.trans hd
      exact iff_of_false (not_overflows_of_ok hd') (not_deeper_of_ok htable hd')
  · refine ⟨?_, ?_, ?_, ?_⟩
    · exact fun d hd => absurd hover (not_overflows_of_ok hd)
    · intro e he hne
      obtain ⟨index, symbol, hindex⟩ := hover
      exact absurd (Except.error.inj (he.symm.trans hindex)) (hne index symbol _)
    · exact fun d _ => .inr hover
    · exact fun d hd => iff_of_true hover (hdeeper d hd)

/-- The interpreter that does what the walk without an interpreter does. -/
def bare (table : ActionTable) : Interpreter :=
  { config := { maxStackDepth := wordCount - 1 }, table }

/-- **The depth limit only cuts interpretations short.**  If the limit is raised, drawings stay the
same, and so do all errors but overflows.  What is drawn with the higher limit is drawn with the
lower one as well, or overflows there, and it overflows exactly if more poses are saved at some
place than the lower limit allows.

The walk without an interpreter has no handlers, and a limit that is as high as a machine word can
count.  It is related in the same way to every interpreter, as long as this comes by no custom
command and by fewer saved poses than a machine word has values. -/
theorem interpretFrom_of_le_maxStackDepth (shallow : Interpreter) (s : Sequence)
    (initial : Turtle) :
    (∀ deep : Interpreter, deep.table = shallow.table → deep.handlers = shallow.handlers →
      shallow.config.maxStackDepth ≤ deep.config.maxStackDepth →
        shallow.CutsShort deep s initial) ∧
    ((∀ run place c rest, shallow.Passes s initial run (⟨place, c⟩ :: rest) →
        ∀ name params, c ≠ .custom name params) →
      (∀ run rest, shallow.Passes s initial run rest → run.saved.length < wordCount) →
        LSystem.interpret s shallow.table initial =
            (bare shallow.table).interpretFrom s initial ∧
          shallow.CutsShort (bare shallow.table) s initial) := by
  refine ⟨?_, ?_⟩
  · intro deep htable hhandlers hdepth
    refine cutsShort_of_accommodates htable ⟨?_, ?_⟩
    · intro next rest hpasses
      have hnext : shallow.Passes s initial next rest := hpasses
      exact hnext.length_saved_le.trans hdepth
    · intro next place name params rest _
      simp only [limits, hhandlers]
  · intro hcustom hbelow
    refine ⟨rfl, cutsShort_of_accommodates rfl ⟨?_, ?_⟩⟩
    · intro next rest hpasses
      exact Nat.le_sub_one_of_lt (hbelow next rest hpasses)
    · intro next place name params rest hpasses
      exact absurd rfl (hcustom next place _ rest hpasses name params)

/-- A push inside the action of a symbol overflows two poses but not three; and a handler that is
never called is not missed. -/
theorem interpretFrom_of_le_maxStackDepth_at_a_nested_push :
    let leaf : Handler := fun t _ => { marks := [.point t.position] }
    let table := (ActionTable.standard 1.0).insert 'o'
      (.combine [Command.push, Command.custom "leaf" [], Command.pop])
    let handlers := (∅ : Std.ExtTreeMap _ _).insert "leaf" leaf
    let shallow : Interpreter := { config := { maxStackDepth := 2 }, table, handlers }
    let deep : Interpreter := { config := { maxStackDepth := 3 }, table, handlers }
    (∃ d, deep.interpretFrom ['[', '[', 'o', ']', ']'] {} = .ok d) ∧
      shallow.interpretFrom ['[', '[', 'o', ']', ']'] {} = .error (.stackOverflow 2 'o' 2) ∧
      (∃ run rest, deep.Passes ['[', '[', 'o', ']', ']'] {} run rest ∧ 2 < run.saved.length) ∧
      shallow.interpretFrom ['[', ']', ']', 'o'] {} = .error (.stackUnderflow 2 ']') ∧
      LSystem.interpret ['[', ']', ']', 'o'] table {} = .error (.stackUnderflow 2 ']') := by
  intro leaf table handlers shallow deep
  have hdeep : deep.fault? ['[', '[', 'o', ']', ']'] = none := by decide +kernel
  have hdrawn := interpretFrom_of_fault?_eq_none hdeep {}
  have hover : shallow.fault? ['[', '[', 'o', ']', ']'] = some (.stackOverflow 2 'o' 2) := by
    decide +kernel
  have hshallow : shallow.interpretFrom ['[', '[', 'o', ']', ']'] {} =
      .error (.stackOverflow 2 'o' 2) := interpretFrom_eq_error_iff.mpr hover
  have hunder : shallow.fault? ['[', ']', ']', 'o'] = some (.stackUnderflow 2 ']') := by
    decide +kernel
  have hshallow' : shallow.interpretFrom ['[', ']', ']', 'o'] {} = .error (.stackUnderflow 2 ']') :=
    interpretFrom_eq_error_iff.mpr hunder
  have hcuts := (interpretFrom_of_le_maxStackDepth shallow ['[', '[', 'o', ']', ']'] {}).1 deep
    rfl rfl (by decide)
  have hprimitives : shallow.table.primitives ['[', ']', ']', 'o'] =
      [⟨⟨0, '['⟩, .push⟩, ⟨⟨1, ']'⟩, .pop⟩, ⟨⟨2, ']'⟩, .pop⟩, ⟨⟨3, 'o'⟩, .push⟩,
        ⟨⟨3, 'o'⟩, .custom "leaf" []⟩, ⟨⟨3, 'o'⟩, .pop⟩] := by decide +kernel
  have hcustom : ∀ run place c rest,
      shallow.Passes ['[', ']', ']', 'o'] {} run (⟨place, c⟩ :: rest) →
        ∀ name params, c ≠ .custom name params := by
    rintro run place c rest ⟨qs, hqs, hfollow⟩ name params rfl
    rw [hprimitives] at hqs
    rcases qs with _ | ⟨a, _ | ⟨b, _ | ⟨c, qs⟩⟩⟩
    case cons.cons.cons =>
      -- Two pops after one push are not obeyed.
      simp only [List.cons_append, List.cons.injEq] at hqs
      obtain ⟨rfl, rfl, rfl, -⟩ := hqs
      cases Run.firstFault?_of_follow hfollow
    all_goals cases hqs
  have hfree := (interpretFrom_of_le_maxStackDepth shallow ['[', ']', ']', 'o'] {}).2 hcustom
    fun run rest hpasses => hpasses.length_saved_le.trans_lt (by decide)
  refine ⟨⟨_, hdrawn⟩, hshallow, ?_, hshallow', ?_⟩
  · exact (hcuts.overflows_iff _ hdrawn).mp ⟨2, 'o', hshallow⟩
  · rw [hfree.1]
    exact hfree.2.error _ hshallow' (fun _ _ _ => nofun)

end Interpreter

end LSystem
