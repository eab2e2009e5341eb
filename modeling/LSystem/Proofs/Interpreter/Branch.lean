import LSystem.Proofs.Interpreter.Concatenation
import LSystem.Proofs.Interpreter.Height

/-!
# Branches

A branch is a push, a sequence that pops no more than it pushed, and a pop.  What it draws stays,
but the turtle comes back to where it was: so a branch can be cut out of a sequence, and nothing
changes for the rest except that the segments and marks of the branch are missing.

The branch is a run on top of the pose that its push saved, and the frame rule brings that pose
back intact (`Run.after_branch`).  What comes after the branch is then two runs, with and without
the branch, on top of different drawings but above the same turtle and the same saved poses.
-/

namespace LSystem

open Primitive

lemma Run.saved_eq_nil_of_balanced {limits : Limits} {ps : List Primitive}
    (hps : branching.Balanced ps) (hfault : limits.firstFault? 0 ps = none) (t : Turtle) :
    ((Run.start t).afterAll limits.handlers ps).saved = [] := by
  have hlength := @Run.length_saved_afterAll limits (.start t) ps hfault
  have hheight : (heightAfterAll 0 ps : Int) = 0 := by
    rw [heightAfterAll_eq hfault, hps.total]
    rfl
  apply List.length_eq_zero_iff.mp
  have hzero : (Run.start t).saved.length = 0 := rfl
  rw [hzero] at hlength
  omega

/-- A branch gives the turtle and the saved poses back, and adds what its inside draws from where
the turtle was. -/
lemma Run.after_branch {limits : Limits} {run : Run} {ps : List Primitive}
    (hps : branching.Balanced ps)
    (hfault : limits.firstFault? (run.saved.length + 1) ps = none) :
    limits.firstFault? 0 ps = none ∧
      ∃ back, (((run.after limits.handlers .push).afterAll limits.handlers ps).after
          limits.handlers .pop) = back ∧
        back.turtle = run.turtle ∧ back.saved = run.saved ∧
        Drawing.Appended run.drawing ((Run.start run.turtle).afterAll limits.handlers ps).drawing
          back.drawing := by
  have hinside : limits.firstFault? 0 ps = none := by
    apply Limits.firstFault?_eq_none_of_le hfault (Nat.zero_le _)
    intro qs hqs
    have hnonneg := hps.nonneg qs hqs
    omega
  -- The push puts the pose of the turtle below the inside, which stands on an empty stack there.
  have hbase : OnTop (run.turtle.toPose :: run.saved) run.drawing (.start run.turtle)
      (run.after limits.handlers .push) := .of_saved_eq (run.after limits.handlers .push) [] rfl
  have htop := hbase.afterAll hinside
  have hsaved := htop.saved
  rw [saved_eq_nil_of_balanced hps hinside, List.nil_append] at hsaved
  have hstep := stepLength_afterAll limits.handlers (run.after limits.handlers .push) ps
  rw [stepLength_after] at hstep
  exact ⟨hinside, _, after_pop hsaved limits.handlers, Turtle.restore_toPose hstep, rfl,
    htop.drawing⟩

/-- Two runs with the same turtle and the same saved poses go on alike, each on its own
drawing. -/
lemma Run.afterAll_of_eq {limits : Limits} {run back : Run} {ps : List Primitive}
    (hturtle : back.turtle = run.turtle) (hsaved : back.saved = run.saved)
    (hfault : limits.firstFault? run.saved.length ps = none) :
    ∃ upper, OnTop [] run.drawing upper (run.afterAll limits.handlers ps) ∧
      OnTop [] back.drawing upper (back.afterAll limits.handlers ps) := by
  have hrun : OnTop [] run.drawing ⟨run.turtle, run.saved, .start run.turtle⟩ run :=
    .of_saved_eq _ _ (List.append_nil _).symm
  have hback : OnTop [] back.drawing ⟨back.turtle, back.saved, .start back.turtle⟩ back :=
    .of_saved_eq _ _ (List.append_nil _).symm
  rw [hturtle, hsaved] at hback
  exact ⟨_, hrun.afterAll hfault, hback.afterAll hfault⟩

namespace Interpreter

variable {i : Interpreter} {p q : Symbol} {u w v : Sequence} {initial : Turtle}

/-- The run of a sequence with a branch in it, taken apart. -/
lemma fault?_branch (hp : i.table.get? p = some (.command .push))
    (hq : i.table.get? q = some (.command .pop)) (hw : branching.Balanced (i.table.primitives w))
    (h : i.fault? (u ++ [p] ++ w ++ [q] ++ v) = none) (initial : Turtle) :
    i.fault? u = none ∧
      i.limits.firstFault? ((i.finalRun u initial).saved.length + 1) (i.table.primitives w) =
        none ∧
      i.limits.firstFault? (i.finalRun u initial).saved.length (i.table.primitives v) = none := by
  rw [fault?_append i _ v initial, fault?_append i _ [q] initial, fault?_append i _ w initial,
    fault?_append i _ [p] initial] at h
  simp only [Option.or_eq_none_iff, Option.map_eq_none_iff] at h
  obtain ⟨⟨⟨⟨hu, -⟩, hw'⟩, -⟩, hv⟩ := h
  -- The height at which `v` starts is read off only once the branch is known to have closed.
  rw [finalRun_append, ActionTable.primitives_singleton hp] at hw'
  obtain ⟨-, back, hback, -, hsaved, -⟩ := Run.after_branch hw hw'
  simp only [finalRun_append, ActionTable.primitives_singleton hp,
    ActionTable.primitives_singleton hq] at hv
  have hback' : ((((i.finalRun u initial).afterAll i.handlers [⟨⟨0, p⟩, .push⟩]).afterAll
      i.handlers (i.table.primitives w)).afterAll i.handlers [⟨⟨0, q⟩, .pop⟩]) = back := hback
  rw [hback', hsaved] at hv
  exact ⟨hu, hw', hv⟩

/-- **Branches are isolated.**  If a sequence with a branch in it is drawn, then so is the sequence
without the branch: the turtle ends in the same state with the same number of open branches, and
the segments and marks are the same except that those of the branch, which are what its inside
draws from where the turtle was, stand between those of what comes before and after it. -/
theorem interpretFrom_branch (hp : i.table.get? p = some (.command .push))
    (hq : i.table.get? q = some (.command .pop)) (hw : branching.Balanced (i.table.primitives w))
    {d : Drawing} (h : i.interpretFrom (u ++ [p] ++ w ++ [q] ++ v) initial = .ok d) :
    ∃ before inside d', i.interpretFrom u initial = .ok before ∧
      i.interpretFrom w before.turtle = .ok inside ∧
      i.interpretFrom (u ++ v) initial = .ok d' ∧
      d'.turtle = d.turtle ∧ d'.openBranches = d.openBranches ∧
      (∃ rest, d'.segments = before.segments ++ rest ∧
        d.segments = before.segments ++ inside.segments ++ rest) ∧
      ∀ name, ∃ rest, d'.marksOf name = before.marksOf name ++ rest ∧
        d.marksOf name = before.marksOf name ++ inside.marksOf name ++ rest := by
  obtain ⟨hfault, rfl⟩ := interpretFrom_eq_ok_iff.mp h
  obtain ⟨hu, hw', hv⟩ := fault?_branch hp hq hw hfault initial
  obtain ⟨hinside, back, hback, hturtle, hsaved, hdrawing⟩ := Run.after_branch hw hw'
  obtain ⟨upper, hwithout, hwith⟩ := Run.afterAll_of_eq hturtle hsaved hv
  have hrun : i.finalRun (u ++ [p] ++ w ++ [q] ++ v) initial =
      back.afterAll i.handlers (i.table.primitives v) := by
    simp only [finalRun_append, ActionTable.primitives_singleton hp,
      ActionTable.primitives_singleton hq, ← hback]
    rfl
  have hrun' : i.finalRun (u ++ v) initial =
      (i.finalRun u initial).afterAll i.handlers (i.table.primitives v) :=
    finalRun_append i u v initial
  have hfault' : i.fault? (u ++ v) = none := by
    rw [fault?_append i u v initial, hu, hv]
    rfl
  refine ⟨_, _, _, interpretFrom_of_fault?_eq_none hu initial,
    interpretFrom_of_fault?_eq_none hinside _, interpretFrom_of_fault?_eq_none hfault' initial, ?_⟩
  rw [hrun, hrun']
  refine ⟨?_, ?_, ⟨upper.drawing.segments, ?_, ?_⟩, ?_⟩
  · exact hwithout.turtle.trans hwith.turtle.symm
  · have hlength := congrArg List.length (hwithout.saved.trans hwith.saved.symm)
    exact hlength
  · exact hwithout.drawing.segments
  · have hsegments := hwith.drawing.segments
    rw [hdrawing.segments] at hsegments
    exact hsegments
  · intro name
    have hmarks := hwith.drawing.marksOf name
    rw [hdrawing.marksOf] at hmarks
    exact ⟨upper.drawing.marksOf name, hwithout.drawing.marksOf name, hmarks⟩

/-- One segment is drawn before the branch and one after it, and two in it, one of them in a branch
of its own. -/
theorem interpretFrom_branch_of_trunk :
    let i : Interpreter := { table := .standard 1.0 }
    branching.Balanced (i.table.primitives ['+', '[', 'F', ']', 'F']) ∧
      ∃ d before inside d',
        i.interpretFrom (['F'] ++ ['['] ++ ['+', '[', 'F', ']', 'F'] ++ [']'] ++ ['F']) {} = .ok d ∧
        i.interpretFrom ['F'] {} = .ok before ∧
        i.interpretFrom ['+', '[', 'F', ']', 'F'] before.turtle = .ok inside ∧
        i.interpretFrom (['F'] ++ ['F']) {} = .ok d' ∧
        before.segments.size = 1 ∧ inside.segments.size = 2 ∧ d'.segments.size = 2 ∧
        d.segments.size = 4 ∧ d'.turtle = d.turtle ∧ d'.openBranches = d.openBranches ∧
        (∃ rest, d'.segments = before.segments ++ rest ∧
          d.segments = before.segments ++ inside.segments ++ rest) ∧
        ∀ name, ∃ rest, d'.marksOf name = before.marksOf name ++ rest ∧
          d.marksOf name = before.marksOf name ++ inside.marksOf name ++ rest := by
  intro i
  have hbalanced : branching.Balanced (i.table.primitives ['+', '[', 'F', ']', 'F']) := by decide
  have hfault :
      i.fault? (['F'] ++ ['['] ++ ['+', '[', 'F', ']', 'F'] ++ [']'] ++ ['F']) = none := by
    decide
  have hok := interpretFrom_of_fault?_eq_none hfault {}
  obtain ⟨before, inside, d', hbefore, hinside, hwithout, hrest⟩ :=
    interpretFrom_branch rfl rfl hbalanced hok
  have hone : before.segments.size = 1 := by
    obtain ⟨-, rfl⟩ := interpretFrom_eq_ok_iff.mp hbefore
    rfl
  have htwo : inside.segments.size = 2 := by
    obtain ⟨-, rfl⟩ := interpretFrom_eq_ok_iff.mp hinside
    rfl
  have hleft : d'.segments.size = 2 := by
    obtain ⟨-, rfl⟩ := interpretFrom_eq_ok_iff.mp hwithout
    rfl
  exact ⟨hbalanced, _, before, inside, d', hok, hbefore, hinside, hwithout, hone, htwo, hleft, rfl,
    hrest⟩

end Interpreter

end LSystem
