import LSystem.Proofs.Interpreter.Frame

/-!
# Interpreting one sequence after another

An interpretation of `s ++ t` goes through `s` first, so what stops `s` stops both, and what `s`
draws is the beginning of what both draw.  If `s` leaves no branch open, then `t` starts on an
empty stack, and nothing of `s` matters for it but the turtle: the drawing of both is that of `s`
and behind it that of `t` from the turtle that `s` left, and an error of `t` is the same but for
its index.

With open branches the last part fails, for `t` may restore a pose that `s` saved.
-/

namespace LSystem

lemma Run.OnTop.finish {below : List Pose} {run upper whole : Run}
    (h : OnTop below run.drawing upper whole) :
    Drawing.Appended run.finish upper.finish whole.finish :=
  ⟨h.drawing.segments, h.drawing.marksOf, h.drawing.mem_marks⟩

namespace Interpreter

variable {i : Interpreter} {s t : Sequence} {initial : Turtle}

lemma interpretFrom_append_of_error {e : InterpretError}
    (h : i.interpretFrom s initial = .error e) (t : Sequence) :
    i.interpretFrom (s ++ t) initial = .error e := by
  rw [interpretFrom_eq_error_iff] at h ⊢
  rw [fault?_append i s t initial, h, Option.some_or]

/-- If two sequences in a row are drawn, the first of them is, and the second one adds to that
drawing. -/
lemma exists_appended_of_interpretFrom_append {d : Drawing}
    (h : i.interpretFrom (s ++ t) initial = .ok d) :
    ∃ d₁ added, i.interpretFrom s initial = .ok d₁ ∧ Drawing.Appended d₁ added d := by
  obtain ⟨hfault, rfl⟩ := interpretFrom_eq_ok_iff.mp h
  rw [fault?_append i s t initial, Option.or_eq_none_iff, Option.map_eq_none_iff] at hfault
  obtain ⟨hs, ht⟩ := hfault
  -- The run after `s` stands on its own drawing, with all its poses still in reach of `t`.
  have htop : Run.OnTop [] _ _ (i.finalRun s initial) := .of_saved_eq _ _ (List.append_nil _).symm
  have hwhole := (htop.afterAll ht).finish
  rw [finalRun_append]
  exact ⟨_, _, interpretFrom_of_fault?_eq_none hs initial, hwhole⟩

/-- After a sequence that leaves no branch open, the next one meets the fault that it meets by
itself. -/
lemma fault?_append_of_closed {d₁ : Drawing} (hs : i.interpretFrom s initial = .ok d₁)
    (hclosed : d₁.openBranches = 0) (t : Sequence) :
    i.fault? (s ++ t) = (i.fault? t).map (InterpretError.mapIndex (· + s.length)) := by
  obtain ⟨hfault, rfl⟩ := interpretFrom_eq_ok_iff.mp hs
  have hzero : (i.finalRun s initial).saved.length = 0 := hclosed
  rw [fault?_append i s t initial, hfault, Option.none_or, hzero]
  rfl

/-- After a sequence that leaves no branch open, the next one draws what it draws by itself. -/
lemma interpretFrom_append_of_closed {d₁ d₂ : Drawing}
    (hs : i.interpretFrom s initial = .ok d₁) (hclosed : d₁.openBranches = 0)
    (ht : i.interpretFrom t d₁.turtle = .ok d₂) :
    ∃ d, i.interpretFrom (s ++ t) initial = .ok d ∧ Drawing.Appended d₁ d₂ d ∧
      d.turtle = d₂.turtle ∧ d.openBranches = d₂.openBranches := by
  have happend := fault?_append_of_closed hs hclosed t
  obtain ⟨hfault, rfl⟩ := interpretFrom_eq_ok_iff.mp hs
  obtain ⟨hfault', rfl⟩ := interpretFrom_eq_ok_iff.mp ht
  rw [hfault', Option.map_none] at happend
  have hnil : (i.finalRun s initial).saved = [] := List.length_eq_zero_iff.mp hclosed
  have htop : Run.OnTop [] _ (.start _) (i.finalRun s initial) := .of_saved_eq _ [] hnil
  have hwhole := htop.afterAll hfault'
  have hsaved := congrArg List.length hwhole.saved
  rw [List.append_nil] at hsaved
  refine ⟨_, interpretFrom_of_fault?_eq_none happend initial, ?_⟩
  rw [finalRun_append]
  exact ⟨hwhole.finish, hwhole.turtle, hsaved⟩

/-- Interpreting `s ++ t` is interpreting `s` and then `t`: an error of `s` is the error of both;
the drawing of `s` is the beginning of that of both; and if `s` leaves no branch open, `t` has the
outcome that it has by itself from the turtle that `s` leaves, an error being reported further to
the right and a drawing being added behind that of `s`. -/
theorem interpretFrom_append (i : Interpreter) (s t : Sequence) (initial : Turtle) :
    (∀ e, i.interpretFrom s initial = .error e →
      i.interpretFrom (s ++ t) initial = .error e) ∧
    (∀ d, i.interpretFrom (s ++ t) initial = .ok d →
      ∃ d₁, i.interpretFrom s initial = .ok d₁ ∧
        d₁.segments.toList <+: d.segments.toList ∧
        ∀ name, (d₁.marksOf name).toList <+: (d.marksOf name).toList) ∧
    ∀ d₁, i.interpretFrom s initial = .ok d₁ → d₁.openBranches = 0 →
      (∀ e, i.interpretFrom t d₁.turtle = .error e →
        i.interpretFrom (s ++ t) initial = .error (e.mapIndex (· + s.length))) ∧
      ∀ d₂, i.interpretFrom t d₁.turtle = .ok d₂ →
        ∃ d, i.interpretFrom (s ++ t) initial = .ok d ∧
          d.segments = d₁.segments ++ d₂.segments ∧
          (∀ name, d.marksOf name = d₁.marksOf name ++ d₂.marksOf name) ∧
          (∀ name, name ∈ d.marks ↔ name ∈ d₁.marks ∨ name ∈ d₂.marks) ∧
          d.turtle = d₂.turtle ∧ d.openBranches = d₂.openBranches := by
  refine ⟨?_, ?_, ?_⟩
  · intro e h
    exact interpretFrom_append_of_error h t
  · intro d h
    obtain ⟨d₁, added, hs, happended⟩ := exists_appended_of_interpretFrom_append h
    refine ⟨d₁, hs, ?_, ?_⟩
    · rw [happended.segments, Array.toList_append]
      exact List.prefix_append _ _
    · intro name
      rw [happended.marksOf, Array.toList_append]
      exact List.prefix_append _ _
  · intro d₁ hs hclosed
    refine ⟨?_, ?_⟩
    · intro e ht
      rw [interpretFrom_eq_error_iff] at ht ⊢
      rw [fault?_append_of_closed hs hclosed, ht, Option.map_some]
    · intro d₂ ht
      obtain ⟨d, hd, happended, hturtle, hopen⟩ :=
        interpretFrom_append_of_closed hs hclosed ht
      exact ⟨d, hd, happended.segments, happended.marksOf, happended.mem_marks, hturtle, hopen⟩

/-- A branch with a segment in it and a dot come first, or fail by themselves.  What follows the
branch and the dot fails, or it draws a segment and a dot more and leaves a branch open. -/
theorem interpretFrom_append_after_a_branch :
    let i : Interpreter :=
      { table := (ActionTable.standard 1.0).insert 'D' (Command.custom "dot" []),
        handlers := (∅ : Std.ExtTreeMap _ _).insert "dot" Handler.dotMarker }
    let s := "[F]D".toList
    i.interpretFrom "[F]D]".toList {} = .error (.stackUnderflow 4 ']') ∧
    i.interpretFrom ("[F]D]".toList ++ "F".toList) {} = .error (.stackUnderflow 4 ']') ∧
    ∃ d₁, i.interpretFrom s {} = .ok d₁ ∧ d₁.segments.size = 1 ∧ (d₁.marksOf "dot").size = 1 ∧
      d₁.openBranches = 0 ∧
      i.interpretFrom "F]".toList d₁.turtle = .error (.stackUnderflow 1 ']') ∧
      i.interpretFrom (s ++ "F]".toList) {} = .error (.stackUnderflow 5 ']') ∧
      ∃ d₂ d, i.interpretFrom "[DF".toList d₁.turtle = .ok d₂ ∧
        d₂.segments.size = 1 ∧ (d₂.marksOf "dot").size = 1 ∧ d₂.openBranches = 1 ∧
        i.interpretFrom (s ++ "[DF".toList) {} = .ok d ∧
        d₁.segments.toList <+: d.segments.toList ∧
        (∀ name, (d₁.marksOf name).toList <+: (d.marksOf name).toList) ∧
        d.segments = d₁.segments ++ d₂.segments ∧
        (∀ name, d.marksOf name = d₁.marksOf name ++ d₂.marksOf name) ∧
        (∀ name, name ∈ d.marks ↔ name ∈ d₁.marks ∨ name ∈ d₂.marks) ∧
        d.turtle = d₂.turtle ∧ d.openBranches = 1 := by
  intro i s
  have hfails : i.interpretFrom "[F]D]".toList {} = .error (.stackUnderflow 4 ']') :=
    interpretFrom_eq_error_iff.mpr (by decide +kernel)
  have hfault : i.fault? s = none := by decide +kernel
  have hs := interpretFrom_of_fault?_eq_none hfault {}
  have hfails' : ∀ t, i.interpretFrom "F]".toList t = .error (.stackUnderflow 1 ']') :=
    fun t => interpretFrom_eq_error_iff.mpr (by decide +kernel)
  have hfault' : i.fault? "[DF".toList = none := by decide +kernel
  have ht := interpretFrom_of_fault?_eq_none hfault' (i.finalRun s {}).finish.turtle
  -- The three parts, each where its condition is met.
  have herror := (interpretFrom_append i "[F]D]".toList "F".toList {}).1 _ hfails
  obtain ⟨hshifted, -⟩ := (interpretFrom_append i s "F]".toList {}).2.2 _ hs rfl
  obtain ⟨-, hbegins, hclosed⟩ := interpretFrom_append i s "[DF".toList {}
  obtain ⟨d, hd, hsegments, hmarks, hnames, hturtle, hopen⟩ := (hclosed _ hs rfl).2 _ ht
  obtain ⟨d₁, hd₁, hprefix, hprefix'⟩ := hbegins d hd
  obtain rfl := Except.ok.inj (hs.symm.trans hd₁)
  exact ⟨hfails, herror, _, hs, rfl, rfl, rfl, hfails' _, hshifted _ (hfails' _), _, d, ht, rfl,
    rfl, rfl, hd, hprefix, hprefix', hsegments, hmarks, hnames, hturtle, hopen⟩

end Interpreter

end LSystem
