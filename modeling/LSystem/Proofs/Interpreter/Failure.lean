import LSystem.Proofs.Interpreter.Height

/-!
# When interpretation fails

An interpretation can fail in three ways: a pop with no branch open, a push with as many branches
open as the depth allows, and a custom command without a handler.  `Fault` says this of one
primitive and those before it, in terms of the pushes and pops among them, and `FirstFault` says
of a list of primitives which of several faults is the first.

The main statement is that an interpretation fails exactly if one of its primitives is a fault,
with the error of the first one, and that otherwise the number of open branches is the excess of
pushes over pops.
-/

namespace LSystem

open Primitive

/-- What is wrong with a primitive that comes after others. -/
inductive Fault (limits : Limits) (before : List Primitive) : Primitive → InterpretError → Prop
  /-- A pop when as many branches were closed as were opened. -/
  | underflow (place : Occurrence) (h : branching.excess before = 0) :
    Fault limits before ⟨place, .pop⟩ (.stackUnderflow place.index place.symbol)
  /-- A push when as many branches are open as the depth allows. -/
  | overflow (place : Occurrence) (h : limits.maxStackDepth ≤ branching.excess before) :
    Fault limits before ⟨place, .push⟩
      (.stackOverflow place.index place.symbol limits.maxStackDepth)
  /-- A custom command whose name has no handler. -/
  | unknown (place : Occurrence) (name : String) (params : List Float32)
      (h : limits.handlers[name]? = none) :
    Fault limits before ⟨place, .custom name params⟩ (.unknownAction place.index name)

/-- What is wrong with the primitive at a place of a list. -/
def FaultAt (limits : Limits) (ps : List Primitive) (k : Nat) (e : InterpretError) : Prop :=
  ∃ p, ps[k]? = some p ∧ Fault limits (ps.take k) p e

/-- What is wrong with the first primitive of a list with which anything is. -/
def FirstFault (limits : Limits) (ps : List Primitive) (e : InterpretError) : Prop :=
  ∃ k, FaultAt limits ps k e ∧ ∀ j < k, ∀ e', ¬ FaultAt limits ps j e'

/-! ## Faults one at a time -/

/-- Where the height is the excess, a fault of the run is a fault in the sense of counting. -/
lemma fault_iff {limits : Limits} {before : List Primitive} {height : Nat}
    (hheight : (height : Int) = branching.excess before) (p : Primitive) (e : InterpretError) :
    Fault limits before p e ↔ limits.fault? height p = some e := by
  constructor
  · intro hfault
    cases hfault with
    | underflow place hexcess =>
      have hzero : height = 0 := by omega
      simp [Limits.fault?, hzero]
    | overflow place hexcess =>
      have hfull : limits.maxStackDepth ≤ height := by omega
      simp [Limits.fault?, hfull]
    | unknown place name params hname =>
      simp [Limits.fault?, hname]
  · intro hfault
    obtain ⟨place, c⟩ := p
    cases c with
    | push =>
      simp only [Limits.fault?, Option.ite_none_right_eq_some, Option.some.injEq] at hfault
      obtain ⟨hfull, rfl⟩ := hfault
      exact .overflow place (by omega)
    | pop =>
      simp only [Limits.fault?, Option.ite_none_right_eq_some, Option.some.injEq] at hfault
      obtain ⟨hzero, rfl⟩ := hfault
      exact .underflow place (by omega)
    | custom name params =>
      simp only [Limits.fault?, Option.ite_none_right_eq_some, Option.some.injEq,
        Option.isNone_iff_eq_none] at hfault
      obtain ⟨hname, rfl⟩ := hfault
      exact .unknown place name params hname
    | _ => simp [Limits.fault?] at hfault

lemma faultAt_of_lt {limits : Limits} {ps : List Primitive} {k : Nat} {e : InterpretError}
    (qs : List Primitive) (hk : k < ps.length) :
    FaultAt limits (ps ++ qs) k e ↔ FaultAt limits ps k e := by
  unfold FaultAt
  rw [List.getElem?_append_left hk, List.take_append_of_le_length hk.le]

lemma faultAt_length {limits : Limits} {ps : List Primitive} {p : Primitive}
    {e : InterpretError} : FaultAt limits (ps ++ [p]) ps.length e ↔ Fault limits ps p e := by
  unfold FaultAt
  rw [List.getElem?_concat_length, List.take_left]
  simp

lemma lt_length_of_faultAt {limits : Limits} {ps : List Primitive} {k : Nat}
    {e : InterpretError} (h : FaultAt limits ps k e) : k < ps.length := by
  obtain ⟨p, hp, -⟩ := h
  exact (List.getElem?_eq_some_iff.mp hp).1

lemma FirstFault.append {limits : Limits} {ps : List Primitive} {e : InterpretError}
    (h : FirstFault limits ps e) (qs : List Primitive) : FirstFault limits (ps ++ qs) e := by
  obtain ⟨k, hat, hfirst⟩ := h
  have hk := lt_length_of_faultAt hat
  refine ⟨k, (faultAt_of_lt qs hk).mpr hat, ?_⟩
  intro j hj e' hat'
  exact hfirst j hj e' ((faultAt_of_lt qs (hj.trans hk)).mp hat')

/-! ## The first fault -/

/-- A run without a fault has no fault in the sense of counting, and the fault that stops a run is
the first one in that sense. -/
lemma firstFault?_spec (limits : Limits) (ps : List Primitive) :
    (limits.firstFault? 0 ps = none → ∀ k e, ¬ FaultAt limits ps k e) ∧
      ∀ e, limits.firstFault? 0 ps = some e → FirstFault limits ps e := by
  induction ps using List.reverseRecOn with
  | nil =>
    refine ⟨?_, ?_⟩
    · intro _ k e hat
      exact absurd (lt_length_of_faultAt hat) (by simp)
    · intro e h
      exact absurd h (by simp)
  | append_singleton ps p ih =>
    obtain ⟨hnone, hsome⟩ := ih
    rw [Limits.firstFault?_append, Limits.firstFault?_singleton]
    cases hps : limits.firstFault? 0 ps with
    | some e =>
      -- The fault was met before the last primitive, which does not matter any more.
      refine ⟨fun h => absurd h (by simp), ?_⟩
      intro e' he'
      have hee' : e = e' := by simpa using he'
      exact hee' ▸ (hsome e hps).append [p]
    | none =>
      have hheight : (heightAfterAll 0 ps : Int) = branching.excess ps := by
        have hexcess := heightAfterAll_eq hps
        omega
      rw [Option.none_or]
      refine ⟨?_, ?_⟩
      · intro hlast k e hat
        have hk := lt_length_of_faultAt hat
        rw [List.length_append, List.length_singleton] at hk
        rcases Nat.lt_succ_iff_lt_or_eq.mp hk with hlt | rfl
        · exact hnone hps k e ((faultAt_of_lt [p] hlt).mp hat)
        · have hfault := (fault_iff hheight p e).mp (faultAt_length.mp hat)
          exact absurd (hlast.symm.trans hfault) (by simp)
      · intro e hlast
        refine ⟨ps.length, faultAt_length.mpr ((fault_iff hheight p e).mpr hlast), ?_⟩
        intro j hj e' hat
        exact hnone hps j e' ((faultAt_of_lt [p] hj).mp hat)

lemma Fault.unique {limits : Limits} {before : List Primitive} {p : Primitive}
    {e e' : InterpretError} (h : Fault limits before p e) (h' : Fault limits before p e') :
    e = e' := by
  cases h <;> cases h' <;> rfl

lemma FirstFault.unique {limits : Limits} {ps : List Primitive} {e e' : InterpretError}
    (h : FirstFault limits ps e) (h' : FirstFault limits ps e') : e = e' := by
  obtain ⟨k, hat, hfirst⟩ := h
  obtain ⟨k', hat', hfirst'⟩ := h'
  have hk : k = k' := by
    rcases Nat.lt_trichotomy k k' with hlt | heq | hgt
    · exact absurd hat (hfirst' k hlt e)
    · exact heq
    · exact absurd hat' (hfirst k' hgt e')
  subst hk
  obtain ⟨p, hp, hfault⟩ := hat
  obtain ⟨p', hp', hfault'⟩ := hat'
  have hpp' : p = p' := Option.some.inj (hp.symm.trans hp')
  exact hfault.unique (hpp' ▸ hfault')

/-- The fault that stops a run is the first fault in the sense of counting. -/
lemma firstFault?_eq_some_iff {limits : Limits} {ps : List Primitive} {e : InterpretError} :
    limits.firstFault? 0 ps = some e ↔ FirstFault limits ps e := by
  obtain ⟨hnone, hsome⟩ := firstFault?_spec limits ps
  refine ⟨hsome e, ?_⟩
  intro hfirst
  cases hps : limits.firstFault? 0 ps with
  | none =>
    obtain ⟨k, hat, -⟩ := hfirst
    exact absurd hat (hnone hps k e)
  | some e' => rw [(hsome e' hps).unique hfirst]

/-- Any fault stops the run, though not necessarily with its own error. -/
lemma exists_firstFault?_iff {limits : Limits} {ps : List Primitive} :
    (∃ e, limits.firstFault? 0 ps = some e) ↔ ∃ k e, FaultAt limits ps k e := by
  constructor
  · rintro ⟨e, he⟩
    obtain ⟨k, hat, -⟩ := firstFault?_eq_some_iff.mp he
    exact ⟨k, e, hat⟩
  · rintro ⟨k, e, hat⟩
    rw [← Option.isSome_iff_exists, ← Option.ne_none_iff_isSome]
    intro hps
    exact (firstFault?_spec limits ps).1 hps k e hat

/-! ## Interpretations -/

/-- The branches that a drawing leaves open are those that its primitives open and do not close. -/
lemma Interpreter.openBranches_eq {i : Interpreter} {s : Sequence} {initial : Turtle}
    {d : Drawing} (h : i.interpretFrom s initial = .ok d) :
    d.openBranches = heightAfterAll 0 (i.table.primitives s) := by
  obtain ⟨hfault, rfl⟩ := interpretFrom_eq_ok_iff.mp h
  exact length_saved_finalRun hfault initial

/-- An interpretation fails exactly if one of its primitives is a fault, with the error of the
first one; a drawing that it gives has as many open branches as the primitives open and do not
close, which are no more than the depth allows. -/
theorem Interpreter.interpretFrom_error_iff_fault (i : Interpreter) (s : Sequence)
    (initial : Turtle) :
    ((∃ e, i.interpretFrom s initial = .error e) ↔
      ∃ k e, FaultAt i.limits (i.table.primitives s) k e) ∧
    (∀ e, i.interpretFrom s initial = .error e ↔
      FirstFault i.limits (i.table.primitives s) e) ∧
    ∀ d, i.interpretFrom s initial = .ok d →
      (d.openBranches : Int) = branching.excess (i.table.primitives s) ∧
        d.openBranches ≤ i.config.maxStackDepth := by
  refine ⟨?_, ?_, ?_⟩
  · simp only [interpretFrom_eq_error_iff]
    exact exists_firstFault?_iff
  · intro e
    rw [interpretFrom_eq_error_iff]
    exact firstFault?_eq_some_iff
  · intro d hd
    have hfault := (interpretFrom_eq_ok_iff.mp hd).1
    have hexcess := heightAfterAll_eq hfault
    have hdepth := heightAfterAll_le_maxStackDepth hfault (Nat.zero_le _)
    rw [openBranches_eq hd]
    exact ⟨by omega, hdepth⟩

/-- Two branches may be open at once, and two are left open.  A third one at a time is a fault, and
it is reported at its own index. -/
theorem Interpreter.interpretFrom_error_iff_fault_at_full_depth :
    let i : Interpreter := { config := { maxStackDepth := 2 }, table := .standard 1.0 }
    i.interpretFrom ['[', '[', ']', '['] {} = .ok ⟨#[], ∅, {}, 2⟩ ∧
      ((2 : Nat) : Int) = branching.excess (i.table.primitives ['[', '[', ']', '[']) ∧
      2 ≤ i.config.maxStackDepth ∧
      i.interpretFrom ['[', '[', '+', '[', ']'] {} = .error (.stackOverflow 3 '[' 2) ∧
      FirstFault i.limits (i.table.primitives ['[', '[', '+', '[', ']'])
        (.stackOverflow 3 '[' 2) := by
  intro i
  have hok : i.interpretFrom ['[', '[', ']', '['] {} = .ok ⟨#[], ∅, {}, 2⟩ := rfl
  have herror : i.interpretFrom ['[', '[', '+', '[', ']'] {} = .error (.stackOverflow 3 '[' 2) :=
    rfl
  obtain ⟨hopen, hdepth⟩ := (interpretFrom_error_iff_fault i _ _).2.2 _ hok
  exact ⟨hok, hopen, hdepth, herror, ((interpretFrom_error_iff_fault i _ _).2.1 _).mp herror⟩

end LSystem
