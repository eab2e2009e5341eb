import LSystem.RuleSet

/-!
# Expansion

One pass replaces every symbol of a sequence at once and concatenates their successors, in order.
Expanding a sequence by some generations repeats the pass.  The random stream is threaded through
from the first symbol of the first pass to the last of the last, so it is consulted in reading
order, generation after generation.

The pass is written as a fold with a growing buffer; `step_cons` says what it computes in the way
laws are proved from.

An `Expander` holds a rule set and its own stream, and its calls share that stream.  Its
`Generations` are the successive sequences, beginning with the sequence itself, each computed
when it is asked for.
-/

namespace LSystem

namespace RuleSet

/-! ## One pass -/

/-- Appends the successors of the symbols of a sequence. -/
def stepInto (set : RuleSet) (current : Sequence) (out : Array Symbol) (s : DrawStream) :
    Array Symbol × DrawStream :=
  current.foldl (fun (out, s) c => set.appendSuccessor c out s) (out, s)

/-- Replaces every symbol of a sequence once. -/
def step (set : RuleSet) (current : Sequence) (s : DrawStream) : Sequence × DrawStream :=
  let (out, s) := set.stepInto current #[] s
  (out.toList, s)

@[simp] theorem step_nil (set : RuleSet) (s : DrawStream) : set.step [] s = ([], s) := rfl

theorem stepInto_cons (set : RuleSet) (c : Symbol) (cs : Sequence) (out : Array Symbol)
    (s : DrawStream) :
    set.stepInto (c :: cs) out s =
      set.stepInto cs (out ++ (set.successor c s).1) (set.successor c s).2 := rfl

/-- What the buffer holds already stands before what a pass appends, and does not change it. -/
theorem stepInto_spec (set : RuleSet) (cs : Sequence) (out : Array Symbol) (s : DrawStream) :
    (set.stepInto cs out s).1.toList = out.toList ++ (set.step cs s).1 ∧
      (set.stepInto cs out s).2 = (set.step cs s).2 := by
  induction cs generalizing out s with
  | nil => simp [stepInto]
  | cons c cs ih =>
    have hout := ih (out ++ (set.successor c s).1) (set.successor c s).2
    have hempty := ih ((#[] : Array Symbol) ++ (set.successor c s).1) (set.successor c s).2
    rw [step, stepInto_cons, stepInto_cons]
    simp only [hout, hempty, Array.toList_appendList, List.nil_append, List.append_assoc, and_self]

/-- The first symbol is replaced first, and the others with the stream that it leaves. -/
theorem step_cons (set : RuleSet) (c : Symbol) (cs : Sequence) (s : DrawStream) :
    set.step (c :: cs) s =
      ((set.successor c s).1 ++ (set.step cs (set.successor c s).2).1,
        (set.step cs (set.successor c s).2).2) := by
  have hempty :=
    stepInto_spec set cs ((#[] : Array Symbol) ++ (set.successor c s).1) (set.successor c s).2
  rw [step, stepInto_cons]
  simp only [hempty, Array.toList_appendList, List.nil_append]

/-- Two sequences in a row are replaced one after the other, with one stream. -/
theorem step_append (set : RuleSet) (cs ds : Sequence) (s : DrawStream) :
    set.step (cs ++ ds) s =
      ((set.step cs s).1 ++ (set.step ds (set.step cs s).2).1,
        (set.step ds (set.step cs s).2).2) := by
  induction cs generalizing s with
  | nil => rfl
  | cons c cs ih => simp only [List.cons_append, step_cons, ih, List.append_assoc]

@[simp] theorem step_singleton (set : RuleSet) (c : Symbol) (s : DrawStream) :
    set.step [c] s = set.successor c s := by
  rw [step_cons, step_nil, List.append_nil]

/-! ## Generations -/

/-- Develops a sequence by a number of passes. -/
def expand (set : RuleSet) : Nat → Sequence → DrawStream → Sequence × DrawStream
  | 0, current, s => (current, s)
  | generations + 1, current, s =>
    let (next, s) := set.step current s
    set.expand generations next s

@[simp] theorem expand_zero (set : RuleSet) (current : Sequence) (s : DrawStream) :
    set.expand 0 current s = (current, s) := rfl

theorem expand_succ (set : RuleSet) (n : Nat) (current : Sequence) (s : DrawStream) :
    set.expand (n + 1) current s =
      set.expand n (set.step current s).1 (set.step current s).2 := rfl

end RuleSet

/-! ## Expanders -/

/-- A rule set with its own random stream. -/
structure Expander where
  rules : RuleSet
  stream : DrawStream

namespace Expander

/-- The expander of a seed. -/
def seeded (rules : RuleSet) (seed : UInt64) : Expander := ⟨rules, .seeded seed⟩

/-- The expander of the default seed. -/
def new (rules : RuleSet) : Expander := seeded rules DrawStream.defaultSeed

/-- Develops a sequence by one pass, with the expander that is left. -/
def step (e : Expander) (current : Sequence) : Sequence × Expander :=
  let (next, s) := e.rules.step current e.stream
  (next, { e with stream := s })

/-- Develops a sequence by a number of passes, with the expander that is left. -/
def expand (e : Expander) (generations : Nat) (current : Sequence) : Sequence × Expander :=
  let (last, s) := e.rules.expand generations current e.stream
  (last, { e with stream := s })

end Expander

/-- The generations of a sequence that have not been asked for yet. -/
structure Generations where
  expander : Expander
  current : Sequence
  /-- Whether the current sequence was given out. -/
  started : Bool

namespace Generations

/-- The next generation, the first being the sequence itself. -/
def next (g : Generations) : Sequence × Generations :=
  if g.started then
    let (sequence, e) := g.expander.step g.current
    (sequence, ⟨e, sequence, true⟩)
  else (g.current, { g with started := true })

/-- The next generations, as many as asked for. -/
def take : Nat → Generations → List Sequence
  | 0, _ => []
  | count + 1, g =>
    let (sequence, g) := g.next
    sequence :: take count g

end Generations

/-- The generations of a sequence, none of them computed yet. -/
def Expander.generations (e : Expander) (sequence : Sequence) : Generations :=
  ⟨e, sequence, false⟩

end LSystem
