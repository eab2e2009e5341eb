import LSystem.Expansion
import LSystem.Proofs.Rule.Selection

/-!
# What a pass does

A pass goes through a sequence and puts a block in the place of each symbol.  What the block is, and
how many draws it takes to find it, is said for one occurrence of a symbol by `RuleSet.Replaces`: a
terminal is its own block, a single alternative is taken as it is, and only where there is a choice
are draws looked at, up to the first that is below the total weight once it is scaled.  The stream
enters there and nowhere else.

`RuleSet.Passes` strings the occurrences of a sequence together, each on the stream that those
before it leave, and `RuleSet.Develops` strings the passes together.  The program computes what
these relations describe (`RuleSet.Passes.step_eq`, `RuleSet.Develops.expand_eq`), and for a set
that was built there is always something to compute (`RuleSet.Sound.exists_replaces`).

Without the draws, what remains is the language of the system: a sequence derives another if the
second is made of blocks that the rules allow for the symbols of the first (`RuleSet.Derives`).
-/

namespace LSystem

/-- What one occurrence of a symbol is replaced by, and how many draws that takes. -/
structure Replacement where
  block : Sequence
  draws : Nat

namespace Replacement

/-- The blocks of some replacements, in order. -/
def concat (ps : List Replacement) : Sequence := ps.flatMap block

def totalDraws (ps : List Replacement) : Nat := (ps.map draws).sum

end Replacement

namespace RuleSet

variable {set : RuleSet} {s : DrawStream} {c : Symbol} {cs ds : Sequence}

/-! ## One occurrence -/

/-- The replacement of a symbol that is reached when the stream is `s`. -/
inductive Replaces (set : RuleSet) (s : DrawStream) (c : Symbol) : Replacement → Prop
  | terminal (hlookup : set.lookup c = none) : Replaces set s c ⟨[c], 0⟩
  | only {rule : Rule} {a : Alternative} (hlookup : set.lookup c = some rule)
      (honly : rule.alternatives = [a]) : Replaces set s c ⟨a.replacement, 0⟩
  | chosen {rule : Rule} {a : Alternative} {k : Nat} (hlookup : set.lookup c = some rule)
      (hchoice : 2 ≤ rule.alternatives.length) (hfirst : s.FirstBelow rule.totalWeight k)
      (hindex : rule.alternatives[rule.indexOfDraw
        (DrawStream.scale rule.totalWeight (s.ahead k))]? = some a) :
      Replaces set s c ⟨a.replacement, k + 1⟩

lemma Replaces.successor_eq {p : Replacement} (h : set.Replaces s c p) :
    set.successor c s = (p.block, s.skip p.draws) := by
  cases h with
  | terminal hlookup => exact successor_of_lookup_eq_none hlookup s
  | only hlookup honly =>
    rw [successor_of_lookup_eq_some hlookup]
    exact Rule.select_of_alternatives_eq honly s
  | chosen hlookup hchoice hfirst hindex =>
    rw [successor_of_lookup_eq_some hlookup, Rule.select_of_two_le hchoice, hfirst.below_eq,
      Rule.replacementOfDraw_of_getElem? hindex]

/-- The draws are known from the stream that is left. -/
lemma Replaces.unique {p q : Replacement} (hp : set.Replaces s c p) (hq : set.Replaces s c q) :
    p = q := by
  obtain ⟨hblock, hskip⟩ := Prod.mk.inj (hp.successor_eq.symm.trans hq.successor_eq)
  have hposition := congrArg DrawStream.position hskip
  simp only [DrawStream.position_skip, Nat.add_left_cancel_iff] at hposition
  cases p
  cases q
  exact congrArg₂ Replacement.mk hblock hposition

/-- No other draws than those that are taken matter. -/
lemma Replaces.of_ahead_eq {t : DrawStream} {p : Replacement} (h : set.Replaces s c p)
    (hahead : ∀ j < p.draws, t.ahead j = s.ahead j) : set.Replaces t c p := by
  cases h with
  | terminal hlookup => exact .terminal hlookup
  | only hlookup honly => exact .only hlookup honly
  | @chosen rule a k hlookup hchoice hfirst hindex =>
    refine .chosen hlookup hchoice (hfirst.of_ahead_eq fun j hj => ?_) ?_
    · exact hahead j (Nat.lt_succ_of_le hj)
    · rwa [hahead k k.lt_succ_self]

lemma Sound.exists_replaces (hset : set.Sound) (s : DrawStream) (c : Symbol) :
    ∃ p, set.Replaces s c p := by
  cases hlookup : set.lookup c with
  | none => exact ⟨_, .terminal hlookup⟩
  | some rule =>
    have hrule := hset.valid hlookup
    by_cases hchoice : 2 ≤ rule.alternatives.length
    · obtain ⟨k, hk⟩ := DrawStream.exists_firstBelow hrule.isAdmissible_totalWeight s
      have hindex := Rule.indexOfDraw_lt hrule.alternatives_ne_nil
        (DrawStream.scale rule.totalWeight (s.ahead k))
      exact ⟨_, .chosen hlookup hchoice hk (List.getElem?_eq_getElem hindex)⟩
    · -- There is an alternative, so without a choice there is exactly one.
      have hlength := List.length_pos_iff.mpr hrule.alternatives_ne_nil
      obtain ⟨a, honly⟩ := List.length_eq_one_iff.mp (by omega : rule.alternatives.length = 1)
      exact ⟨_, .only hlookup honly⟩

/-! ## One pass -/

/-- The replacements of the symbols of a sequence, when the stream is `s` before the first. -/
inductive Passes (set : RuleSet) : DrawStream → Sequence → List Replacement → Prop
  | nil {s : DrawStream} : Passes set s [] []
  | cons {s : DrawStream} {c : Symbol} {cs : Sequence} {p : Replacement} {ps : List Replacement}
      (hfirst : set.Replaces s c p) (hrest : Passes set (s.skip p.draws) cs ps) :
      Passes set s (c :: cs) (p :: ps)

lemma Sound.exists_passes (hset : set.Sound) (s : DrawStream) (cs : Sequence) :
    ∃ ps, set.Passes s cs ps := by
  induction cs generalizing s with
  | nil => exact ⟨[], .nil⟩
  | cons c cs ih =>
    obtain ⟨p, hp⟩ := hset.exists_replaces s c
    obtain ⟨ps, hps⟩ := ih (s.skip p.draws)
    exact ⟨p :: ps, .cons hp hps⟩

/-- A pass gives the blocks in order, and takes the draws of each. -/
lemma Passes.step_eq {ps : List Replacement} (h : set.Passes s cs ps) :
    set.step cs s = (Replacement.concat ps, s.skip (Replacement.totalDraws ps)) := by
  induction h with
  | nil => rfl
  | cons hfirst hrest ih =>
    rw [step_cons, hfirst.successor_eq, ih, DrawStream.skip_skip]
    rfl

lemma stepInto_eq (set : RuleSet) (cs : Sequence) (out : Array Symbol) (s : DrawStream) :
    set.stepInto cs out s = (out ++ (set.step cs s).1, (set.step cs s).2) := by
  obtain ⟨hout, hleft⟩ := stepInto_spec set cs out s
  refine Prod.ext (Array.ext' ?_) hleft
  rw [hout, Array.toList_appendList]

/-! ## Generations -/

/-- The passes that develop a sequence into another, when the stream is `s` before the first. -/
inductive Develops (set : RuleSet) :
    DrawStream → Sequence → List (List Replacement) → Sequence → Prop
  | refl {s : DrawStream} {cs : Sequence} : Develops set s cs [] cs
  | pass {s : DrawStream} {cs ds : Sequence} {ps : List Replacement}
      {passes : List (List Replacement)} (hfirst : set.Passes s cs ps)
      (hrest : Develops set (s.skip (Replacement.totalDraws ps)) (Replacement.concat ps)
        passes ds) :
      Develops set s cs (ps :: passes) ds

lemma Sound.exists_develops (hset : set.Sound) (n : Nat) (s : DrawStream) (cs : Sequence) :
    ∃ passes ds, passes.length = n ∧ set.Develops s cs passes ds := by
  induction n generalizing s cs with
  | zero => exact ⟨[], cs, rfl, .refl⟩
  | succ n ih =>
    obtain ⟨ps, hps⟩ := hset.exists_passes s cs
    obtain ⟨passes, ds, hlength, hpasses⟩ :=
      ih (s.skip (Replacement.totalDraws ps)) (Replacement.concat ps)
    exact ⟨ps :: passes, ds, congrArg (· + 1) hlength, .pass hps hpasses⟩

lemma Develops.expand_eq {passes : List (List Replacement)} (h : set.Develops s cs passes ds) :
    set.expand passes.length cs s = (ds, s.skip (passes.map Replacement.totalDraws).sum) := by
  induction h with
  | refl => rfl
  | pass hfirst hrest ih =>
    rw [List.length_cons, expand_succ, hfirst.step_eq, ih, DrawStream.skip_skip]
    rfl

/-! ## Derivations -/

/-- A block that the rules allow for a symbol. -/
inductive Yields (set : RuleSet) (c : Symbol) : Sequence → Prop
  | terminal (hlookup : set.lookup c = none) : Yields set c [c]
  | alternative {rule : Rule} {a : Alternative} (hlookup : set.lookup c = some rule)
      (hmem : a ∈ rule.alternatives) : Yields set c a.replacement

/-- All symbols of a sequence are replaced at once, each by a block that the rules allow. -/
def Derives (set : RuleSet) (cs ds : Sequence) : Prop :=
  ∃ blocks, List.Forall₂ set.Yields cs blocks ∧ ds = blocks.flatten

/-- A derivation in `n` steps. -/
inductive Derivation (set : RuleSet) : Nat → Sequence → Sequence → Prop
  | refl {cs : Sequence} : Derivation set 0 cs cs
  | step {n : Nat} {cs ds es : Sequence} (hfirst : set.Derives cs ds)
      (hrest : Derivation set n ds es) : Derivation set (n + 1) cs es

lemma Replaces.yields {p : Replacement} (h : set.Replaces s c p) : set.Yields c p.block := by
  cases h with
  | terminal hlookup => exact .terminal hlookup
  | only hlookup honly => exact .alternative hlookup (honly ▸ List.mem_cons_self)
  | chosen hlookup _ _ hindex => exact .alternative hlookup (List.mem_of_getElem? hindex)

lemma Passes.derives {ps : List Replacement} (h : set.Passes s cs ps) :
    set.Derives cs (Replacement.concat ps) := by
  refine ⟨ps.map Replacement.block, ?_, rfl⟩
  induction h with
  | nil => exact .nil
  | cons hfirst _ ih => exact .cons hfirst.yields ih

lemma Develops.derivation {passes : List (List Replacement)} (h : set.Develops s cs passes ds) :
    set.Derivation passes.length cs ds := by
  induction h with
  | refl => exact .refl
  | pass hfirst _ ih => exact .step hfirst.derives ih

/-! ## Expanding -/

/-- **What an expansion does.**  In a set that can be built, each occurrence of a symbol has one
replacement on a given stream, which depends on the draws that it takes alone, and its block is
appended to what the buffer holds.  A pass consists of one replacement for each occurrence, in
order, each on the stream that those before it leave; so a pass over two sequences in a row is two
passes in a row.  An expansion consists of as many passes as it has generations and takes the draws
of all of them, and it is a derivation of the system. -/
theorem expand_develops (hset : set.Reachable) :
    (∀ s c, ∃! p, set.Replaces s c p) ∧
    (∀ s c p, set.Replaces s c p →
      (∀ out, set.appendSuccessor c out s = (out ++ p.block, s.skip p.draws)) ∧
      ∀ t : DrawStream, (∀ j < p.draws, t.ahead j = s.ahead j) → set.Replaces t c p) ∧
    (∀ s cs, ∃ ps, set.Passes s cs ps ∧
      set.step cs s = (Replacement.concat ps, s.skip (Replacement.totalDraws ps)) ∧
      ∀ out, set.stepInto cs out s =
        (out ++ Replacement.concat ps, s.skip (Replacement.totalDraws ps))) ∧
    (∀ s cs ds, set.step (cs ++ ds) s =
      ((set.step cs s).1 ++ (set.step ds (set.step cs s).2).1,
        (set.step ds (set.step cs s).2).2)) ∧
    (∀ n s cs, ∃ passes, passes.length = n ∧
      set.Develops s cs passes (set.expand n cs s).1 ∧
      (set.expand n cs s).2 = s.skip (passes.map Replacement.totalDraws).sum ∧
      set.Derivation n cs (set.expand n cs s).1) := by
  have hsound := hset.sound
  refine ⟨?_, ?_, ?_, fun s cs ds => step_append set cs ds s, ?_⟩
  · intro s c
    obtain ⟨p, hp⟩ := hsound.exists_replaces s c
    exact ⟨p, hp, fun q hq => hq.unique hp⟩
  · intro s c p hp
    refine ⟨fun out => ?_, fun t hahead => hp.of_ahead_eq hahead⟩
    rw [appendSuccessor, hp.successor_eq]
  · intro s cs
    obtain ⟨ps, hps⟩ := hsound.exists_passes s cs
    exact ⟨ps, hps, hps.step_eq, fun out => by rw [stepInto_eq, hps.step_eq]⟩
  · intro n s cs
    obtain ⟨passes, ds, rfl, hpasses⟩ := hsound.exists_develops n s cs
    rw [hpasses.expand_eq]
    exact ⟨passes, rfl, hpasses, rfl, hpasses.derivation⟩

/-- The weights of `X` are so small that the first draw, scaled to their total, is the total itself
and is rejected. -/
theorem expand_develops_of_rejected_draw :
    let edits : List Edit := [.parse ["X 5e-324 -> FA", "X 5e-324 -> A", "A -> XX", "B ->"]]
    let set := (Workbench.run edits .empty).sets.headD ∅
    let stream := DrawStream.ofList [0xFFFFFFFFFFFFFFFF, 0, 0x8000000000000000]
    set.Reachable ∧
      (set.expand 1 ['X', 'B', 'A', 'F', 'X'] stream).1 =
        ['F', 'A', 'X', 'X', 'F', 'A'] ∧
      (set.expand 1 ['X', 'B', 'A', 'F', 'X'] stream).2.position = 3 ∧
      set.Derivation 1 ['X', 'B', 'A', 'F', 'X'] ['F', 'A', 'X', 'X', 'F', 'A'] := by
  intro edits set stream
  have hset : set.Reachable := by
    have hlength : (Workbench.run edits .empty).sets.length = 1 := by decide +kernel
    obtain ⟨only, honly⟩ := List.length_eq_one_iff.mp hlength
    refine ⟨edits, ?_⟩
    simp only [set, honly, List.headD_cons, List.mem_singleton]
  have hvalue : (set.expand 1 ['X', 'B', 'A', 'F', 'X'] stream).1 =
      ['F', 'A', 'X', 'X', 'F', 'A'] := by decide +kernel
  obtain ⟨-, -, -, -, hexpand⟩ := expand_develops hset
  obtain ⟨-, -, -, -, hderivation⟩ := hexpand 1 stream ['X', 'B', 'A', 'F', 'X']
  exact ⟨hset, hvalue, by decide +kernel, hvalue ▸ hderivation⟩

end RuleSet

end LSystem
