import LSystem.Expansion
import LSystem.Proofs.Rule.Valid

/-!
# Expanding without a choice

If no rule has more than one alternative, then nothing is left to chance: each symbol has one
successor, its `RuleSet.image`, and no draw is taken to find it.  A pass replaces every symbol by
its image, and so a sequence develops symbol by symbol, each into its own block, whatever stands
beside it (`RuleSet.expand_eq_flatMap`).  Everything that is said of such a set follows from there:
expansions on different streams agree, and expanding distributes over concatenation.
-/

namespace LSystem

/-- What the first alternative of a rule replaces its source by. -/
def Rule.firstReplacement (rule : Rule) : Sequence :=
  (rule.alternatives.head?.map Alternative.replacement).getD []

lemma Rule.select_of_isDeterministic {rule : Rule} (h : rule.isDeterministic) (s : DrawStream) :
    rule.select s = (rule.firstReplacement, s) := by
  obtain ⟨only, honly⟩ := List.length_eq_one_iff.mp (beq_iff_eq.mp h)
  rw [select_of_alternatives_eq honly, firstReplacement, honly]
  rfl

namespace RuleSet

variable {set : RuleSet}

/-- What a symbol is replaced by without a choice. -/
def image (set : RuleSet) (c : Symbol) : Sequence :=
  ((set.lookup c).map Rule.firstReplacement).getD [c]

/-- What a symbol develops into without a choice. -/
def block (set : RuleSet) : Nat → Symbol → Sequence
  | 0, c => [c]
  | n + 1, c => (set.image c).flatMap (set.block n)

lemma image_of_lookup_eq_none {c : Symbol} (h : set.lookup c = none) : set.image c = [c] := by
  simp [image, h]

lemma image_of_lookup_eq_some {c : Symbol} {rule : Rule} (h : set.lookup c = some rule) :
    set.image c = rule.firstReplacement := by
  simp [image, h]

lemma isDeterministic_of_lookup (h : set.isDeterministic) {c : Symbol} {rule : Rule}
    (hlookup : set.lookup c = some rule) : rule.isDeterministic :=
  List.all_eq_true.mp h rule (mem_toList_iff.mpr ⟨c, hlookup⟩)

lemma successor_of_isDeterministic (h : set.isDeterministic) (c : Symbol) (s : DrawStream) :
    set.successor c s = (set.image c, s) := by
  cases hlookup : set.lookup c with
  | none => rw [successor_of_lookup_eq_none hlookup, image_of_lookup_eq_none hlookup]
  | some rule =>
    rw [successor_of_lookup_eq_some hlookup, image_of_lookup_eq_some hlookup]
    exact Rule.select_of_isDeterministic (isDeterministic_of_lookup h hlookup) s

lemma step_of_isDeterministic (h : set.isDeterministic) (cs : Sequence) (s : DrawStream) :
    set.step cs s = (cs.flatMap set.image, s) := by
  induction cs with
  | nil => rfl
  | cons c cs ih => rw [step_cons, successor_of_isDeterministic h, ih, List.flatMap_cons]

/-- Without a choice, a sequence develops symbol by symbol, and no draw is taken. -/
lemma expand_eq_flatMap (h : set.isDeterministic) (n : Nat) (cs : Sequence) (s : DrawStream) :
    set.expand n cs s = (cs.flatMap (set.block n), s) := by
  induction n generalizing cs with
  | zero =>
    rw [expand_zero]
    exact congrArg (·, s) (List.flatMap_singleton' cs).symm
  | succ n ih =>
    rw [expand_succ, step_of_isDeterministic h, ih, List.flatMap_assoc]
    rfl

lemma expand_singleton (h : set.isDeterministic) (n : Nat) (c : Symbol) (s : DrawStream) :
    set.expand n [c] s = (set.block n c, s) := by
  rw [expand_eq_flatMap h, List.flatMap_singleton]

lemma block_of_lookup_eq_none {c : Symbol} (h : set.lookup c = none) (n : Nat) :
    set.block n c = [c] := by
  induction n with
  | zero => rfl
  | succ n ih => rw [block, image_of_lookup_eq_none h, List.flatMap_singleton, ih]

/-- **Without a choice, expanding is a morphism.**  The stream does not matter and is left where it
was; two sequences in a row develop each on its own, and so does every symbol of a sequence.  A
symbol without a rule stays what it is, and one with a rule develops in `n + 1` passes into what
its only replacement develops into in `n`. -/
theorem expand_of_isDeterministic (h : set.isDeterministic) :
    (∀ n cs s t, (set.expand n cs s).1 = (set.expand n cs t).1 ∧ (set.expand n cs s).2 = s) ∧
    (∀ n cs ds s,
      (set.expand n (cs ++ ds) s).1 = (set.expand n cs s).1 ++ (set.expand n ds s).1) ∧
    (∀ n cs s, (set.expand n cs s).1 = cs.flatMap fun c => (set.expand n [c] s).1) ∧
    (∀ c, set.lookup c = none → ∀ n s, (set.expand n [c] s).1 = [c]) ∧
    (∀ c rule, set.lookup c = some rule → ∃ only, rule.alternatives = [only] ∧
      ∀ n s, (set.expand (n + 1) [c] s).1 = (set.expand n only.replacement s).1) := by
  refine ⟨?_, ?_, ?_, ?_, ?_⟩
  · intro n cs s t
    simp only [expand_eq_flatMap h, and_self]
  · intro n cs ds s
    simp only [expand_eq_flatMap h, List.flatMap_append]
  · intro n cs s
    simp only [expand_singleton h, expand_eq_flatMap h]
  · intro c hlookup n s
    rw [expand_singleton h, block_of_lookup_eq_none hlookup]
  · intro c rule hlookup
    have honly := isDeterministic_of_lookup h hlookup
    obtain ⟨only, honly⟩ := List.length_eq_one_iff.mp (beq_iff_eq.mp honly)
    refine ⟨only, honly, fun n s => ?_⟩
    rw [expand_succ, step_singleton, successor_of_lookup_eq_some hlookup,
      Rule.select_of_alternatives_eq honly]

/-- One symbol grows, one vanishes and one has no rule. -/
theorem expand_of_isDeterministic_of_growth :
    let set := ofList [.deterministic 'A' ['A', 'B', 'A'], .deterministic 'B' []]
    set.isDeterministic ∧
      (set.expand 2 ['A', 'F', 'B'] (.ofList [])).1 = ['A', 'B', 'A', 'A', 'B', 'A', 'F'] ∧
      ∀ s, (set.expand 2 ['A', 'F', 'B'] s).1 = ['A', 'B', 'A', 'A', 'B', 'A', 'F'] ∧
        (set.expand 2 ['A', 'F', 'B'] s).2 = s := by
  intro set
  have h : set.isDeterministic := by decide +kernel
  have hvalue : (set.expand 2 ['A', 'F', 'B'] (.ofList [])).1 =
      ['A', 'B', 'A', 'A', 'B', 'A', 'F'] := by decide +kernel
  obtain ⟨hstream, -⟩ := expand_of_isDeterministic h
  refine ⟨h, hvalue, fun s => ?_⟩
  obtain ⟨hsame, hleft⟩ := hstream 2 ['A', 'F', 'B'] s (.ofList [])
  exact ⟨hsame.trans hvalue, hleft⟩

end RuleSet

end LSystem
