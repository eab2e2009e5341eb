import LSystem.Grammar.Change
import LSystem.Weight

/-!
# Rules

A rule says what its source symbol is replaced by.  It has one or more alternatives, each a
weight and a replacement.  With a single alternative the rule is deterministic.

## Building rules

A rule is built from its alternatives one at a time, and each is checked as it arrives: its
weight has to be admissible, and the total has to stay finite.  `Rule.Valid` is what these checks
establish of every rule that was built: there is an alternative, all weights are admissible, and
so is their sum.

The total is the sum of the weights from left to right, each addition rounded; so it is the last
of the cumulative weights that a selection compares with, not merely close to it.
-/

namespace LSystem

/-- One weighted replacement of a rule. -/
structure Alternative where
  weight : Weight
  replacement : Sequence
deriving DecidableEq, Repr

/-- What one symbol is replaced by. -/
structure Rule where
  source : Symbol
  alternatives : List Alternative
deriving DecidableEq, Repr

namespace Rule

/-! ## Weights -/

/-- The sum of the weights, from left to right. -/
def totalWeight (rule : Rule) : Weight :=
  rule.alternatives.foldl (fun sum a => sum + a.weight) 0.0

/-- The sums of the weights up to and including each alternative, on top of `sum`. -/
def cumulativeFrom (sum : Weight) : List Alternative → List Weight
  | [] => []
  | a :: rest => (sum + a.weight) :: cumulativeFrom (sum + a.weight) rest

/-- The sums of the weights up to and including each alternative. -/
def cumulativeWeights (rule : Rule) : List Weight := cumulativeFrom 0.0 rule.alternatives

theorem length_cumulativeFrom (sum : Weight) (as : List Alternative) :
    (cumulativeFrom sum as).length = as.length := by
  induction as generalizing sum with
  | nil => rfl
  | cons a as ih => simp [cumulativeFrom, ih]

@[simp] theorem length_cumulativeWeights (rule : Rule) :
    rule.cumulativeWeights.length = rule.alternatives.length :=
  length_cumulativeFrom _ _

theorem getLast?_cumulativeFrom (sum : Weight) (a : Alternative) (as : List Alternative) :
    (cumulativeFrom sum (a :: as)).getLast? =
      some ((a :: as).foldl (fun sum a => sum + a.weight) sum) := by
  induction as generalizing sum a with
  | nil => rfl
  | cons b as ih =>
    have hstep := ih (sum + a.weight) b
    simp only [cumulativeFrom, List.foldl_cons] at hstep ⊢
    rw [List.getLast?_cons_cons, hstep]

/-- The last cumulative weight is the total. -/
theorem getLast?_cumulativeWeights {rule : Rule} (h : rule.alternatives ≠ []) :
    rule.cumulativeWeights.getLast? = some rule.totalWeight := by
  obtain ⟨source, as⟩ := rule
  cases as with
  | nil => exact absurd rfl h
  | cons a as => exact getLast?_cumulativeFrom 0.0 a as

/-! ## Properties -/

/-- Whether a rule has a single alternative. -/
def isDeterministic (rule : Rule) : Bool := rule.alternatives.length == 1

/-- What the checks establish of a rule: it has an alternative, and its weights and their total
are admissible. -/
structure Valid (rule : Rule) : Prop where
  alternatives_ne_nil : rule.alternatives ≠ []
  isAdmissible_weight : ∀ a ∈ rule.alternatives, a.weight.isAdmissible
  isAdmissible_totalWeight : rule.totalWeight.isAdmissible

/-! ## Construction -/

/-- The refusal of a weight, worded as the rule text that would have held it. -/
def weightError (source : Symbol) (w : Weight) : GrammarError :=
  let token := w.text
  .invalidWeight s!"{source} {token} ->" token

/-- The rule that always replaces a symbol by the same sequence. -/
def deterministic (source : Symbol) (replacement : Sequence) : Rule :=
  ⟨source, [⟨1.0, replacement⟩]⟩

/-- The rule of a single weighted alternative. -/
def single (source : Symbol) (a : Alternative) : Except GrammarError Rule :=
  if a.weight.isAdmissible then .ok ⟨source, [a]⟩ else .error (weightError source a.weight)

/-- Adds an alternative at the end, if its weight is admissible and the total stays finite. -/
def push (rule : Rule) (a : Alternative) : Except GrammarError Rule :=
  if a.weight.isAdmissible && (rule.totalWeight + a.weight).isFinite then
    .ok { rule with alternatives := rule.alternatives ++ [a] }
  else .error (weightError rule.source a.weight)

/-- The rule that chooses among weighted alternatives. -/
def stochastic (source : Symbol) : List Alternative → Except GrammarError Rule
  | [] => .error (.noAlternatives source)
  | a :: rest => do rest.foldlM push (← single source a)

/-- Adding an alternative adds its weight to the total. -/
theorem totalWeight_concat (source : Symbol) (as : List Alternative) (a : Alternative) :
    totalWeight ⟨source, as ++ [a]⟩ = totalWeight ⟨source, as⟩ + a.weight := by
  simp [totalWeight]

/-- What a successful addition gives. -/
theorem eq_of_push_eq_ok {rule result : Rule} {a : Alternative} (h : rule.push a = .ok result) :
    result = { rule with alternatives := rule.alternatives ++ [a] } := by
  unfold push at h
  split at h
  · exact (Except.ok.inj h).symm
  · exact absurd h (by simp)

/-! ## Construction in place -/

/-- Adds an alternative at the end of a rule in place, after both checks. -/
def pushInPlace (a : Alternative) : Change Rule Unit := do
  let rule ← get
  if !a.weight.isAdmissible then throw (weightError rule.source a.weight)
  else if !(rule.totalWeight + a.weight).isFinite then throw (weightError rule.source a.weight)
  else set { rule with alternatives := rule.alternatives ++ [a] }

/-- Adding in place is adding, and a refused addition leaves the rule as it was. -/
theorem pushInPlace_eq_ofUpdate (a : Alternative) : pushInPlace a = .ofUpdate (·.push a) := by
  funext rule
  have hpush : pushInPlace a rule =
      (if !a.weight.isAdmissible then throw (weightError rule.source a.weight)
      else if !(rule.totalWeight + a.weight).isFinite then throw (weightError rule.source a.weight)
      else set { rule with alternatives := rule.alternatives ++ [a] } : Change Rule Unit) rule := rfl
  rw [hpush, Change.ofUpdate, push]
  cases a.weight.isAdmissible with
  | false => rfl
  | true => cases (rule.totalWeight + a.weight).isFinite <;> rfl

end Rule

end LSystem
