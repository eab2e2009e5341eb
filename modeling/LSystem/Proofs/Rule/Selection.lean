import LSystem.Proofs.Number.Order
import LSystem.Proofs.Random.Below
import LSystem.Proofs.Rule.Workbench
import LSystem.Rule.Selection

/-!
# The scan of a selection

A selection draws a number below the total weight of its rule and looks for the first cumulative
weight above it.  The cumulative weights and the total are rounded sums, so one might fear a number
that is below the total and not below the last cumulative weight.  There is none, since the two are
sums of the same weights in the same order.  So the search ends inside the rule, and the last
alternative is never chosen for want of another (`Rule.Valid.findIdx?_eq`).

What the search finds is described by `Rule.FallsTo`.  An earlier cumulative weight is not above
the number; that it is at most the number needs both to be numbers, which the weights of a valid
rule see to (`Rule.Valid.zero_lt_of_mem`).  From this description alone a greater number falls to no
earlier alternative (`Rule.FallsTo.le`).
-/

namespace LSystem

lemma Double.isNaN_eq_false_of_pos {x : Float} (h : 0.0 < x) : x.isNaN = false :=
  (Double.lt_iff_rank.mp h).1.2

namespace Rule

variable {rule : Rule} {draw : Weight}

/-! ## Cumulative weights -/

lemma zero_lt_of_mem_cumulativeFrom {sum bound : Weight} {as : List Alternative}
    (hsum : sum = 0.0 ∨ 0.0 < sum) (hweights : ∀ a ∈ as, 0.0 < a.weight)
    (h : bound ∈ cumulativeFrom sum as) : 0.0 < bound := by
  induction as generalizing sum with
  | nil => cases h
  | cons a as ih =>
    obtain ⟨hweight, hweights⟩ := List.forall_mem_cons.mp hweights
    have hnext : 0.0 < sum + a.weight := by
      rcases hsum with rfl | hsum
      · rwa [Double.zero_add_of_pos hweight]
      · exact Double.add_pos hsum hweight
    rcases List.mem_cons.mp h with rfl | h
    · exact hnext
    · exact ih (.inr hnext) hweights h

lemma Valid.zero_lt_weight (hrule : rule.Valid) {a : Alternative} (h : a ∈ rule.alternatives) :
    0.0 < a.weight := (Weight.isAdmissible_iff.mp (hrule.isAdmissible_weight a h)).2

lemma Valid.zero_lt_of_mem (hrule : rule.Valid) {bound : Weight}
    (h : bound ∈ rule.cumulativeWeights) : 0.0 < bound :=
  zero_lt_of_mem_cumulativeFrom (.inl rfl) (fun _ ha => hrule.zero_lt_weight ha) h

/-- The total is the same whichever zero the sum starts from. -/
lemma Valid.foldl_neg_zero (hrule : rule.Valid) :
    rule.alternatives.foldl (fun sum a => sum + a.weight) (-0.0) = rule.totalWeight := by
  obtain ⟨source, as⟩ := rule
  cases as with
  | nil => exact absurd rfl hrule.alternatives_ne_nil
  | cons a as =>
    have hpos := hrule.zero_lt_weight List.mem_cons_self
    simp only [totalWeight, List.foldl_cons, Double.neg_zero_add_of_pos hpos,
      Double.zero_add_of_pos hpos]

/-! ## Where a number falls -/

/-- A number falls to an alternative whose cumulative weight is above it, if no earlier one is. -/
structure FallsTo (rule : Rule) (draw : Weight) (i : Nat) : Prop where
  lt_bound : ∃ bound, rule.cumulativeWeights[i]? = some bound ∧ draw < bound
  bound_le : ∀ j < i, ∃ bound, rule.cumulativeWeights[j]? = some bound ∧ bound ≤ draw

/-- A greater number does not fall to an earlier alternative. -/
lemma FallsTo.le {draw' : Weight} {i i' : Nat} (h : rule.FallsTo draw i)
    (h' : rule.FallsTo draw' i') (hle : draw ≤ draw') : i ≤ i' := by
  by_contra hlt
  obtain ⟨bound, hbound, hdraw'⟩ := h'.lt_bound
  obtain ⟨bound', hbound', hdraw⟩ := h.bound_le i' (by omega)
  cases hbound.symm.trans hbound'
  exact Double.lt_irrefl (Double.lt_of_le_of_lt hdraw (Double.lt_of_le_of_lt hle hdraw'))

/-- The search for a cumulative weight above a number below the total succeeds, where
`indexOfDraw` says. -/
lemma Valid.findIdx?_eq (hrule : rule.Valid) (hdraw : draw < rule.totalWeight) :
    rule.cumulativeWeights.findIdx? (fun bound => draw < bound) = some (rule.indexOfDraw draw) := by
  have hlast := getLast?_cumulativeWeights hrule.alternatives_ne_nil
  have hexists : ∃ bound ∈ rule.cumulativeWeights, decide (draw < bound) = true :=
    ⟨rule.totalWeight, List.mem_of_getLast? hlast, decide_eq_true hdraw⟩
  have hlt := List.findIdx_lt_length_of_exists hexists
  rw [List.findIdx?_eq_some_of_exists hexists, indexOfDraw]
  rw [length_cumulativeWeights] at hlt
  congr 1
  omega

lemma Valid.fallsTo (hrule : rule.Valid) (hdraw : draw < rule.totalWeight) :
    rule.FallsTo draw (rule.indexOfDraw draw) := by
  obtain ⟨hlt, hbound, hearlier⟩ :=
    List.findIdx?_eq_some_iff_getElem.mp (hrule.findIdx?_eq hdraw)
  constructor
  · exact ⟨_, List.getElem?_eq_getElem hlt, of_decide_eq_true hbound⟩
  · intro j hj
    have hpos := hrule.zero_lt_of_mem (List.getElem_mem (hj.trans hlt))
    refine ⟨_, List.getElem?_eq_getElem (hj.trans hlt), ?_⟩
    exact Double.le_of_not_lt (Double.lt_iff_rank.mp hdraw).1.1
      (Double.isNaN_eq_false_of_pos hpos) fun h => hearlier j hj (decide_eq_true h)

/-! ## Selecting -/

lemma select_of_two_le (h : 2 ≤ rule.alternatives.length) (s : DrawStream) :
    rule.select s =
      (rule.replacementOfDraw (s.below rule.totalWeight).1, (s.below rule.totalWeight).2) := by
  obtain ⟨source, _ | ⟨a, _ | ⟨b, as⟩⟩⟩ := rule
  · cases h
  · exact absurd h (Nat.not_succ_le_self 1)
  · rfl

/-- **A selection ends inside its scan.**  Of a rule that can be built, the total is positive and
finite, and the last cumulative weight is that very total.  So each number below the total falls
to an alternative that the rule has: the first one whose cumulative weight is above the number.
A greater number falls to no earlier alternative.  And such a number is what a selection draws. -/
theorem select_ends_in_scan (hrule : rule.Reachable) (hchoice : 2 ≤ rule.alternatives.length) :
    (rule.totalWeight.isFinite ∧ 0.0 < rule.totalWeight) ∧
    (rule.cumulativeWeights.getLast? = some rule.totalWeight ∧
      rule.alternatives.foldl (fun sum a => sum + a.weight) (-0.0) = rule.totalWeight) ∧
    (∀ draw, draw < rule.totalWeight →
      rule.cumulativeWeights.findIdx? (fun bound => draw < bound) = some (rule.indexOfDraw draw) ∧
      rule.FallsTo draw (rule.indexOfDraw draw) ∧
      ∃ a, rule.alternatives[rule.indexOfDraw draw]? = some a ∧
        rule.replacementOfDraw draw = a.replacement) ∧
    (∀ draw draw', draw ≤ draw' → draw' < rule.totalWeight →
      rule.indexOfDraw draw ≤ rule.indexOfDraw draw') ∧
    (∀ s : DrawStream, (s.below rule.totalWeight).1 < rule.totalWeight ∧
      rule.select s =
        (rule.replacementOfDraw (s.below rule.totalWeight).1, (s.below rule.totalWeight).2)) := by
  have hvalid := hrule.valid
  refine ⟨Weight.isAdmissible_iff.mp hvalid.isAdmissible_totalWeight,
    ⟨getLast?_cumulativeWeights hvalid.alternatives_ne_nil, hvalid.foldl_neg_zero⟩, ?_, ?_, ?_⟩
  · intro draw hdraw
    have hindex := List.getElem?_eq_getElem (indexOfDraw_lt hvalid.alternatives_ne_nil draw)
    exact ⟨hvalid.findIdx?_eq hdraw, hvalid.fallsTo hdraw, _, hindex,
      replacementOfDraw_of_getElem? hindex⟩
  · intro draw draw' hle hdraw'
    have hdraw := Double.lt_of_le_of_lt hle hdraw'
    exact (hvalid.fallsTo hdraw).le (hvalid.fallsTo hdraw') hle
  · intro s
    exact ⟨DrawStream.below_lt hvalid.isAdmissible_totalWeight s, select_of_two_le hchoice s⟩

/-- The first two weights add up to a little more than three tenths, which therefore falls to the
second alternative. -/
theorem select_ends_in_scan_of_rounded_sum :
    let rule : Rule := ⟨'X', [⟨0.1, ['A']⟩, ⟨0.2, ['B']⟩, ⟨0.3, ['C']⟩]⟩
    rule.Reachable ∧ 2 ≤ rule.alternatives.length ∧ 0.3 < rule.totalWeight ∧
      rule.indexOfDraw 0.3 = 1 ∧ rule.FallsTo 0.3 (rule.indexOfDraw 0.3) := by
  intro rule
  have hrule : rule.Reachable :=
    ⟨[.stochastic 'X' [⟨0.1, ['A']⟩, ⟨0.2, ['B']⟩, ⟨0.3, ['C']⟩]], by decide +kernel⟩
  have hdraw : 0.3 < rule.totalWeight := by decide +kernel
  obtain ⟨-, -, hscan, -⟩ := select_ends_in_scan hrule (by decide)
  exact ⟨hrule, by decide, hdraw, by decide +kernel, (hscan 0.3 hdraw).2.1⟩

end Rule

end LSystem
