import LSystem.Number.Numeral
import LSystem.Number.Shortest

/-!
# Weights of alternatives

When a symbol has several replacements, each carries a weight, and one is chosen with probability
proportional to it.  A weight is a double, and only a positive finite one is admissible: the
weights of a rule must have a positive finite sum to draw below.

A weight occurs in texts in two directions.  A rule text holds it as a numeral, which is rounded
to the nearest double; a message about a rejected weight shows it by its shortest digits, in
positional form and without a point when it is whole.
-/

namespace LSystem

/-- How often an alternative is chosen, relative to the others of its rule. -/
abbrev Weight := Float

namespace Weight

/-- Whether a weight may be given to an alternative: it is finite and positive. -/
def isAdmissible (w : Weight) : Bool := w.isFinite && decide (0.0 < w)

theorem isAdmissible_iff {w : Weight} : w.isAdmissible ↔ w.isFinite ∧ 0.0 < w := by
  rw [isAdmissible, Bool.and_eq_true, decide_eq_true_iff]

/-- Reads an admissible weight that fills a whole text. -/
def read? (text : List Char) : Option Weight :=
  ((Numeral.read? text).map Numeral.toFloat).filter isAdmissible

/-- The text of a double: the shortest digits that read back, laid out positionally. -/
def text (w : Weight) : String :=
  if w.isNaN then "NaN"
  else
    let magnitude :=
      if w.isInf then "inf"
      else if w == 0.0 then "0"
      else String.ofList (Decimal.shortest w).plain
    if w.toBits.toNat < twoPow 63 then magnitude else "-" ++ magnitude

/-- What is read is a numeral whose value is admissible. -/
theorem read?_eq_some_iff {cs : List Char} {w : Weight} :
    read? cs = some w ↔
      ∃ n, Numeral.read? cs = some n ∧ n.toFloat = w ∧ w.isFinite ∧ 0.0 < w := by
  rw [read?, Option.filter_eq_some_iff, isAdmissible_iff, Option.map_eq_some_iff]
  constructor
  · rintro ⟨⟨n, hn, hw⟩, hadmissible⟩
    exact ⟨n, hn, hw, hadmissible⟩
  · rintro ⟨n, hn, hw, hadmissible⟩
    exact ⟨⟨n, hn, hw⟩, hadmissible⟩

/-- Reading yields admissible weights only. -/
theorem isAdmissible_of_read? {cs : List Char} {w : Weight} (h : read? cs = some w) :
    w.isAdmissible := by
  simp only [read?, Option.filter_eq_some_iff] at h
  exact h.2

end Weight

end LSystem
