import LSystem.Random.Stream
import LSystem.Rule.Basic

/-!
# Selecting an alternative

Applying a rule chooses one of its alternatives.  A deterministic rule leaves the random stream
alone.  Otherwise a number is drawn below the total weight, and the first alternative whose
cumulative weight exceeds it is chosen, so each is chosen with a probability proportional to its
weight.

Should no cumulative weight exceed the number, the last alternative is chosen; for a number below
the total this does not happen, since the last cumulative weight is the total.
-/

namespace LSystem.Rule

/-- The index of the first alternative whose cumulative weight exceeds a number, or the last. -/
def indexOfDraw (rule : Rule) (draw : Weight) : Nat :=
  min (rule.cumulativeWeights.findIdx fun bound => draw < bound) (rule.alternatives.length - 1)

/-- The replacement of the alternative that a number falls to. -/
def replacementOfDraw (rule : Rule) (draw : Weight) : Sequence :=
  ((rule.alternatives[rule.indexOfDraw draw]?).map Alternative.replacement).getD []

/-- Chooses a replacement, and gives the stream that is left. -/
def select (rule : Rule) (s : DrawStream) : Sequence × DrawStream :=
  match rule.alternatives with
  | [] => ([], s)
  | [only] => (only.replacement, s)
  | _ =>
    let (draw, s) := s.below rule.totalWeight
    (rule.replacementOfDraw draw, s)

/-- A deterministic rule takes no draw. -/
@[simp] theorem select_deterministic (source : Symbol) (replacement : Sequence) (s : DrawStream) :
    (deterministic source replacement).select s = (replacement, s) := rfl

/-- The only alternative of a rule is chosen without a draw. -/
theorem select_of_alternatives_eq {rule : Rule} {only : Alternative}
    (h : rule.alternatives = [only]) (s : DrawStream) :
    rule.select s = (only.replacement, s) := by
  rw [select, h]

theorem indexOfDraw_lt {rule : Rule} (h : rule.alternatives ≠ []) (draw : Weight) :
    rule.indexOfDraw draw < rule.alternatives.length := by
  have hlength : 0 < rule.alternatives.length := List.length_pos_iff.mpr h
  unfold indexOfDraw
  omega

theorem replacementOfDraw_of_getElem? {rule : Rule} {draw : Weight} {a : Alternative}
    (h : rule.alternatives[rule.indexOfDraw draw]? = some a) :
    rule.replacementOfDraw draw = a.replacement := by
  rw [replacementOfDraw, h]
  rfl

/-- A number falls to one of the alternatives, if there are any. -/
theorem exists_replacementOfDraw_eq {rule : Rule} (h : rule.alternatives ≠ []) (draw : Weight) :
    ∃ a ∈ rule.alternatives, rule.replacementOfDraw draw = a.replacement := by
  have hindex := indexOfDraw_lt h draw
  exact ⟨_, List.getElem_mem hindex,
    replacementOfDraw_of_getElem? (List.getElem?_eq_getElem hindex)⟩

/-- What is chosen is the replacement of an alternative, if there is one. -/
theorem exists_select_eq {rule : Rule} (h : rule.alternatives ≠ []) (s : DrawStream) :
    ∃ a ∈ rule.alternatives, (rule.select s).1 = a.replacement := by
  unfold select
  split
  · rename_i hnil
    exact absurd hnil h
  · rename_i only honly
    exact ⟨only, by simp [honly], rfl⟩
  · exact exists_replacementOfDraw_eq h _

/-- Nothing is chosen if there is no alternative, and no draw is taken. -/
theorem select_of_alternatives_eq_nil {rule : Rule} (h : rule.alternatives = [])
    (s : DrawStream) : rule.select s = ([], s) := by
  rw [select, h]

end LSystem.Rule
