import LSystem.Grammar.Error
import LSystem.Text.Blank
import LSystem.Weight

/-!
# Productions

A production is one rule text: a source symbol, an optional weight, an arrow, and the replacement.

    SYMBOL [WEIGHT] -> REPLACEMENT

The text is cut at its first arrow.  Before it stand one or two words, the first of a single
symbol, the second a numeral; after it stands a run of symbols without blanks, possibly empty,
that may hold further arrows.  Blanks around the words, around the arrow and at both ends do not
matter, and none is needed next to the arrow, so `-->+` replaces a minus by a plus.

## Which fault is reported

A text with several faults is refused for the first in reading order: nothing there, no arrow, no
symbol, a symbol that is too long, a bad weight, a third word, a blank in the replacement.
-/

namespace LSystem

/-- One rule text, taken apart. -/
structure Production where
  source : Symbol
  /-- Absent when the text has no weight. -/
  weight : Option Weight
  replacement : Sequence
deriving DecidableEq, Repr

namespace Production

/-- The weight that a production gives to its alternative, one unless it is written. -/
def effectiveWeight (p : Production) : Weight := p.weight.getD 1.0

/-! ## Reading -/

/-- What stands before and after the first arrow of a text. -/
def splitArrow? : List Char → Option (List Char × List Char)
  | [] => none
  | '-' :: '>' :: rest => some ([], rest)
  | c :: rest => (splitArrow? rest).map fun (head, tail) => (c :: head, tail)

/-- The source and the weight that the words before the arrow stand for.  The whole text of the
rule is needed for the wording of a fault only. -/
def readHead (rule : String) : List (List Char) → Except GrammarError (Symbol × Option Weight)
  | [] => .error (.missingSymbol rule)
  | [[source]] => .ok (source, none)
  | [source] :: token :: rest =>
    match Weight.read? token with
    | none => .error (.invalidWeight rule (String.ofList token))
    | some w =>
      match rest with
      | [] => .ok (source, some w)
      | extra :: _ => .error (.unexpectedToken rule (String.ofList extra))
  | token :: _ => .error (.invalidSymbol rule (String.ofList token))

/-- The replacement that the text after the arrow stands for. -/
def readReplacement (rule : String) (tail : List Char) : Except GrammarError Sequence :=
  let replacement := Text.trim tail
  if replacement.any Text.isBlank then .error (.invalidReplacement rule) else .ok replacement

/-- Reads one rule text. -/
def read (rule : String) : Except GrammarError Production :=
  let text := Text.trim rule.toList
  let rule := String.ofList text
  if text = [] then .error .empty
  else
    match splitArrow? text with
    | none => .error (.missingSeparator rule)
    | some (head, tail) => do
      let (source, weight) ← readHead rule (Text.words head)
      let replacement ← readReplacement rule tail
      return { source, weight, replacement }

/-- The two parts around an arrow, with the arrow between them, are the text. -/
theorem append_of_splitArrow? {cs head tail : List Char} (h : splitArrow? cs = some (head, tail)) :
    cs = head ++ '-' :: '>' :: tail := by
  fun_induction splitArrow? cs generalizing head with
  | case1 => simp at h
  | case2 rest => simp_all
  | case3 c rest _ ih =>
    obtain ⟨⟨u, v⟩, hu, he⟩ := Option.map_eq_some_iff.mp h
    obtain ⟨rfl, rfl⟩ : c :: u = head ∧ v = tail := by simpa using he
    simp [ih hu]

end Production

end LSystem
