import LSystem.Symbol

/-!
# What can be wrong with a rule

`GrammarError` lists the causes for which a rule text, or a rule built from parts, is refused.
Causes that come from a text carry the trimmed text of the rule, and where one word is to blame
also that word.  A fault found while reading a text of several lines is wrapped with the number
of its line.

The wording of every cause is in one function, `GrammarError.message`.
-/

namespace LSystem

/-- Why a rule is refused. -/
inductive GrammarError where
  /-- There is nothing but blanks. -/
  | empty
  /-- There is no arrow. -/
  | missingSeparator (rule : String)
  /-- There is nothing before the arrow. -/
  | missingSymbol (rule : String)
  /-- The first word is longer than one symbol. -/
  | invalidSymbol (rule token : String)
  /-- A weight is unreadable, not positive or not finite, or makes the total overflow. -/
  | invalidWeight (rule token : String)
  /-- There is a third word before the arrow. -/
  | unexpectedToken (rule token : String)
  /-- A rule without alternatives was to be built. -/
  | noAlternatives (source : Symbol)
  /-- There is a blank inside the replacement. -/
  | invalidReplacement (rule : String)
  /-- The line of that number, counted from one, is at fault. -/
  | atLine (line : Nat) (cause : GrammarError)
deriving DecidableEq, Repr, Inhabited

namespace GrammarError

/-- The wording of a cause. -/
def message : GrammarError → String
  | empty => "empty rule"
  | missingSeparator rule => s!"missing `->` separator in rule `{rule}`"
  | missingSymbol rule => s!"missing source symbol in rule `{rule}`"
  | invalidSymbol rule token => s!"invalid source symbol `{token}` in rule `{rule}`"
  | invalidWeight rule token =>
    s!"invalid weight `{token}` in rule `{rule}`: weights must be positive and finite"
  | unexpectedToken rule token => s!"unexpected token `{token}` before `->` in rule `{rule}`"
  | noAlternatives source => s!"rule for `{source}` has no alternatives"
  | invalidReplacement rule => s!"whitespace inside replacement of rule `{rule}`"
  | atLine line cause =>
    let inner := cause.message
    s!"line {line}: {inner}"

end GrammarError

end LSystem
