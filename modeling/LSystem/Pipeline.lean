import LSystem.Expansion
import LSystem.Interpreter.Basic

/-!
# From rules to a drawing

The whole way is to build a rule set, to expand a sequence by it, and to walk over the expansion.
Building can fail for what is wrong with a rule, and walking for what went wrong on the walk; a
`Failure` is either.
-/

namespace LSystem

/-- Why the way from rules to a drawing failed. -/
inductive Failure where
  | grammar (cause : GrammarError)
  | interpretation (cause : InterpretError)
deriving DecidableEq, Repr, Inhabited

/-- The wording of a failure. -/
def Failure.message : Failure → String
  | grammar cause => "grammar error: " ++ cause.message
  | interpretation cause => "interpretation error: " ++ cause.message

/-- Expands a sequence by rules that may have failed to be built, and draws the expansion. -/
def drawExpansion (rules : Except GrammarError RuleSet) (generations : Nat) (seed : Sequence)
    (stream : DrawStream) (draw : Sequence → Except InterpretError Drawing) :
    Except Failure (Sequence × Drawing) := do
  let rules ← rules.mapError .grammar
  let expansion := (rules.expand generations seed stream).1
  let drawing ← (draw expansion).mapError .interpretation
  return (expansion, drawing)

end LSystem
