import LSystem.Grammar.Error

/-!
# Changes that can be refused

Rules and rule sets are also built up in place, by calls that add to what is there.  Such a call is
a `Change`: it is done, or it is refused with a cause, and it leaves a value in both cases.  That a
refused change leaves the value as it was is not part of the type; it has to be shown of each.

A change to a part of a value, such as one rule of a set, works on the part itself: what it leaves
of the part is what the value then holds, also if the change is refused.
-/

namespace LSystem

/-- A change to a value in place, with a result. -/
abbrev Change (σ : Type) : Type → Type := EStateM GrammarError σ

namespace Change

variable {σ τ : Type}

/-- The change that a pure function makes; where the function fails, nothing is changed. -/
def ofUpdate (update : σ → Except GrammarError σ) : Change σ Unit := fun s =>
  match update s with
  | .ok s' => .ok () s'
  | .error e => .error e s

/-- A change to a part of a value. -/
def onPart (part : τ) (putBack : τ → σ → σ) (change : Change τ Unit) : Change σ Unit := fun s =>
  match change part with
  | .ok _ t => .ok () (putBack t s)
  | .error e t => .error e (putBack t s)

end Change

end LSystem
