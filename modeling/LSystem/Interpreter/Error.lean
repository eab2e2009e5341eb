import LSystem.Symbol

/-!
# What can go wrong on a walk

A walk over a sequence stops at the first symbol whose action cannot be performed.  Each cause
carries the index of that symbol in the sequence, and where it helps the symbol itself.  The
wording of every cause is in one function, `InterpretError.message`.
-/

namespace LSystem

/-- Why a walk stopped. -/
inductive InterpretError where
  /-- A pose is to be restored, but none is saved. -/
  | stackUnderflow (index : Nat) (symbol : Symbol)
  /-- A pose is to be saved, but there are `depth` of them already. -/
  | stackOverflow (index : Nat) (symbol : Symbol) (depth : Nat)
  /-- A custom command has no handler. -/
  | unknownAction (index : Nat) (name : String)
deriving DecidableEq, Repr, Inhabited

namespace InterpretError

/-- The wording of a cause. -/
def message : InterpretError → String
  | stackUnderflow index symbol =>
    s!"stack underflow: `{symbol}` at index {index} pops an empty stack"
  | stackOverflow index symbol depth =>
    s!"stack overflow: `{symbol}` at index {index} exceeds the maximum depth of {depth}"
  | unknownAction index name => s!"unknown custom action `{name}` at index {index}"

end InterpretError

end LSystem
