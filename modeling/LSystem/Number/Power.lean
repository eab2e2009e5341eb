/-!
# Powers of two and ten

Bit fields, rounding units and decimal places are all sized by powers of two or ten.  They are
natural numbers here, also where a place can lie on either side of the point: a negative power is
always cleared by multiplying the other side of a comparison.
-/

namespace LSystem

/-- The power of two with an exponent. -/
def twoPow (n : Nat) : Nat := Nat.pow 2 n

/-- The power of ten with an exponent. -/
def tenPow (n : Nat) : Nat := Nat.pow 10 n

/-- How many values a machine word has. -/
def wordCount : Nat := twoPow 64

@[simp] theorem twoPow_zero : twoPow 0 = 1 := rfl

theorem twoPow_pos (n : Nat) : 0 < twoPow n := Nat.pow_pos (by decide)

@[simp] theorem tenPow_zero : tenPow 0 = 1 := rfl

theorem tenPow_succ (n : Nat) : tenPow (n + 1) = tenPow n * 10 := rfl

end LSystem
