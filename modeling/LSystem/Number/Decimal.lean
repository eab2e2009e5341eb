/-!
# Unsigned decimals

A decimal is a natural significand with a power of ten.  It is the meeting point of the two
directions between texts and binary numbers: a numeral is read into a decimal and then rounded,
and a binary number is approximated by a decimal and then written out.

## Rounding to binary

`Decimal.toFloat` gives the double nearest to the exact value.  The exponent of a numeral is
whatever the text says, so a decimal far outside the range of a double is answered from the
place of its leading digit alone: above `10^310` every value rounds to infinity, below `10^-330`
every value rounds to zero, and no huge power of ten is ever computed.
-/

namespace LSystem

/-- The number `significand · 10 ^ exponent`. -/
structure Decimal where
  significand : Nat
  exponent : Int
deriving DecidableEq, Repr, Inhabited

namespace Decimal

/-! ## Digits -/

/-- The decimal digits of a number, the highest first; zero has the single digit `0`. -/
def digits (n : Nat) : List Char := Nat.toDigits 10 n

/-- The number that a run of decimal digits stands for. -/
def ofDigits (ds : List Char) : Nat :=
  ds.foldl (fun n d => 10 * n + (d.toNat - '0'.toNat)) 0

@[simp] theorem ofDigits_nil : ofDigits [] = 0 := rfl

theorem ofDigits_concat (ds : List Char) (d : Char) :
    ofDigits (ds ++ [d]) = 10 * ofDigits ds + (d.toNat - '0'.toNat) := by
  simp [ofDigits]

/-! ## Rounding -/

/-- The exponent one above the leading digit: a nonzero value lies in
`[10 ^ (magnitude - 1), 10 ^ magnitude)`. -/
def magnitude (d : Decimal) : Int := (digits d.significand).length + d.exponent

/-- The nearest double, a tie going to the even neighbour. -/
def toFloat (d : Decimal) : Float :=
  if d.significand = 0 then 0.0
  else if 310 < d.magnitude then Float.ofBits 0x7FF0000000000000
  else if d.magnitude < -330 then 0.0
  else Float.ofScientific d.significand (decide (d.exponent < 0)) d.exponent.natAbs

end Decimal

end LSystem
