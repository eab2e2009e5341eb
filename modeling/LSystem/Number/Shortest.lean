import LSystem.Number.Binary
import LSystem.Number.Decimal

/-!
# Shortest decimals

Many decimals read back as the same double: all those in the interval of numbers that round to
it.  This module finds the shortest of them, and of several shortest ones the nearest to the exact
value, and lays a decimal out as a text.

## The interval and the grid

Around a magnitude `m · 2 ^ q` the interval reaches half a step of the format to each side, only
a quarter of `2 ^ q` below when `m` is the first significand of its exponent, because the
numbers below are twice as dense.  Its ends belong to it exactly when `m` is even.

A decimal with few digits is a multiple of a large power of ten.  So the search walks the powers
of ten downwards, and the first whose grid has a point in the interval gives the fewest digits.
If a grid has a point in the interval, one of the two neighbours of the exact value on it is
such a point, so only these two are tried.  All comparisons are between natural numbers, after
scaling by the powers of two and ten in the denominators.

Layout is a second step.  It is always positional, however large or small the number.
-/

namespace LSystem

namespace Decimal

/-! ## Digits -/

/-- The multiple of `10 ^ p` by which a grid of that step represents the magnitude `b`: the
nearer of its two neighbours on the grid that lie in its rounding interval, the upper one of two
equally near.  The flag tells that the numbers below `b` are twice as dense. -/
def onGrid? (b : Binary) (denserBelow : Bool) (p : Int) : Option Nat :=
  let step := twoPow (2 - b.exponent).toNat * tenPow p.toNat
  let quarter := twoPow (b.exponent - 2).toNat * tenPow (-p).toNat
  let centre := 4 * b.significand * quarter
  let low := centre - (if denserBelow then 1 else 2) * quarter
  let high := centre + 2 * quarter
  let inside := fun x =>
    if b.significand % 2 = 0 then low ≤ x && x ≤ high else low < x && x < high
  let n := centre / step
  match inside (n * step), inside ((n + 1) * step) with
  | false, false => none
  | true, false => some n
  | false, true => some (n + 1)
  | true, true => some (if 2 * centre < (2 * n + 1) * step then n else n + 1)

/-- Walks the grids downwards from the step `10 ^ p`, at most `count` of them. -/
def onFirstGrid (b : Binary) (denserBelow : Bool) (p : Int) : Nat → Decimal
  | 0 => ⟨0, 0⟩
  | count + 1 =>
    match onGrid? b denserBelow p with
    | some n => ⟨n, p⟩
    | none => onFirstGrid b denserBelow (p - 1) count

/-- The shortest decimal that rounds to a positive finite double.  The walk starts at the step
`10 ^ 309`, which is above every double, and ends below `10 ^ -324`, which is finer than the
smallest distance between two of them. -/
def shortest (x : Float) : Decimal :=
  let b := Binary.ofFloat x
  onFirstGrid b (b.significand = twoPow 52 ∧ -1074 < b.exponent) 309 640

/-! ## Layout -/

/-- The positional text of a decimal: no exponent, and a point only before digits. -/
def plain (d : Decimal) : List Char :=
  let ds := digits d.significand
  let places := (-d.exponent).toNat
  if places = 0 then ds ++ List.replicate d.exponent.toNat '0'
  else
    let padded := List.replicate (places + 1 - ds.length) '0' ++ ds
    padded.take (padded.length - places) ++ '.' :: padded.drop (padded.length - places)

end Decimal

end LSystem
