import LSystem.Json.Basic
import LSystem.Number.Decimal

/-!
# Numbers in JSON texts

A number is an optional minus, digits without a superfluous leading zero, and optionally a
fraction and an exponent, each with at least one digit.  Without fraction and exponent it is an
integer, unless it is too large for a machine word or is the negative zero.

## The value of a real number

A real number is evaluated by one product or quotient of doubles, not by exact rounding.  The
significand collects digits as long as it fits 64 bits; integer digits beyond that only raise the
exponent, and fraction digits beyond that are dropped.  The significand, rounded to a double, is
then multiplied by a power of ten, or divided by one; an exponent below `-308` is approached by
dividing by `10 ^ 308` repeatedly.  A product that overflows has no value.
-/

namespace LSystem.Json

/-- A number as written. -/
structure Literal where
  negative : Bool
  whole : List Char
  fraction : Option (List Char)
  exponent : Option (Bool × List Char)
deriving DecidableEq, Repr

namespace Literal

/-! ## Shape -/

/-- Splits at least one digit off a text. -/
def digits? (cs : List Char) : Option (List Char × List Char) :=
  match cs.takeWhile Char.isDigit with
  | [] => none
  | ds => some (ds, cs.dropWhile Char.isDigit)

/-- Splits the digits before the fraction off a text. -/
def whole? (cs : List Char) : Option (List Char × List Char) :=
  (digits? cs).filter fun (ds, _) => ds.length = 1 || ds.head? != some '0'

/-- Splits a fraction off a text, if there is a point. -/
def fraction? : List Char → Option (Option (List Char) × List Char)
  | '.' :: rest => (digits? rest).map fun (ds, rest) => (some ds, rest)
  | cs => some (none, cs)

/-- Splits a sign of an exponent off a text. -/
def exponentSign : List Char → Bool × List Char
  | '-' :: rest => (true, rest)
  | '+' :: rest => (false, rest)
  | cs => (false, cs)

/-- Splits an exponent off a text, if there is its mark. -/
def exponent? : List Char → Option (Option (Bool × List Char) × List Char)
  | [] => some (none, [])
  | c :: rest =>
    if c = 'e' ∨ c = 'E' then
      let (negative, rest) := exponentSign rest
      (digits? rest).map fun (ds, rest) => (some (negative, ds), rest)
    else some (none, c :: rest)

/-- Splits a number off a text. -/
def read? (cs : List Char) : Option (Literal × List Char) := do
  let (negative, cs) :=
    match cs with
    | '-' :: rest => (true, rest)
    | _ => (false, cs)
  let (whole, cs) ← whole? cs
  let (fraction, cs) ← fraction? cs
  let (exponent, cs) ← exponent? cs
  return ({ negative, whole, fraction, exponent }, cs)

/-! ## Value -/

/-- Adds digits to a significand as long as it fits 64 bits, and gives those that are left. -/
def collect (n : Nat) : List Char → Nat × List Char
  | [] => (n, [])
  | d :: ds =>
    let next := 10 * n + (d.toNat - '0'.toNat)
    if next < wordCount then collect next ds else (n, d :: ds)

/-- Multiplies or divides by a power of ten; an overflow has no value. -/
def scale? (x : Float) (e : Int) : Option Float :=
  if e < -308 then
    if x == 0.0 then some x else scale? (x / Float.ofScientific 1 false 308) (e + 308)
  else if e < 0 then some (x / Float.ofScientific 1 false e.natAbs)
  else if 308 < e then if x == 0.0 then some x else none
  else (some (x * Float.ofScientific 1 false e.natAbs)).filter fun y => !y.isInf
termination_by e.natAbs
decreasing_by omega

/-- The value of a number. -/
def value (l : Literal) : Json :=
  let (n, left) := collect 0 l.whole
  let signed := fun (x : Float) => real (if l.negative then -x else x)
  if l.fraction = none ∧ l.exponent = none ∧ left = [] then
    if !l.negative then integer n
    else if n = 0 ∨ twoPow 63 < n then signed n.toUInt64.toFloat
    else integer (-n)
  else
    let fraction := l.fraction.getD []
    let (n, dropped) := collect n fraction
    let written : Int :=
      match l.exponent with
      | none => 0
      | some (negative, ds) =>
        if negative then -Decimal.ofDigits ds else Decimal.ofDigits ds
    let e := written + left.length - (fraction.length - dropped.length : Nat)
    ((scale? n.toUInt64.toFloat e).map signed).getD unreadable

end Literal

end LSystem.Json
