import LSystem.Number.Decimal

/-!
# Numerals

A numeral is the text of a number in positional or scientific form: an optional sign, digits with
at most one point among them, and optionally an exponent, an `e` or `E` with an optional sign and
at least one digit.  There is at least one digit before the exponent, on either side of the
point.  Only the ten ASCII digits count as digits.

Reading keeps the exact value; rounding is a separate step on the decimal that was read.
-/

namespace LSystem

/-- A signed decimal number as written. -/
structure Numeral where
  negative : Bool
  magnitude : Decimal
deriving DecidableEq, Repr, Inhabited

namespace Numeral

/-- Splits an optional sign off a text; the flag tells whether it was a minus. -/
def splitSign : List Char → Bool × List Char
  | '-' :: rest => (true, rest)
  | '+' :: rest => (false, rest)
  | cs => (false, cs)

/-- Splits the leading digits off a text. -/
def splitDigits (cs : List Char) : List Char × List Char :=
  (cs.takeWhile Char.isDigit, cs.dropWhile Char.isDigit)

/-- Splits a point and the digits after it off a text; without a point there is no digit. -/
def splitFraction : List Char → List Char × List Char
  | '.' :: rest => splitDigits rest
  | cs => ([], cs)

/-- The exponent that fills a whole text; the empty text stands for the exponent zero. -/
def exponent? : List Char → Option Int
  | [] => some 0
  | mark :: rest =>
    let (negative, ds) := splitSign rest
    if (mark = 'e' ∨ mark = 'E') ∧ ds ≠ [] ∧ ds.all Char.isDigit then
      let n : Int := Decimal.ofDigits ds
      some (if negative then -n else n)
    else none

/-- Reads a text that is a numeral as a whole. -/
def read? (text : List Char) : Option Numeral :=
  let (negative, unsigned) := splitSign text
  let (whole, rest) := splitDigits unsigned
  let (fraction, rest) := splitFraction rest
  if whole = [] ∧ fraction = [] then none
  else (exponent? rest).map fun e =>
    { negative, magnitude := ⟨Decimal.ofDigits (whole ++ fraction), e - fraction.length⟩ }

/-- The double nearest to a numeral. -/
def toFloat (n : Numeral) : Float :=
  if n.negative then -n.magnitude.toFloat else n.magnitude.toFloat

/-- A text that begins with a digit has no sign. -/
theorem splitSign_of_isDigit {cs : List Char} (hcs : ∀ c ∈ cs.head?, c.isDigit) :
    splitSign cs = (false, cs) := by
  fun_cases splitSign cs with
  | case1 | case2 => exact absurd (hcs _ rfl) (by decide)
  | case3 => rfl

/-- The leading digits and the rest make up the text. -/
theorem splitDigits_append (cs : List Char) :
    (splitDigits cs).1 ++ (splitDigits cs).2 = cs :=
  List.takeWhile_append_dropWhile

/-- The digits split off are digits. -/
theorem isDigit_of_mem_splitDigits {cs : List Char} {c : Char} (h : c ∈ (splitDigits cs).1) :
    c.isDigit :=
  List.all_eq_true.mp (List.all_takeWhile) c h

/-- Digits are split off as far as they go. -/
theorem splitDigits_of_digits {ds rest : List Char} (hds : ∀ d ∈ ds, d.isDigit)
    (hrest : ∀ c ∈ rest.head?, c.isDigit = false) : splitDigits (ds ++ rest) = (ds, rest) := by
  rw [splitDigits, List.takeWhile_append_of_pos hds, List.dropWhile_append_of_pos hds]
  cases rest with
  | nil => rw [List.takeWhile_nil, List.dropWhile_nil, List.append_nil]
  | cons c rest =>
    have hc : ¬c.isDigit := by simpa using hrest c rfl
    rw [List.takeWhile_cons_of_neg hc, List.dropWhile_cons_of_neg hc, List.append_nil]

end Numeral

end LSystem
