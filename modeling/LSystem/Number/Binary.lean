import LSystem.Number.Power

/-!
# Binary magnitudes

A finite floating-point number is, up to its sign, a natural significand times a power of two.
`Binary` is that exact value, decoded from the bit fields of a double or a single.  Both
directions between the two formats go through it: a single is widened to a double exactly, and a
double, or any other exact value, is narrowed to the nearest single.

## Narrowing

The significand of a single has 24 bits, and the smallest step of the format is `2 ^ -149`.  So
the unit of the result is `2 ^ e`, with `e` the larger of `-149` and the place 23 bits under the
leading bit; the value is divided by this unit and rounded to a natural number, a tie going to
the even one.  The bit pattern is then one sum, in which a significand that rounds up to `2 ^ 24`
carries into the exponent field by itself.

Widening is exact, because a double has room for every significand and exponent of a single,
the smallest included.  Hence narrowing a widened number gives the number back.
-/

namespace LSystem

/-- The number `significand · 2 ^ exponent`. -/
structure Binary where
  significand : Nat
  exponent : Int
deriving DecidableEq, Repr, Inhabited

namespace Binary

/-! ## Decoding -/

/-- The magnitude of a finite double. -/
def ofFloat (x : Float) : Binary :=
  let fields : Nat := x.toBits.toNat % twoPow 63
  let biased : Nat := fields / twoPow 52
  let fraction : Nat := fields % twoPow 52
  if biased = 0 then ⟨fraction, -1074⟩ else ⟨twoPow 52 + fraction, biased - 1075⟩

/-- The magnitude of a finite single. -/
def ofSingle (x : Float32) : Binary :=
  let fields : Nat := x.toBits.toNat % twoPow 31
  let biased : Nat := fields / twoPow 23
  let fraction : Nat := fields % twoPow 23
  if biased = 0 then ⟨fraction, -149⟩ else ⟨twoPow 23 + fraction, biased - 150⟩

/-! ## Rounding -/

/-- The natural number nearest to `n / d`; of two equally near ones the even one. -/
def roundDiv (n d : Nat) : Nat :=
  let q := n / d
  let r := n % d
  if 2 * r < d ∨ (2 * r = d ∧ q % 2 = 0) then q else q + 1

@[simp] theorem roundDiv_one (n : Nat) : roundDiv n 1 = n := by
  simp [roundDiv, Nat.mod_one]

/-- An exact quotient is not rounded. -/
theorem roundDiv_mul_right (n : Nat) {d : Nat} (hd : 0 < d) : roundDiv (n * d) d = n := by
  simp [roundDiv, Nat.mul_div_cancel n hd, hd]

/-- The exponent of the unit to which a nonzero magnitude is rounded in the single format. -/
def singleUnit (b : Binary) : Int := max (b.significand.log2 + b.exponent - 23) (-149)

/-- The magnitude in units of its last place in the single format, rounded. -/
def singleSignificand (b : Binary) : Nat :=
  let shift := b.exponent - b.singleUnit
  roundDiv (b.significand * twoPow shift.toNat) (twoPow (-shift).toNat)

/-- The bits of the single nearest to a magnitude, infinity when it is out of range. -/
def singleBits (b : Binary) : Nat :=
  if b.significand = 0 then 0
  else min (b.singleSignificand + (b.singleUnit + 149).toNat * twoPow 23) 0x7F800000

/-- The single nearest to a magnitude with a sign. -/
def toSingle (negative : Bool) (b : Binary) : Float32 :=
  Float32.ofBits (.ofNat (b.singleBits + if negative then twoPow 31 else 0))

/-- The bits of a magnitude of at most 53 significant bits in the double format, for magnitudes
within the exponents of its normal numbers. -/
def doubleBits (b : Binary) : Nat :=
  let width := b.significand.log2
  if b.significand = 0 then 0
  else b.significand * twoPow (52 - width) + (b.exponent + width + 1022).toNat * twoPow 52

end Binary

/-! ## The two formats -/

namespace Single

/-- The double equal to a single. -/
def widen (x : Float32) : Float :=
  if x.isNaN then Float.ofBits 0x7FF8000000000000
  else
    let magnitude := if x.isInf then 0x7FF0000000000000 else (Binary.ofSingle x).doubleBits
    Float.ofBits (.ofNat (magnitude + if x.toBits.toNat < twoPow 31 then 0 else twoPow 63))

/-- The single nearest to a double. -/
def narrow (x : Float) : Float32 :=
  let negative := decide (twoPow 63 ≤ x.toBits.toNat)
  if x.isNaN then Float32.ofBits 0x7FC00000
  else if x.isInf then Float32.ofBits (if negative then 0xFF800000 else 0x7F800000)
  else (Binary.ofFloat x).toSingle negative

/-- The single nearest to an integer. -/
def ofInt (n : Int) : Float32 := Binary.toSingle (decide (n < 0)) ⟨n.natAbs, 0⟩

end Single

end LSystem
