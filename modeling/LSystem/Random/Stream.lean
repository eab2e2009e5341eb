import LSystem.Number.Power
import LSystem.Random.ChaCha

/-!
# Draw streams

Every random choice takes a draw of 64 bits from a stream.  A stream is data: the function from
indices to draws, how many of them it offers, and how many were taken.  Taking a draw gives the
stream with the position moved by one, so two computations use the same randomness exactly when
they start at the same stream, and what a computation consumed is the difference of two
positions.

A stream that is used up offers the draw zero.  The keystream of ChaCha ends after its block
counter has run through all its values; a script ends with its list.

## Drawing below a bound

The upper 52 bits of a draw are scaled to `[0, 1)` and multiplied by the bound.  The product can
round up to the bound itself when the bound is subnormal; such a draw is rejected and the next
one taken.  The stream that is used up ends this search.
-/

namespace LSystem

/-- A source of draws and the position reached in it. -/
structure DrawStream where
  /-- The draw at an index, meaningful below the length. -/
  draws : Nat → UInt64
  length : Nat
  /-- The number of draws taken so far. -/
  position : Nat

namespace DrawStream

/-! ## Sources -/

/-- The seed of a stream for which none is given. -/
def defaultSeed : UInt64 := 0x5EED1D

/-- The ChaCha keystream of a seed. -/
def seeded (seed : UInt64) : DrawStream :=
  { draws := ChaCha.keystream (ChaCha.keyOfSeed seed)
    length := wordCount * ChaCha.drawsPerBlock
    position := 0 }

/-- The draws of a list, in order. -/
def ofList (draws : List UInt64) : DrawStream :=
  let table := draws.toArray
  { draws := fun i => table.getD i 0, length := draws.length, position := 0 }

/-! ## Taking draws -/

/-- The draw that is taken next. -/
def peek (s : DrawStream) : UInt64 :=
  if s.position < s.length then s.draws s.position else 0

/-- The stream after one more draw. -/
def advance (s : DrawStream) : DrawStream := { s with position := s.position + 1 }

@[simp] theorem position_advance (s : DrawStream) : s.advance.position = s.position + 1 := rfl

@[simp] theorem length_advance (s : DrawStream) : s.advance.length = s.length := rfl

@[simp] theorem draws_advance (s : DrawStream) : s.advance.draws = s.draws := rfl

/-! ## Drawing below a bound -/

/-- The number in `[0, 1)` made of the upper 52 bits of a draw. -/
def fraction (draw : UInt64) : Float :=
  (draw >>> 12).toFloat * Float.ofBits 0x3CB0000000000000

/-- A draw scaled to a bound. -/
def scale (total : Float) (draw : UInt64) : Float := fraction draw * total + 0.0

/-- The first scaled draw below the bound, and the stream after it. -/
def below (total : Float) (s : DrawStream) : Float × DrawStream :=
  let value := scale total s.peek
  if value < total then (value, s.advance)
  else if s.position < s.length then below total s.advance
  else (value, s.advance)
termination_by s.length - s.position

end DrawStream

end LSystem
