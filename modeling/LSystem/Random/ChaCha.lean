/-!
# The ChaCha keystream

The source of randomness is the keystream of the ChaCha block function with eight rounds.  A
block is a pure function of a key and a counter: a matrix of four rows of four words is filled
with constants, the key, the counter and zeros, scrambled by four double rounds, and added to
what it was filled with.  Successive counters give successive blocks of sixteen words.

A double round works on columns and then on diagonals.  Both are the same step on whole rows: to
work on diagonals, the rows are shifted until each diagonal is a column, and shifted back.

## Seeding

The key of 256 bits is filled from a seed of 64 bits by a linear congruential generator of which
only a scrambled half of each state is used.
-/

namespace LSystem.ChaCha

/-! ## Rows and rounds -/

/-- Four words of the matrix. -/
structure Row where
  w0 : UInt32
  w1 : UInt32
  w2 : UInt32
  w3 : UInt32
deriving DecidableEq, Repr, Inhabited

namespace Row

/-- Lane by lane sum. -/
def add (x y : Row) : Row := ⟨x.w0 + y.w0, x.w1 + y.w1, x.w2 + y.w2, x.w3 + y.w3⟩

/-- Each lane of the exclusive or, rotated left by `n` bits. -/
def mixRotate (n : UInt32) (x y : Row) : Row :=
  let lane := fun (a b : UInt32) => ((a ^^^ b) <<< n) ||| ((a ^^^ b) >>> (32 - n))
  ⟨lane x.w0 y.w0, lane x.w1 y.w1, lane x.w2 y.w2, lane x.w3 y.w3⟩

/-- The row moved by one lane, the first word coming last. -/
def turn (x : Row) : Row := ⟨x.w1, x.w2, x.w3, x.w0⟩

/-- The words in order. -/
def toList (x : Row) : List UInt32 := [x.w0, x.w1, x.w2, x.w3]

/-- Four turns bring every word back. -/
@[simp] theorem turn_turn_turn_turn (x : Row) : x.turn.turn.turn.turn = x := rfl

end Row

/-- The matrix of a block. -/
structure Matrix where
  r0 : Row
  r1 : Row
  r2 : Row
  r3 : Row
deriving DecidableEq, Repr, Inhabited

namespace Matrix

/-- The quarter round on all four columns. -/
def columnRound (m : Matrix) : Matrix :=
  let a := m.r0.add m.r1
  let d := m.r3.mixRotate 16 a
  let c := m.r2.add d
  let b := m.r1.mixRotate 12 c
  let a := a.add b
  let d := d.mixRotate 8 a
  let c := c.add d
  let b := b.mixRotate 7 c
  ⟨a, b, c, d⟩

/-- Makes each diagonal a column. -/
def straighten (m : Matrix) : Matrix := ⟨m.r0, m.r1.turn, m.r2.turn.turn, m.r3.turn.turn.turn⟩

/-- Makes each column a diagonal. -/
def slant (m : Matrix) : Matrix := ⟨m.r0, m.r1.turn.turn.turn, m.r2.turn.turn, m.r3.turn⟩

/-- A round on the columns and one on the diagonals. -/
def doubleRound (m : Matrix) : Matrix := m.columnRound.straighten.columnRound.slant

/-- Sum of two matrices, word by word. -/
def add (x y : Matrix) : Matrix :=
  ⟨x.r0.add y.r0, x.r1.add y.r1, x.r2.add y.r2, x.r3.add y.r3⟩

/-- The words, row by row. -/
def toList (m : Matrix) : List UInt32 :=
  m.r0.toList ++ m.r1.toList ++ m.r2.toList ++ m.r3.toList

@[simp] theorem slant_straighten (m : Matrix) : m.straighten.slant = m := rfl

end Matrix

/-! ## Keystream -/

/-- The eight words of a key. -/
structure Key where
  low : Row
  high : Row
deriving DecidableEq, Repr, Inhabited

/-- The block of a key at a counter, after eight rounds; the stream number is zero. -/
def block (key : Key) (counter : UInt64) : Matrix :=
  let start : Matrix :=
    { r0 := ⟨0x61707865, 0x3320646E, 0x79622D32, 0x6B206574⟩
      r1 := key.low
      r2 := key.high
      r3 := ⟨counter.toUInt32, (counter >>> 32).toUInt32, 0, 0⟩ }
  start.doubleRound.doubleRound.doubleRound.doubleRound.add start

/-- The number of 64-bit words that a block yields. -/
def drawsPerBlock : Nat := 8

/-- The 64-bit word of the keystream at an index: two successive words, the lower half first. -/
def keystream (key : Key) (index : Nat) : UInt64 :=
  let words := (block key (.ofNat (index / drawsPerBlock))).toList
  let at32 := fun i => (words.getD i 0).toUInt64
  let first := 2 * (index % drawsPerBlock)
  at32 first ||| (at32 (first + 1) <<< 32)

/-! ## Seeding -/

/-- The next state of the generator that fills a key. -/
def seedStep (state : UInt64) : UInt64 := state * 6364136223846793005 + 11634580027462260723

/-- The word of a key that a state yields. -/
def seedWord (state : UInt64) : UInt32 :=
  let x := (((state >>> 18) ^^^ state) >>> 27).toUInt32
  let n := (state >>> 59).toUInt32
  (x >>> n) ||| (x <<< ((32 - n) % 32))

/-- Four successive words of a key and the state after them. -/
def seedRow (s : UInt64) : Row × UInt64 :=
  let s0 := seedStep s
  let s1 := seedStep s0
  let s2 := seedStep s1
  let s3 := seedStep s2
  (⟨seedWord s0, seedWord s1, seedWord s2, seedWord s3⟩, s3)

/-- The key that a seed stands for. -/
def keyOfSeed (seed : UInt64) : Key :=
  let (low, s) := seedRow seed
  let (high, _) := seedRow s
  ⟨low, high⟩

end LSystem.ChaCha
