/-!
# Blank characters, words and trimming

Rule texts are laid out with blanks, and a blank is any character with the Unicode property
`White_Space`: the ASCII blanks, and also the no-break space, the ideographic space and the other
spaces of the standard.  This module holds that property as a table of ranges, and the two ways a
text is cut by it: trimming at both ends, and splitting into words.

Everything works on lists of characters.  A word is a nonempty run without blanks, found by
cutting at every blank and dropping the empty pieces, so no position in the text is ever counted.
-/

namespace LSystem.Text

/-! ## The property -/

/-- The code points with the property `White_Space`, as closed ranges in ascending order. -/
def blankRanges : List (Nat × Nat) :=
  [(0x9, 0xD), (0x20, 0x20), (0x85, 0x85), (0xA0, 0xA0), (0x1680, 0x1680), (0x2000, 0x200A),
    (0x2028, 0x2029), (0x202F, 0x202F), (0x205F, 0x205F), (0x3000, 0x3000)]

/-- Whether a character is blank. -/
def isBlank (c : Char) : Bool :=
  blankRanges.any fun (first, last) => first ≤ c.toNat && c.toNat ≤ last

/-- Every blank of the ASCII class is one of this property. -/
theorem isBlank_of_isWhitespace {c : Char} (h : c.isWhitespace) : isBlank c := by
  simp only [Char.isWhitespace, Bool.or_eq_true, decide_eq_true_eq] at h
  rcases h with ((rfl | rfl) | rfl) | rfl <;> decide

/-! ## Cutting a text at its blanks -/

/-- The text without its leading blanks. -/
def trimStart (cs : List Char) : List Char := cs.dropWhile isBlank

/-- The text without its trailing blanks. -/
def trimEnd (cs : List Char) : List Char := (cs.reverse.dropWhile isBlank).reverse

/-- The text without its leading and trailing blanks. -/
def trim (cs : List Char) : List Char := trimEnd (trimStart cs)

/-- The maximal runs without blanks, in order. -/
def words (cs : List Char) : List (List Char) :=
  (cs.splitOnP isBlank).filter (!·.isEmpty)

@[simp] theorem trim_nil : trim [] = [] := rfl

@[simp] theorem words_nil : words [] = [] := rfl

/-- A word is never empty. -/
theorem ne_nil_of_mem_words {w cs : List Char} (h : w ∈ words cs) : w ≠ [] := by
  simpa using (List.mem_filter.mp h).2

end LSystem.Text
