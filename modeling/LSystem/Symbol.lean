/-!
# Symbols and sequences

A Lindenmayer system develops a sequence of symbols by replacing each of them.  A symbol is one
character: it has no inner structure, and both rules and turtle actions are looked up by it.  A
sequence is a list of symbols, so that laws about concatenation are laws of lists.
-/

namespace LSystem

/-- An atomic letter of the alphabet. -/
abbrev Symbol := Char

/-- An ordered run of symbols; every generation of an expansion is one. -/
abbrev Sequence := List Symbol

/-- Reads a text as a sequence, one symbol per character. -/
def Sequence.ofString (text : String) : Sequence := text.toList

/-- Writes a sequence as a text, one character per symbol. -/
def Sequence.text (s : Sequence) : String := String.ofList s

@[simp] theorem Sequence.ofString_text (s : Sequence) : ofString s.text = s :=
  String.toList_ofList

@[simp] theorem Sequence.text_ofString (text : String) : (ofString text).text = text :=
  String.ofList_toList

@[simp] theorem Sequence.ofString_append (s t : String) :
    ofString (s ++ t) = ofString s ++ ofString t :=
  String.toList_append

end LSystem
