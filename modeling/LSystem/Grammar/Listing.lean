import LSystem.Grammar.Production

/-!
# Rule listings

A listing is a text with one production per line.  Blank lines, and lines whose first character
after the blanks is `#`, are skipped, but they count: a fault is reported with the number of its
line in the whole text, the first line having the number one.
-/

namespace LSystem

namespace Listing

/-- Whether a trimmed line holds no production: it is empty or a comment. -/
def isSkipped : List Char → Bool
  | [] => true
  | c :: _ => c = '#'

/-- The trimmed lines of a text, each with its number. -/
def numberedLines (text : String) : List (List Char × Nat) :=
  ((text.toList.splitOn '\n').map Text.trim).zipIdx 1

/-- Reads the production on one line. -/
def readLine (line : List Char × Nat) : Except GrammarError Production :=
  (Production.read (String.ofList line.1)).mapError (.atLine line.2)

/-- Reads the productions of a listing, in order; the first line at fault is reported. -/
def read (text : String) : Except GrammarError (List Production) :=
  ((numberedLines text).filter fun line => !isSkipped line.1).mapM readLine

end Listing

end LSystem
