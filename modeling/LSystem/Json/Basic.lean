import LSystem.Number.Binary

/-!
# JSON trees

Values are saved as JSON trees.  A tree distinguishes integers from real numbers, because an
integer may stand for a real number but not the other way round, and it keeps the fields of an
object as a list, because a field that is given twice is a fault in some places and overrides in
others.

A text can be well-formed and still contain something with no value: a number outside the range
of a double, or a string with half a surrogate pair.  Such a place is an `unreadable` node.  It is
harmless where nobody looks, and no value is ever decoded from it.

## Numbers and points

A single is written as the double equal to it.  A number that is not finite has no JSON form and
is written as null, from which no number is read back.
-/

namespace LSystem

/-- A JSON value. -/
inductive Json where
  | null
  | bool (b : Bool)
  | integer (n : Int)
  | real (x : Float)
  | string (s : String)
  | array (items : List Json)
  | object (fields : List (String × Json))
  /-- Well-formed text without a value. -/
  | unreadable
deriving Repr, Inhabited

namespace Json

/-! ## Fields -/

/-- The value of a field that is given exactly once. -/
def field? (fields : List (String × Json)) (name : String) : Option Json :=
  match fields.filter fun f => f.1 = name with
  | [f] => some f.2
  | _ => none

/-- The values of a record with the given fields.  A record is an object that has each of them
once, and perhaps others, or an array of exactly their values in order. -/
def record? (names : List String) : Json → Option (List Json)
  | object fields => names.mapM (field? fields)
  | array items => if items.length = names.length then some items else none
  | _ => none

/-! ## Leaves -/

/-- The tree of a single. -/
def ofSingle (x : Float32) : Json := if x.isFinite then real (Single.widen x) else null

/-- The single nearest to the number of a tree. -/
def single? : Json → Option Float32
  | integer n => some (Single.ofInt n)
  | real x => some (Single.narrow x)
  | _ => none

/-- The tree of a count. -/
def ofNat (n : Nat) : Json := integer n

/-- The count of a tree, which has to fit a machine word. -/
def nat? : Json → Option Nat
  | integer n => if 0 ≤ n ∧ n.toNat < wordCount then some n.toNat else none
  | _ => none

/-- The string of a tree. -/
def string? : Json → Option String
  | string s => some s
  | _ => none

/-! ## Lists -/

/-- The tree of a list. -/
def ofList {α : Type} (encode : α → Json) (items : List α) : Json := array (items.map encode)

/-- The list of a tree, all of whose items have to be readable. -/
def list? {α : Type} (decode : Json → Option α) : Json → Option (List α)
  | array items => items.mapM decode
  | _ => none

@[simp] theorem string?_string (s : String) : (string s).string? = some s := rfl

@[simp] theorem single?_null : null.single? = none := rfl

theorem nat?_ofNat {n : Nat} (h : n < wordCount) : (ofNat n).nat? = some n := by
  have hn : (0 : Int) ≤ n ∧ (n : Int).toNat < wordCount := ⟨Int.natCast_nonneg n, h⟩
  rw [ofNat, nat?, if_pos hn, Int.toNat_natCast]

end Json

end LSystem
