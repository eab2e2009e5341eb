import LSystem.Json.Basic
import LSystem.Turtle.ActionTable

/-!
# Saving actions and action tables

An action is saved as its tag: the bare tag where nothing else is to be said, and otherwise an
object with the tag as its single field and the content as its value.  A bare tag may also be
read as such an object with the value null.  The distance of a step is optional, and its absence
is the value null.

A table is saved as a record with the single field `actions`, an object that has a field for each
bound symbol.  If a symbol occurs twice, the last action counts, but all have to be readable.

## Nesting

Trees are read to a limited depth: at most `nestingLimit` containers may enclose one another on
the way to a value.  Reading an action is by recursion on the room that is left.  An action in an
object takes one container; combining takes a second, and custom commands take one for their
record and one more for the list of parameters.
-/

namespace LSystem

/-- How many containers may enclose one another. -/
def nestingLimit : Nat := 127

/-! ## Actions -/

/-- The tree of an optional distance. -/
def distanceToJson : Option Float32 → Json
  | none => .null
  | some x => .ofSingle x

/-- The optional distance of a tree. -/
def distanceOfJson? : Json → Option (Option Float32)
  | .null => some none
  | j => j.single?.map some

/-- The tree of a command. -/
def Command.toJson : Command → Json
  | forward distance => .object [("Forward", distanceToJson distance)]
  | move distance => .object [("Move", distanceToJson distance)]
  | rotate angle => .object [("Rotate", .ofSingle angle)]
  | turnAround => .string "TurnAround"
  | push => .string "Push"
  | pop => .string "Pop"
  | custom name params =>
    .object [("Custom", .object [("name", .string name), ("params", .ofList .ofSingle params)])]

mutual

/-- The tree of an action. -/
def Action.toJson : Action → Json
  | .command c => c.toJson
  | .combine parts => .object [("Combine", .array (Action.listToJson parts))]

/-- The trees of several actions. -/
def Action.listToJson : List Action → List Json
  | [] => []
  | a :: rest => a.toJson :: Action.listToJson rest

end

theorem Action.listToJson_eq_map (parts : List Action) :
    Action.listToJson parts = parts.map Action.toJson := by
  induction parts with
  | nil => rfl
  | cons a rest ih => rw [Action.listToJson, List.map_cons, ih]

/-- The command of a bare tag. -/
def Command.ofTag? (tag : String) : Option Command :=
  if tag = "TurnAround" then some .turnAround
  else if tag = "Push" then some .push
  else if tag = "Pop" then some .pop
  else none

/-- The custom command of a tree, the containers inside of which have the given room. -/
def Command.customOfJson? (room : Nat) (j : Json) : Option Command := do
  let [name, params] ← j.record? ["name", "params"] | none
  if 2 ≤ room then
    return .custom (← name.string?) (← params.list? Json.single?)
  else none

/-- The action of a tree, the containers of which have the given room. -/
def Action.ofJson? : Nat → Json → Option Action
  | _, .string tag => (Command.ofTag? tag).map .command
  | room + 1, .object [(tag, content)] =>
    if tag = "Forward" then (distanceOfJson? content).map fun d => .command (.forward d)
    else if tag = "Move" then (distanceOfJson? content).map fun d => .command (.move d)
    else if tag = "Rotate" then content.single?.map fun a => .command (.rotate a)
    else if tag = "Custom" then (Command.customOfJson? room content).map .command
    else if tag = "Combine" then
      match room, content with
      | room + 1, .array items => (items.mapM (Action.ofJson? room)).map .combine
      | _, _ => none
    else
      match content with
      | .null => (Command.ofTag? tag).map .command
      | _ => none
  | _, _ => none

/-! ## Tables -/

/-- The symbol that is the whole of a string. -/
def symbolOfKey? (key : String) : Option Symbol :=
  match key.toList with
  | [c] => some c
  | _ => none

/-- The tree of a table. -/
def ActionTable.toJson (table : ActionTable) : Json :=
  .object [("actions", .object (table.toList.map fun (c, a) => (c.toString, a.toJson)))]

/-- The binding of a field, the containers of its value having the given room. -/
def ActionTable.bindingOfField? (room : Nat) (field : String × Json) :
    Option (Symbol × Action) := do
  return (← symbolOfKey? field.1, ← Action.ofJson? room field.2)

/-- The table of a tree. -/
def ActionTable.ofJson? (j : Json) : Option ActionTable := do
  let [.object fields] ← j.record? ["actions"] | none
  return .ofList (← fields.mapM (bindingOfField? (nestingLimit - 2)))

end LSystem
