import LSystem.Codec.Action
import LSystem.Proofs.Json.Tree

/-!
# What is read back from actions and tables

Most numbers of an action have to be finite for it to be read back: an angle or a parameter that is
not is saved as null, and null is no number.  Distances are different.  The null of a distance is
also what an absent distance is saved as, and so a step whose distance is not finite is read back as
a step without a distance (`Command.reread`).

`Action.reads` and `ActionTable.reads` are the exact laws, and `reload_differs_iff` draws the
consequence: what is read back can be a different action, namely if some distance is not finite and
nothing else stands in the way.
-/

namespace LSystem

open Json

/-! ## Numbers of commands and actions -/

namespace Command

/-- The distance of a step, if there is one. -/
def distances : Command → List Float32
  | forward distance => distance.toList
  | move distance => distance.toList
  | _ => []

/-- The numbers of a command that are no distances. -/
def operands : Command → List Float32
  | rotate angle => [angle]
  | custom _ params => params
  | _ => []

/-- A command as it is read back: a distance that is not finite counts as absent. -/
def reread : Command → Command
  | forward distance => forward (distance.filter Float32.isFinite)
  | move distance => move (distance.filter Float32.isFinite)
  | c => c

end Command

lemma filter_isFinite_eq_self_iff (distance : Option Float32) :
    distance.filter Float32.isFinite = distance ↔ AllFinite distance.toList := by
  cases distance with
  | none => simp
  | some x => simp [Option.filter_eq_some_iff]

lemma Command.reread_eq_self_iff (c : Command) : c.reread = c ↔ AllFinite c.distances := by
  cases c with
  | forward distance =>
    rw [reread, forward.injEq]
    exact filter_isFinite_eq_self_iff distance
  | move distance =>
    rw [reread, move.injEq]
    exact filter_isFinite_eq_self_iff distance
  | _ => exact iff_of_true rfl allFinite_nil

namespace Action

/-- What holds of commands, and of several actions in order if it holds of each, holds of all
actions. -/
@[elab_as_elim] theorem induction {motive : Action → Prop} (command : ∀ c, motive (command c))
    (combine : ∀ parts, (∀ a ∈ parts, motive a) → motive (combine parts)) (a : Action) :
    motive a :=
  @Action.rec motive (fun parts => ∀ a ∈ parts, motive a) command combine
    (List.forall_mem_nil _) (fun _ _ ha hrest => List.forall_mem_cons.mpr ⟨ha, hrest⟩) a

mutual

/-- Changes each command of an action. -/
def mapCommands (f : Command → Command) : Action → Action
  | command c => command (f c)
  | combine parts => combine (mapCommandsOfAll f parts)

/-- Changes each command of several actions. -/
def mapCommandsOfAll (f : Command → Command) : List Action → List Action
  | [] => []
  | a :: rest => a.mapCommands f :: mapCommandsOfAll f rest

end

lemma mapCommands_combine (f : Command → Command) (parts : List Action) :
    (combine parts).mapCommands f = combine (parts.map (mapCommands f)) := by
  have hall : ∀ parts, mapCommandsOfAll f parts = parts.map (mapCommands f) := by
    intro parts
    induction parts with
    | nil => rfl
    | cons a rest ih => rw [mapCommandsOfAll, ih, List.map_cons]
  rw [mapCommands, hall]

lemma mapCommands_eq_self_iff {f : Command → Command} {a : Action} :
    a.mapCommands f = a ↔ ∀ c ∈ a.commands, f c = c := by
  induction a using Action.induction with
  | command c => simp [mapCommands]
  | combine parts ih =>
    have hparts : parts.map (mapCommands f) = parts ↔ ∀ a ∈ parts, a.mapCommands f = a := by
      have hinj := @List.map_inj_left _ _ parts (mapCommands f) fun a => a
      rwa [List.map_id'] at hinj
    rw [mapCommands_combine, combine.injEq, commands_combine, List.forall_mem_flatMap, hparts]
    exact forall₂_congr ih

/-- The distances in an action. -/
def distances (a : Action) : List Float32 := a.commands.flatMap Command.distances

/-- The numbers in an action that are no distances. -/
def operands (a : Action) : List Float32 := a.commands.flatMap Command.operands

end Action

/-! ## Actions -/

lemma reads_distance (distance : Option Float32) :
    Reads (distanceOfJson? (distanceToJson distance)) True
      (distance.filter Float32.isFinite) := by
  cases distance with
  | none => exact .some none
  | some x =>
    rw [distanceToJson, ofSingle]
    by_cases h : x.isFinite
    · have hread : Reads ((ofSingle x).single?.map some) x.isFinite (some x) :=
        (reads_single x).map some
      rw [ofSingle, if_pos h] at hread
      rw [if_pos h, Option.filter_some, if_pos h]
      exact hread.congr (iff_of_true h trivial)
    · rw [if_neg h, Option.filter_some, if_neg h]
      exact .some none

lemma nesting_distanceToJson (distance : Option Float32) :
    (distanceToJson distance).nesting = 0 := by
  cases distance with
  | none => rfl
  | some x => exact nesting_ofSingle x

/-! ### What the reader does with each tag -/

namespace Action

lemma ofJson?_string (room : Nat) (tag : String) :
    ofJson? room (.string tag) = (Command.ofTag? tag).map .command := by
  unfold ofJson?
  rfl

section

variable (room : Nat) (content : Json)

lemma ofJson?_zero (tag : String) : ofJson? 0 (.object [(tag, content)]) = none := by
  unfold ofJson?
  rfl

lemma ofJson?_forward : ofJson? (room + 1) (.object [("Forward", content)]) =
    (distanceOfJson? content).map fun d => .command (.forward d) := by
  unfold ofJson?
  rfl

lemma ofJson?_move : ofJson? (room + 1) (.object [("Move", content)]) =
    (distanceOfJson? content).map fun d => .command (.move d) := by
  unfold ofJson?
  rfl

lemma ofJson?_rotate : ofJson? (room + 1) (.object [("Rotate", content)]) =
    content.single?.map fun x => .command (.rotate x) := by
  unfold ofJson?
  rfl

lemma ofJson?_custom : ofJson? (room + 1) (.object [("Custom", content)]) =
    (Command.customOfJson? room content).map .command := by
  unfold ofJson?
  rfl

end

end Action

lemma Command.customOfJson?_record (room : Nat) (name : String) (params : List Float32) :
    customOfJson? room (.object [("name", .string name), ("params", .ofList .ofSingle params)]) =
      if 2 ≤ room then ((Json.ofList .ofSingle params).list? Json.single?).map (custom name)
      else none := by
  rw [Option.map_eq_bind]
  rfl

/-! ### Commands -/

lemma Command.nesting_custom (name : String) (params : List Float32) :
    (custom name params).toJson.nesting = 3 := by
  have hparams : nestingOfItems (params.map ofSingle) = 0 := by
    induction params with
    | nil => rfl
    | cons x params ih => rw [List.map_cons, nestingOfItems, nesting_ofSingle, ih, Nat.max_self]
  simp [toJson, ofList, nesting, nestingOfFields, hparams]

lemma Command.reads_custom (name : String) (params : List Float32) (room : Nat) :
    Reads (Action.ofJson? room (custom name params).toJson)
      (AllFinite params ∧ 3 ≤ room) (.command (custom name params)) := by
  cases room with
  | zero => exact .none fun h => absurd h.2 (by decide)
  | succ room =>
    rw [toJson, Action.ofJson?_custom, customOfJson?_record]
    by_cases hroom : 2 ≤ room
    · have hread := ((reads_list fun x (_ : x ∈ params) => reads_single x).map (custom name)).map
        Action.command
      rw [List.map_id'] at hread
      rw [if_pos hroom]
      exact hread.congr (and_iff_left (Nat.succ_le_succ hroom)).symm
    · rw [if_neg hroom]
      exact .none fun h => hroom (Nat.le_of_succ_le_succ h.2)

/-- A tag with a leaf is read wherever there is room for a container. -/
lemma Action.reads_leaf {tag : String} {content : Json} {P : Prop} {a : Action}
    (hcontent : content.nesting = 0)
    (h : ∀ room, Reads (ofJson? (room + 1) (.object [(tag, content)])) P a) (room : Nat) :
    Reads (ofJson? room (.object [(tag, content)]))
      (P ∧ nesting (.object [(tag, content)]) ≤ room) a := by
  have hnesting : nesting (.object [(tag, content)]) = 1 := by
    simp [nesting, nestingOfFields, hcontent]
  rw [hnesting]
  cases room with
  | zero =>
    rw [ofJson?_zero]
    exact .none fun h => absurd h.2 (by decide)
  | succ room => exact (h room).congr (and_iff_left (Nat.succ_pos room)).symm

lemma Command.reads (c : Command) (room : Nat) :
    Reads (Action.ofJson? room c.toJson) (AllFinite c.operands ∧ c.toJson.nesting ≤ room)
      (.command c.reread) := by
  cases c with
  | forward distance =>
    refine Action.reads_leaf (nesting_distanceToJson distance) (fun room => ?_) room
    rw [Action.ofJson?_forward]
    exact ((reads_distance distance).map _).congr (iff_of_true trivial allFinite_nil)
  | move distance =>
    refine Action.reads_leaf (nesting_distanceToJson distance) (fun room => ?_) room
    rw [Action.ofJson?_move]
    exact ((reads_distance distance).map _).congr (iff_of_true trivial allFinite_nil)
  | rotate angle =>
    refine Action.reads_leaf (nesting_ofSingle angle) (fun room => ?_) room
    rw [Action.ofJson?_rotate]
    exact ((reads_single angle).map _).congr (by simp [operands])
  | custom name params =>
    rw [nesting_custom]
    exact reads_custom name params room
  | turnAround | push | pop =>
    rw [toJson, Action.ofJson?_string]
    exact (Reads.some _).congr (iff_of_true trivial ⟨allFinite_nil, Nat.zero_le _⟩)

/-! ### Actions -/

namespace Action

lemma nesting_combine_le_iff {parts : List Action} {n : Nat} :
    (combine parts).toJson.nesting ≤ n + 2 ↔ ∀ a ∈ parts, a.toJson.nesting ≤ n := by
  rw [toJson, nesting_object_le_iff, List.forall_mem_singleton, nesting_array_le_iff,
    listToJson_eq_map, List.forall_mem_map]

lemma operands_combine (parts : List Action) :
    (combine parts).operands = parts.flatMap operands := by
  rw [operands, commands_combine, List.flatMap_assoc]
  rfl

/-- An action is read back if its numbers other than distances are finite and there is room for its
containers. -/
lemma reads (a : Action) (room : Nat) :
    Reads (ofJson? room a.toJson) (AllFinite a.operands ∧ a.toJson.nesting ≤ room)
      (a.mapCommands Command.reread) := by
  induction a using Action.induction generalizing room with
  | command c =>
    have hoperands : (command c).operands = c.operands := List.append_nil _
    rw [hoperands]
    exact c.reads room
  | combine parts ih =>
    rw [mapCommands_combine]
    match room with
    | 0 => exact .none fun h => absurd h.2 (Nat.not_succ_le_zero _)
    | 1 =>
      refine .none fun h => absurd h.2 ?_
      rw [toJson, nesting, nestingOfFields, nesting]
      omega
    | room + 2 =>
      have hread := (Reads.mapM fun a (ha : a ∈ parts) => ih a ha room).map combine
      rw [← listToJson_eq_map] at hread
      refine hread.congr ?_
      rw [operands_combine, nesting_combine_le_iff, allFinite_flatMap, ← forall₂_and]

end Action

/-! ## Tables -/

namespace ActionTable

/-- Changes each action of a table. -/
def map (g : Action → Action) (table : ActionTable) : ActionTable :=
  ⟨table.actions.map fun _ a => g a⟩

lemma get?_map (g : Action → Action) (table : ActionTable) (c : Symbol) :
    (table.map g).get? c = (table.get? c).map g :=
  Std.ExtTreeMap.getElem?_map

lemma map_eq_self_iff {g : Action → Action} {table : ActionTable} :
    table.map g = table ↔ ∀ binding ∈ table.toList, g binding.2 = binding.2 := by
  constructor
  · rintro h ⟨c, a⟩ hmem
    have hget : table.get? c = some a := Std.ExtTreeMap.mem_toList_iff_getElem?_eq_some.mp hmem
    have hmap := get?_map g table c
    rw [h, hget] at hmap
    exact (Option.some_inj.mp hmap).symm
  · intro h
    apply ext_get?
    intro c
    rw [get?_map]
    cases hget : table.get? c with
    | none => rfl
    | some a =>
      have hmem : (c, a) ∈ table.toList := Std.ExtTreeMap.mem_toList_iff_getElem?_eq_some.mpr hget
      exact congrArg some (h (c, a) hmem)

lemma ofList_eq (bindings : List (Symbol × Action)) :
    ofList bindings = ⟨Std.ExtTreeMap.ofList bindings⟩ := by
  have hextend : ∀ table : ActionTable,
      table.extend bindings = ⟨table.actions.insertMany bindings⟩ := by
    intro table
    induction bindings generalizing table with
    | nil => exact congrArg mk Std.ExtTreeMap.insertMany_nil.symm
    | cons binding bindings ih =>
      exact (ih _).trans (congrArg mk Std.ExtTreeMap.insertMany_cons.symm)
  rw [ofList, hextend, Std.ExtTreeMap.ofList_eq_insertMany_empty]
  rfl

lemma ofList_map_toList (g : Action → Action) (table : ActionTable) :
    ofList (table.toList.map fun binding => (binding.1, g binding.2)) = table.map g := by
  have hlist := @Std.ExtTreeMap.toList_map _ _ _ _ table.actions _ fun _ a => g a
  rw [ofList_eq, map, toList, ← hlist, ofList_toList]

/-- The distances in a table. -/
def distances (table : ActionTable) : List Float32 :=
  table.toList.flatMap fun binding => binding.2.distances

/-- The numbers in a table that are no distances. -/
def operands (table : ActionTable) : List Float32 :=
  table.toList.flatMap fun binding => binding.2.operands

lemma nesting_toJson_le_iff {table : ActionTable} {n : Nat} :
    table.toJson.nesting ≤ n + 2 ↔ ∀ binding ∈ table.toList, binding.2.toJson.nesting ≤ n := by
  rw [toJson, nesting_object_le_iff, List.forall_mem_singleton, nesting_object_le_iff,
    List.forall_mem_map]

lemma reads_binding (c : Symbol) (a : Action) (room : Nat) :
    Reads (bindingOfField? room (c.toString, a.toJson))
      (AllFinite a.operands ∧ a.toJson.nesting ≤ room) (c, a.mapCommands Command.reread) := by
  have hkey : symbolOfKey? c.toString = some c := by
    simp [symbolOfKey?]
  have hread : bindingOfField? room (c.toString, a.toJson) =
      (Action.ofJson? room a.toJson).map fun a => (c, a) := by
    rw [bindingOfField?, hkey, Option.map_eq_bind]
    rfl
  rw [hread]
  exact (a.reads room).map _

/-- A table is read back if each of its actions is. -/
lemma reads (table : ActionTable) :
    Reads (ofJson? table.toJson)
      (AllFinite table.operands ∧ table.toJson.nesting ≤ nestingLimit)
      (table.map (Action.mapCommands Command.reread)) := by
  have hbindings := (Reads.mapM fun binding (_ : binding ∈ table.toList) =>
    reads_binding binding.1 binding.2 (nestingLimit - 2)).map ofList
  rw [ofList_map_toList] at hbindings
  have hread : ofJson? table.toJson = ((table.toList.map fun binding =>
      (binding.1.toString, binding.2.toJson)).mapM (bindingOfField? (nestingLimit - 2))).map
        ofList := by
    rw [Option.map_eq_bind]
    rfl
  rw [hread]
  refine hbindings.congr ?_
  have hnesting : table.toJson.nesting ≤ nestingLimit ↔ _ :=
    @nesting_toJson_le_iff table (nestingLimit - 2)
  rw [hnesting, operands, allFinite_flatMap, ← forall₂_and]

end ActionTable

/-! ## Reloading -/

lemma Action.reread_eq_self_iff {a : Action} :
    a.mapCommands Command.reread = a ↔ AllFinite a.distances := by
  rw [mapCommands_eq_self_iff, distances, allFinite_flatMap]
  exact forall₂_congr fun c _ => c.reread_eq_self_iff

lemma ActionTable.reread_eq_self_iff {table : ActionTable} :
    table.map (Action.mapCommands Command.reread) = table ↔ AllFinite table.distances := by
  rw [map_eq_self_iff, distances, allFinite_flatMap]
  exact forall₂_congr fun _ _ => Action.reread_eq_self_iff

/-- **A reload forgets the distances that are not finite.**  An action is read back from its tree if
its other numbers are finite and its containers are nested within the limit, and what is read back
is the action without its distances that are not finite.  So a reload yields a different action
exactly if there are such distances and nothing else stands in the way.  The same holds of tables,
action by action. -/
theorem reload_differs_iff (a : Action) (table : ActionTable) :
    (∀ b, Action.ofJson? nestingLimit a.toJson = some b ↔
      (AllFinite a.operands ∧ a.toJson.nesting ≤ nestingLimit) ∧
        b = a.mapCommands Command.reread) ∧
    ((∃ b, Action.ofJson? nestingLimit a.toJson = some b ∧ b ≠ a) ↔
      (AllFinite a.operands ∧ a.toJson.nesting ≤ nestingLimit) ∧ ¬AllFinite a.distances) ∧
    (∀ t, ActionTable.ofJson? table.toJson = some t ↔
      (AllFinite table.operands ∧ table.toJson.nesting ≤ nestingLimit) ∧
        t = table.map (Action.mapCommands Command.reread)) ∧
    ((∃ t, ActionTable.ofJson? table.toJson = some t ∧ t ≠ table) ↔
      (AllFinite table.operands ∧ table.toJson.nesting ≤ nestingLimit) ∧
        ¬AllFinite table.distances) := by
  refine ⟨a.reads nestingLimit, ?_, table.reads, ?_⟩
  · rw [(a.reads nestingLimit).exists_ne_iff, ne_eq, Action.reread_eq_self_iff]
  · rw [table.reads.exists_ne_iff, ne_eq, ActionTable.reread_eq_self_iff]

/-- An infinite step is read back as a step without a distance, while an infinite turn is not read
back at all. -/
theorem reload_infinite_step :
    let infinite := Float32.ofBits 0x7F800000
    Action.ofJson? nestingLimit (Action.toJson (Command.forward (some infinite))) =
        some (Command.forward none) ∧
      Action.command (.forward none) ≠ .command (.forward (some infinite)) ∧
      Action.ofJson? nestingLimit (Action.toJson (Command.rotate infinite)) = none := by
  refine ⟨?_, nofun, ?_⟩
  · rfl
  · rfl

end LSystem
