import LSystem.Proofs.Codec.Action
import LSystem.Proofs.Codec.Drawing

/-!
# Saving and reading back

Everything that can be saved is read back from its tree if its numbers are finite, its counts fit a
machine word, and its containers are nested within the limit.  Only actions and tables can be nested
too deeply, since containers of the others enclose one another six times at most.
-/

namespace LSystem

open Json

/-! ## Actions and tables with finite numbers -/

/-- The numbers of an action. -/
def Action.numbers (a : Action) : List Float32 := a.distances ++ a.operands

/-- The numbers of a table. -/
def ActionTable.numbers (table : ActionTable) : List Float32 := table.distances ++ table.operands

lemma Action.ofJson?_toJson_iff (a : Action) (room : Nat) :
    ofJson? room a.toJson = some a ↔ AllFinite a.numbers ∧ a.toJson.nesting ≤ room := by
  rw [a.reads room, eq_comm, reread_eq_self_iff, numbers, allFinite_append]
  exact ⟨fun ⟨⟨ho, hn⟩, hd⟩ => ⟨⟨hd, ho⟩, hn⟩, fun ⟨⟨hd, ho⟩, hn⟩ => ⟨⟨ho, hn⟩, hd⟩⟩

lemma ActionTable.ofJson?_toJson_iff (table : ActionTable) :
    ofJson? table.toJson = some table ↔
      AllFinite table.numbers ∧ table.toJson.nesting ≤ nestingLimit := by
  rw [table.reads, eq_comm, reread_eq_self_iff, numbers, allFinite_append]
  exact ⟨fun ⟨⟨ho, hn⟩, hd⟩ => ⟨⟨hd, ho⟩, hn⟩, fun ⟨⟨hd, ho⟩, hn⟩ => ⟨⟨ho, hn⟩, hd⟩⟩

/-! ## The round trip -/

/-- **What is saved is read back.**  The tree of a value is read as that value exactly if all
numbers of the value are finite, its counts fit a machine word, and, in the case of actions and
tables, the containers of the tree are nested within the limit. -/
theorem ofJson?_toJson_eq_some_iff :
    (∀ c : Config, Config.ofJson? c.toJson = some c ↔
      AllFinite c.numbers ∧ c.maxStackDepth < wordCount) ∧
    (∀ t : Turtle, Turtle.ofJson? t.toJson = some t ↔ AllFinite t.numbers) ∧
    (∀ a : Action, Action.ofJson? nestingLimit a.toJson = some a ↔
      AllFinite a.numbers ∧ a.toJson.nesting ≤ nestingLimit) ∧
    (∀ table : ActionTable, ActionTable.ofJson? table.toJson = some table ↔
      AllFinite table.numbers ∧ table.toJson.nesting ≤ nestingLimit) ∧
    (∀ m : Mark, Mark.ofJson? m.toJson = some m ↔ AllFinite m.numbers) ∧
    (∀ s : Segment, Segment.ofJson? s.toJson = some s ↔ AllFinite s.numbers) ∧
    ∀ d : Drawing, Drawing.ofJson? d.toJson = some d ↔
      AllFinite d.numbers ∧ d.openBranches < wordCount :=
  ⟨fun c => c.reads.eq_some_iff, fun t => t.reads.eq_some_iff,
    fun a => a.ofJson?_toJson_iff nestingLimit, fun table => table.ofJson?_toJson_iff,
    fun m => m.reads.eq_some_iff, fun s => s.reads.eq_some_iff, fun d => d.reads.eq_some_iff⟩

end LSystem
