import Std.Data.ExtTreeMap
import LSystem.Symbol
import LSystem.Turtle.Action

/-!
# Action tables

An action table binds symbols to actions.  A symbol that is not bound means nothing to the
turtle.  A symbol has one action at most, the one it was bound to last, and tables with the same
binding for every symbol are equal, whatever the order of the writes.
-/

namespace LSystem

/-- The actions of symbols. -/
structure ActionTable where
  actions : Std.ExtTreeMap Symbol Action

namespace ActionTable

/-- The table without bindings. -/
def empty : ActionTable := ⟨∅⟩

instance : EmptyCollection ActionTable := ⟨empty⟩

instance : Inhabited ActionTable := ⟨empty⟩

/-! ## Queries -/

/-- The action of a symbol. -/
def get? (table : ActionTable) (c : Symbol) : Option Action := table.actions[c]?

/-- The bindings in the order of their symbols. -/
def toList (table : ActionTable) : List (Symbol × Action) := table.actions.toList

/-- The number of bound symbols. -/
def size (table : ActionTable) : Nat := table.actions.size

/-- Whether no symbol is bound. -/
def isEmpty (table : ActionTable) : Bool := table.actions.isEmpty

/-- Tables with the same binding for every symbol are equal. -/
theorem ext_get? {s t : ActionTable} (h : ∀ c, s.get? c = t.get? c) : s = t := by
  obtain ⟨s⟩ := s
  obtain ⟨t⟩ := t
  exact congrArg mk (Std.ExtTreeMap.ext_getElem? fun c => h c)

@[simp] theorem get?_empty (c : Symbol) : (∅ : ActionTable).get? c = none :=
  Std.ExtTreeMap.getElem?_empty

/-! ## Writing -/

/-- Binds a symbol. -/
def insert (table : ActionTable) (c : Symbol) (a : Action) : ActionTable :=
  ⟨table.actions.insert c a⟩

/-- Takes the binding of a symbol away. -/
def erase (table : ActionTable) (c : Symbol) : ActionTable := ⟨table.actions.erase c⟩

/-- Binds a symbol, and gives the action that it had. -/
def set (table : ActionTable) (c : Symbol) (a : Action) : Option Action × ActionTable :=
  (table.get? c, table.insert c a)

/-- Takes the binding of a symbol away, and gives the action that it had. -/
def remove (table : ActionTable) (c : Symbol) : Option Action × ActionTable :=
  (table.get? c, table.erase c)

/-- Binds the symbols of a list, in order. -/
def extend (table : ActionTable) (bindings : List (Symbol × Action)) : ActionTable :=
  bindings.foldl (fun table (c, a) => table.insert c a) table

/-- The table of a list of bindings, the last one of each symbol. -/
def ofList (bindings : List (Symbol × Action)) : ActionTable := empty.extend bindings

theorem get?_insert (table : ActionTable) (c d : Symbol) (a : Action) :
    (table.insert c a).get? d = if c = d then some a else table.get? d := by
  simp [get?, insert, Std.ExtTreeMap.getElem?_insert]

theorem get?_erase (table : ActionTable) (c d : Symbol) :
    (table.erase c).get? d = if c = d then none else table.get? d := by
  simp [get?, erase, Std.ExtTreeMap.getElem?_erase]

/-- Of several bindings of a symbol the last one counts, and the table is asked if there is none. -/
theorem get?_extend (table : ActionTable) (bindings : List (Symbol × Action)) (c : Symbol) :
    (table.extend bindings).get? c = (bindings.reverse.lookup c).or (table.get? c) := by
  unfold extend
  induction bindings generalizing table with
  | nil => rfl
  | cons binding bindings ih =>
    obtain ⟨d, a⟩ := binding
    rw [List.foldl_cons, ih, get?_insert, List.reverse_cons, List.lookup_append, Option.or_assoc]
    congr 1
    by_cases hcd : d = c
    · simp [hcd]
    · have hdc : (c == d) = false := beq_false_of_ne (Ne.symm hcd)
      simp [List.lookup_cons, hcd, hdc]

theorem get?_ofList (bindings : List (Symbol × Action)) (c : Symbol) :
    (ofList bindings).get? c = bindings.reverse.lookup c := by
  rw [ofList, get?_extend]
  exact (congrArg _ (get?_empty c)).trans Option.or_none

/-- The action of a symbol stands in the list of the bindings. -/
theorem mem_of_get?_ofList {bindings : List (Symbol × Action)} {c : Symbol} {a : Action}
    (h : (ofList bindings).get? c = some a) : (c, a) ∈ bindings := by
  rw [get?_ofList, List.lookup_eq_some_iff] at h
  obtain ⟨_, _, hsplit, -⟩ := h
  exact List.mem_reverse.mp (by simp [hsplit])

/-! ## The usual bindings -/

/-- The bindings that are usual for turtle graphics, with a turning angle. -/
def standardBindings (angle : Float32) : List (Symbol × Action) :=
  [('F', Command.forward none), ('G', Command.forward none), ('f', Command.move none),
    ('+', Command.rotate angle), ('-', Command.rotate (-angle)), ('|', Command.turnAround),
    ('[', Command.push), (']', Command.pop)]

/-- The table of the usual bindings. -/
def standard (angle : Float32) : ActionTable := ofList (standardBindings angle)

/-! ## Numerical comparison -/

/-- Whether two tables bind the same symbols to actions that agree numerically. -/
def agrees (s t : ActionTable) : Bool :=
  s.size == t.size && s.toList.all fun (c, a) => (t.get? c).any a.agrees

end ActionTable

end LSystem
