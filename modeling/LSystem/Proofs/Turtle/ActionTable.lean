import LSystem.Proofs.Codec.RoundTrip
import LSystem.Proofs.Turtle.Point

/-!
# Action tables as finite maps

A table is known by what it binds each symbol to.  Its list holds each bound symbol once, with its
action, its size is the number of bound symbols, and it is empty if there is none.

Two tables agree numerically exactly if they bind each symbol to actions that agree, or do not bind
it.  An action agrees with itself unless one of its numbers is NaN, so tables with the same bindings
agree unless a NaN is among their numbers.
-/

namespace LSystem

/-! ## Agreement of actions -/

lemma listAgrees_self_iff {α : Type} {agrees : α → α → Bool} {as : List α} :
    listAgrees agrees as as = true ↔ ∀ a ∈ as, agrees a a = true := by
  induction as with
  | nil => simp [listAgrees]
  | cons a as ih => rw [listAgrees, Bool.and_eq_true, ih, List.forall_mem_cons]

lemma optionAgrees_none_iff {α : Type} {agrees : α → α → Bool} {y : Option α} :
    optionAgrees agrees none y = true ↔ y = none := by
  cases y <;> simp [optionAgrees]

lemma optionAgrees_some_iff {α : Type} {agrees : α → α → Bool} {a : α} {y : Option α} :
    optionAgrees agrees (some a) y = true ↔ ∃ b, y = some b ∧ agrees a b = true := by
  cases y <;> simp [optionAgrees]

lemma optionAgrees_self_iff {α : Type} {agrees : α → α → Bool} {x : Option α} :
    optionAgrees agrees x x = true ↔ ∀ a ∈ x.toList, agrees a a = true := by
  cases x <;> simp [optionAgrees]

/-- A command agrees with itself if no number of it is NaN. -/
lemma Command.agrees_self_iff (c : Command) :
    c.agrees c = true ↔ ∀ x ∈ c.distances ++ c.operands, x.isNaN = false := by
  have hself : ∀ x : Float32, (x == x) = true ↔ x.isNaN = false := fun x =>
    Float32.beq_self_iff.trans Point.isNaN_eq_false_iff.symm
  cases c with
  | forward distance | move distance =>
    simp [agrees, distances, operands, optionAgrees_self_iff, hself]
  | rotate angle => simp [agrees, distances, operands, hself]
  | custom name params => simp [agrees, distances, operands, listAgrees_self_iff, hself]
  | _ => simp [agrees, distances, operands]

namespace Action

lemma allAgree_eq (as bs : List Action) : allAgree as bs = listAgrees agrees as bs := by
  induction as generalizing bs with
  | nil => cases bs <;> rfl
  | cons a as ih =>
    cases bs with
    | nil => rfl
    | cons b bs => rw [allAgree, listAgrees, ih]

/-- An action agrees with itself if no number of it is NaN. -/
lemma agrees_self_iff (a : Action) :
    a.agrees a = true ↔ ∀ x ∈ a.numbers, x.isNaN = false := by
  have hcommands : a.agrees a = true ↔ ∀ c ∈ a.commands, c.agrees c = true := by
    induction a using Action.induction with
    | command c => simp [agrees]
    | combine parts ih =>
      rw [agrees, allAgree_eq, listAgrees_self_iff, commands_combine, List.forall_mem_flatMap]
      exact forall₂_congr ih
  rw [hcommands, numbers, distances, operands, List.forall_mem_append, List.forall_mem_flatMap,
    List.forall_mem_flatMap, ← forall₂_and]
  refine forall₂_congr fun c _ => ?_
  rw [Command.agrees_self_iff, List.forall_mem_append]

end Action

/-! ## Tables as finite maps -/

namespace ActionTable

variable {table s t : ActionTable} {c : Symbol} {a : Action}

lemma mem_toList_iff : (c, a) ∈ table.toList ↔ table.get? c = some a :=
  Std.ExtTreeMap.mem_toList_iff_getElem?_eq_some

lemma nodup_toList (table : ActionTable) : (table.toList.map Prod.fst).Nodup := by
  rw [toList, Std.ExtTreeMap.map_fst_toList_eq_keys]
  exact Std.ExtTreeMap.nodup_keys

/-- The symbols that a table binds. -/
def symbols (table : ActionTable) : Finset Symbol := (table.toList.map Prod.fst).toFinset

lemma mem_symbols_iff : c ∈ table.symbols ↔ (table.get? c).isSome := by
  rw [symbols, List.mem_toFinset, List.mem_map, Option.isSome_iff_exists]
  constructor
  · rintro ⟨⟨d, a⟩, hmem, rfl⟩
    exact ⟨a, mem_toList_iff.mp hmem⟩
  · rintro ⟨a, hget⟩
    exact ⟨(c, a), mem_toList_iff.mpr hget, rfl⟩

lemma card_symbols (table : ActionTable) : table.symbols.card = table.size := by
  rw [symbols, List.toFinset_card_of_nodup table.nodup_toList, List.length_map]
  exact Std.ExtTreeMap.length_toList

lemma isEmpty_iff : table.isEmpty = true ↔ ∀ c, table.get? c = none := by
  rw [isEmpty, Std.ExtTreeMap.isEmpty_iff, Std.ExtTreeMap.eq_empty_iff_forall_not_mem]
  refine forall_congr' fun c => ?_
  rw [Std.ExtTreeMap.mem_iff_isSome_getElem?, Option.not_isSome_iff_eq_none]
  rfl

lemma ofList_toList_self (table : ActionTable) : ofList table.toList = table := by
  rw [ofList_eq, toList, Json.ofList_toList]

/-- A list that binds no symbol twice gives each the action that stands with it. -/
lemma get?_ofList_of_mem {bindings : List (Symbol × Action)}
    (hnodup : (bindings.map Prod.fst).Nodup) (hmem : (c, a) ∈ bindings) :
    (ofList bindings).get? c = some a := by
  rw [ofList_eq]
  refine Std.ExtTreeMap.getElem?_ofList_of_mem Std.ReflCmp.compare_self ?_ hmem
  exact (List.pairwise_map.mp hnodup).imp fun hne heq => hne (Std.LawfulEqCmp.eq_of_compare heq)

lemma get?_ofList_eq_none {bindings : List (Symbol × Action)} (hc : c ∉ bindings.map Prod.fst) :
    (ofList bindings).get? c = none := by
  rw [ofList_eq]
  exact Std.ExtTreeMap.getElem?_ofList_of_contains_eq_false (by simpa using hc)

/-- The bindings of another table go before those that are there. -/
lemma get?_extend_toList (table other : ActionTable) (c : Symbol) :
    (table.extend other.toList).get? c = (other.get? c).or (table.get? c) := by
  rw [get?_extend, ← get?_ofList, ofList_toList_self]

/-- What a table answers is said by its bindings. -/
structure IsFiniteMap (table : ActionTable) : Prop where
  /-- Binding a symbol answers with the action that it had. -/
  set_answer : ∀ c a, (table.set c a).1 = table.get? c
  /-- Binding a symbol changes its binding only. -/
  get?_set : ∀ c a d, (table.set c a).2.get? d = if c = d then some a else table.get? d
  /-- Taking a binding away answers with the action that the symbol had. -/
  remove_answer : ∀ c, (table.remove c).1 = table.get? c
  /-- Taking a binding away changes no other one. -/
  get?_remove : ∀ c d, (table.remove c).2.get? d = if c = d then none else table.get? d
  /-- The size is the number of bound symbols. -/
  size_eq : table.size = table.symbols.card ∧ ∀ c, c ∈ table.symbols ↔ (table.get? c).isSome
  /-- A table is empty if no symbol is bound. -/
  isEmpty_iff : table.isEmpty = true ↔ ∀ c, table.get? c = none
  /-- No symbol is listed twice. -/
  nodup : (table.toList.map Prod.fst).Nodup
  /-- The bound symbols are listed with their actions. -/
  mem_toList_iff : ∀ c a, (c, a) ∈ table.toList ↔ table.get? c = some a

lemma isFiniteMap (table : ActionTable) : table.IsFiniteMap where
  set_answer _ _ := rfl
  get?_set c a d := table.get?_insert c d a
  remove_answer _ := rfl
  get?_remove := table.get?_erase
  size_eq := ⟨table.card_symbols.symm, fun _ => mem_symbols_iff⟩
  isEmpty_iff := isEmpty_iff
  nodup := table.nodup_toList
  mem_toList_iff _ _ := mem_toList_iff

/-! ### Agreement -/

/-- Tables agree exactly if for each symbol their actions agree or both have none. -/
lemma agrees_iff :
    s.agrees t = true ↔ ∀ c, optionAgrees Action.agrees (s.get? c) (t.get? c) = true := by
  have hall : (s.toList.all fun binding => (t.get? binding.1).any binding.2.agrees) = true ↔
      ∀ c a, s.get? c = some a → ∃ b, t.get? c = some b ∧ a.agrees b = true := by
    simp only [List.all_eq_true, Prod.forall, mem_toList_iff, Option.any_eq_true]
  rw [agrees, Bool.and_eq_true, beq_iff_eq, hall, ← card_symbols, ← card_symbols]
  constructor
  · rintro ⟨hcard, hagree⟩ c
    have hsubset : s.symbols ⊆ t.symbols := by
      intro c hc
      obtain ⟨a, ha⟩ := Option.isSome_iff_exists.mp (mem_symbols_iff.mp hc)
      obtain ⟨b, hb, -⟩ := hagree c a ha
      exact mem_symbols_iff.mpr (Option.isSome_iff_exists.mpr ⟨b, hb⟩)
    -- No symbol is left over that only the second table binds.
    have hsymbols := Finset.eq_of_subset_of_card_le hsubset hcard.ge
    cases hs : s.get? c with
    | none =>
      rw [optionAgrees_none_iff, ← Option.not_isSome_iff_eq_none, ← mem_symbols_iff, ← hsymbols,
        mem_symbols_iff, hs]
      exact Bool.false_ne_true
    | some a => exact optionAgrees_some_iff.mpr (hagree c a hs)
  · intro h
    have hsymbols : s.symbols = t.symbols := by
      ext c
      have hc := h c
      rw [mem_symbols_iff, mem_symbols_iff]
      cases hs : s.get? c with
      | none =>
        rw [hs, optionAgrees_none_iff] at hc
        rw [hc]
      | some a =>
        rw [hs, optionAgrees_some_iff] at hc
        obtain ⟨b, hb, -⟩ := hc
        rw [hb]
        rfl
    refine ⟨congrArg Finset.card hsymbols, fun c a ha => ?_⟩
    exact optionAgrees_some_iff.mp (ha ▸ h c)

/-- A table agrees with itself if no number of it is NaN. -/
lemma agrees_self_iff (table : ActionTable) :
    table.agrees table = true ↔ ∀ x ∈ table.numbers, x.isNaN = false := by
  have hbindings : table.agrees table = true ↔
      ∀ binding ∈ table.toList, binding.2.agrees binding.2 = true := by
    simp only [agrees_iff, optionAgrees_self_iff, Option.mem_toList, Prod.forall,
      mem_toList_iff]
  rw [hbindings, numbers, distances, operands, List.forall_mem_append, List.forall_mem_flatMap,
    List.forall_mem_flatMap, ← forall₂_and]
  refine forall₂_congr fun binding _ => ?_
  rw [Action.agrees_self_iff, Action.numbers, List.forall_mem_append]

end ActionTable

end LSystem
