import Std.Data.ExtTreeMap
import LSystem.Grammar.Listing
import LSystem.Rule.Selection

/-!
# Rule sets

A rule set maps symbols to their rules.  A symbol without a rule is terminal: it is its own
successor.  The map is extensional, so two rule sets with the same rule for every symbol are equal,
whatever the order in which they were built.

## Merging

Rule texts with the same source accumulate: each adds an alternative to the rule of its source,
in the order of the texts, and the first text that is refused fails the whole construction.
Whole rules do not accumulate; a later rule replaces an earlier one of the same source.
-/

namespace LSystem

/-- The rules of a system, by their source symbols. -/
structure RuleSet where
  rules : Std.ExtTreeMap Symbol Rule

namespace RuleSet

/-- The set without rules. -/
def empty : RuleSet := ⟨∅⟩

instance : EmptyCollection RuleSet := ⟨empty⟩

instance : Inhabited RuleSet := ⟨empty⟩

/-! ## Queries -/

/-- The rule of a symbol, absent for a terminal. -/
def lookup (set : RuleSet) (c : Symbol) : Option Rule := set.rules[c]?

/-- The rules in the order of their source symbols. -/
def toList (set : RuleSet) : List Rule := set.rules.values

/-- The number of rules. -/
def size (set : RuleSet) : Nat := set.rules.size

/-- Whether there is no rule. -/
def isEmpty (set : RuleSet) : Bool := set.rules.isEmpty

/-- Whether every rule has a single alternative. -/
def isDeterministic (set : RuleSet) : Bool := set.toList.all Rule.isDeterministic

/-- Rule sets with the same rule for every symbol are equal. -/
theorem ext_lookup {s t : RuleSet} (h : ∀ c, s.lookup c = t.lookup c) : s = t := by
  obtain ⟨s⟩ := s
  obtain ⟨t⟩ := t
  exact congrArg mk (Std.ExtTreeMap.ext_getElem? fun c => h c)

@[simp] theorem lookup_empty (c : Symbol) : (∅ : RuleSet).lookup c = none :=
  Std.ExtTreeMap.getElem?_empty

/-! ## Storing rules -/

/-- Stores a rule under its source, in the place of any other. -/
def insert (set : RuleSet) (rule : Rule) : RuleSet := ⟨set.rules.insert rule.source rule⟩

/-- Stores a rule under its source, and gives the rule that it replaces. -/
def replace (set : RuleSet) (rule : Rule) : Option Rule × RuleSet :=
  (set.lookup rule.source, set.insert rule)

theorem lookup_insert (set : RuleSet) (rule : Rule) (c : Symbol) :
    (set.insert rule).lookup c = if rule.source = c then some rule else set.lookup c := by
  simp [lookup, insert, Std.ExtTreeMap.getElem?_insert]

@[simp] theorem lookup_insert_self (set : RuleSet) (rule : Rule) :
    (set.insert rule).lookup rule.source = some rule := by
  simp [lookup_insert]

/-- Adds an alternative to the rule of a symbol, which is created if there is none. -/
def add (set : RuleSet) (source : Symbol) (a : Alternative) : Except GrammarError RuleSet := do
  let rule ←
    match set.lookup source with
    | some rule => rule.push a
    | none => Rule.single source a
  return ⟨set.rules.insert source rule⟩

/-- Adds the alternative of a production. -/
def addProduction (set : RuleSet) (p : Production) : Except GrammarError RuleSet :=
  set.add p.source ⟨p.effectiveWeight, p.replacement⟩

/-- Adds the alternative of a rule text. -/
def addText (set : RuleSet) (rule : String) : Except GrammarError RuleSet := do
  set.addProduction (← Production.read rule)

/-! ### In place -/

/-- Adds an alternative in place, to the stored rule of a symbol if there is one. -/
def addInPlace (source : Symbol) (a : Alternative) : Change RuleSet Unit := do
  match (← get).lookup source with
  | some rule =>
    Change.onPart rule (fun rule set => ⟨set.rules.insert source rule⟩) (Rule.pushInPlace a)
  | none =>
    let rule ← MonadExcept.ofExcept (Rule.single source a)
    modify fun set => ⟨set.rules.insert source rule⟩

/-- Adds the alternative of a production in place. -/
def addProductionInPlace (p : Production) : Change RuleSet Unit :=
  addInPlace p.source ⟨p.effectiveWeight, p.replacement⟩

/-- Storing again what is stored changes nothing. -/
theorem insert_of_lookup_eq_some {set : RuleSet} {c : Symbol} {rule : Rule}
    (h : set.lookup c = some rule) : (⟨set.rules.insert c rule⟩ : RuleSet) = set := by
  apply ext_lookup
  intro d
  have hinsert : (⟨set.rules.insert c rule⟩ : RuleSet).lookup d =
      if c = d then some rule else set.lookup d := by
    simp [lookup, Std.ExtTreeMap.getElem?_insert]
  rw [hinsert]
  split
  · rename_i hcd
    rw [← hcd, h]
  · rfl

/-- Adding in place is adding, and a refused addition leaves the set as it was. -/
theorem addInPlace_eq_ofUpdate (source : Symbol) (a : Alternative) :
    addInPlace source a = .ofUpdate (·.add source a) := by
  funext set
  have hadd : addInPlace source a set =
      (match set.lookup source with
      | some rule =>
        Change.onPart rule (fun rule set => ⟨set.rules.insert source rule⟩) (Rule.pushInPlace a) set
      | none => (do
        let rule ← MonadExcept.ofExcept (Rule.single source a)
        modify fun set => ⟨set.rules.insert source rule⟩ : Change RuleSet Unit) set) := by
    unfold addInPlace
    change (match set.lookup source with | some _ => _ | none => _ : Change RuleSet Unit) set = _
    cases set.lookup source <;> rfl
  rw [hadd, Change.ofUpdate, add]
  cases hlookup : set.lookup source with
  | none => cases Rule.single source a <;> rfl
  | some rule =>
    rw [Rule.pushInPlace_eq_ofUpdate]
    simp only [Change.onPart, Change.ofUpdate]
    cases rule.push a with
    | ok rule' => rfl
    | error e =>
      exact congrArg (EStateM.Result.error e) (insert_of_lookup_eq_some hlookup)

/-! ## Construction -/

/-- Merges rule texts. -/
def ofTexts (rules : List String) : Except GrammarError RuleSet := rules.foldlM addText ∅

/-- Merges the productions of a listing, once all of it is read. -/
def ofListing (text : String) : Except GrammarError RuleSet := do
  (← Listing.read text).foldlM addProduction ∅

/-- Collects whole rules, the last one of each source. -/
def ofList (rules : List Rule) : RuleSet := rules.foldl insert ∅

/-! ## Successors -/

/-- What a symbol is replaced by, and the stream that is left. -/
def successor (set : RuleSet) (c : Symbol) (s : DrawStream) : Sequence × DrawStream :=
  match set.lookup c with
  | some rule => rule.select s
  | none => ([c], s)

/-- Appends what a symbol is replaced by. -/
def appendSuccessor (set : RuleSet) (c : Symbol) (out : Array Symbol) (s : DrawStream) :
    Array Symbol × DrawStream :=
  let (replacement, s) := set.successor c s
  (out ++ replacement, s)

/-- A terminal stays as it is, without a draw. -/
theorem successor_of_lookup_eq_none {set : RuleSet} {c : Symbol} (h : set.lookup c = none)
    (s : DrawStream) : set.successor c s = ([c], s) := by
  simp [successor, h]

theorem successor_of_lookup_eq_some {set : RuleSet} {c : Symbol} {rule : Rule}
    (h : set.lookup c = some rule) (s : DrawStream) : set.successor c s = rule.select s := by
  simp [successor, h]

end RuleSet

end LSystem
