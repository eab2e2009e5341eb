import LSystem.Proofs.Grammar.Change
import LSystem.Proofs.Rule.Valid

/-!
# Runs of edits

A program that builds rules and rule sets goes through a run of calls, some of which are refused.
Here the values that it works on lie on a workbench, each at a place, and a call is an edit of the
bench: it puts a new rule or a new set there, or it changes one that is there in place.  After a
refused edit the run goes on with what that edit left.

Two properties of a single edit carry over to runs.  An edit keeps the bench sound, and an edit that
is refused leaves the whole bench as it was.  So everything that a run reaches is sound, and the
refused edits of a run might as well be left out.

The edits that change a rule or a set in place come down to the changes of the one rule or the one
set (`Change.Atomic.atPlace`, `Change.Keeps.atPlace`), and those to adding an alternative by a
function (`Rule.pushInPlace_eq_ofUpdate`, `RuleSet.addInPlace_eq_ofUpdate`).
-/

namespace LSystem

/-! ## Adding in place -/

namespace Rule

lemma atomic_pushInPlace (a : Alternative) : (pushInPlace a).Atomic := by
  rw [pushInPlace_eq_ofUpdate]
  exact Change.atomic_ofUpdate

lemma keeps_pushInPlace (a : Alternative) : (pushInPlace a).Keeps Valid := by
  rw [pushInPlace_eq_ofUpdate]
  exact Change.keeps_ofUpdate fun rule result hrule h => hrule.push h

end Rule

namespace RuleSet

variable (c : Symbol) (a : Alternative)

lemma atomic_addInPlace : (addInPlace c a).Atomic := by
  rw [addInPlace_eq_ofUpdate]
  exact Change.atomic_ofUpdate

lemma keeps_addInPlace : (addInPlace c a).Keeps Sound := by
  rw [addInPlace_eq_ofUpdate]
  exact Change.keeps_ofUpdate fun set result hset h => hset.add h

end RuleSet

/-! ## The bench -/

/-- The rules and the rule sets that a program works on. -/
structure Workbench where
  rules : List Rule
  sets : List RuleSet

namespace Workbench

/-- The bench that a run starts with. -/
def empty : Workbench := ⟨[], []⟩

def putRule (w : Workbench) (rule : Rule) : Workbench := { w with rules := w.rules ++ [rule] }

def putSet (w : Workbench) (set : RuleSet) : Workbench := { w with sets := w.sets ++ [set] }

/-- Stores the rule at a place in the set at a place, and puts the rule that it replaces on the
bench. -/
def store (w : Workbench) (setPlace rulePlace : Nat) : Workbench :=
  match w.sets[setPlace]?, w.rules[rulePlace]? with
  | some set, some rule =>
    let (old, set) := set.replace rule
    { rules := w.rules ++ old.toList, sets := w.sets.set setPlace set }
  | _, _ => w

/-- Puts the rule of a symbol in the set at a place on the bench as well. -/
def copy (w : Workbench) (setPlace : Nat) (c : Symbol) : Workbench :=
  match w.sets[setPlace]?.bind (·.lookup c) with
  | some rule => w.putRule rule
  | none => w

/-- A change to the rules of the bench. -/
def onRules (change : Change (List Rule) Unit) : Change Workbench Unit := fun w =>
  Change.onPart w.rules (fun rules w => { w with rules }) change w

/-- A change to the sets of the bench. -/
def onSets (change : Change (List RuleSet) Unit) : Change Workbench Unit := fun w =>
  Change.onPart w.sets (fun sets w => { w with sets }) change w

/-- All rules are valid, and all rule sets are sound. -/
structure Sound (w : Workbench) : Prop where
  valid_rule : ∀ rule ∈ w.rules, rule.Valid
  sound_set : ∀ set ∈ w.sets, set.Sound

lemma sound_empty : empty.Sound := by
  constructor <;> exact fun _ h => nomatch h

section

variable {w : Workbench}

lemma Sound.putRule (hw : w.Sound) {rule : Rule} (h : rule.Valid) : (w.putRule rule).Sound := by
  constructor
  · exact List.forall_mem_append.mpr ⟨hw.valid_rule, List.forall_mem_singleton.mpr h⟩
  · exact hw.sound_set

lemma Sound.putSet (hw : w.Sound) {set : RuleSet} (h : set.Sound) : (w.putSet set).Sound := by
  constructor
  · exact hw.valid_rule
  · exact List.forall_mem_append.mpr ⟨hw.sound_set, List.forall_mem_singleton.mpr h⟩

lemma Sound.store (hw : w.Sound) (setPlace rulePlace : Nat) :
    (w.store setPlace rulePlace).Sound := by
  unfold Workbench.store
  split
  · rename_i set rule hset hrule
    have hsound := hw.sound_set set (List.mem_of_getElem? hset)
    have hvalid := hw.valid_rule rule (List.mem_of_getElem? hrule)
    constructor
    · refine List.forall_mem_append.mpr ⟨hw.valid_rule, fun old hold => ?_⟩
      exact hsound.valid (Option.mem_toList.mp hold)
    · exact Change.forall_mem_set hw.sound_set setPlace (hsound.insert hvalid)
  · exact hw

lemma Sound.copy (hw : w.Sound) (setPlace : Nat) (c : Symbol) : (w.copy setPlace c).Sound := by
  unfold Workbench.copy
  split
  · rename_i rule hlookup
    obtain ⟨set, hset, hrule⟩ := Option.bind_eq_some_iff.mp hlookup
    exact hw.putRule ((hw.sound_set set (List.mem_of_getElem? hset)).valid hrule)
  · exact hw

end

section

variable {change : Change (List Rule) Unit}

lemma atomic_onRules (h : change.Atomic) : (onRules change).Atomic := by
  intro w e w' herror
  obtain ⟨rules, hchange, rfl⟩ := Change.onPart_eq_error_iff.mp herror
  rw [h _ _ _ hchange]

lemma keeps_onRules (h : change.Keeps fun rules => ∀ rule ∈ rules, rule.Valid) :
    (onRules change).Keeps Sound := by
  intro w w' hw hdone
  obtain ⟨rules, hchange, rfl⟩ := Change.onPart_eq_ok_iff.mp hdone
  exact ⟨h _ _ hw.valid_rule hchange, hw.sound_set⟩

end

section

variable {change : Change (List RuleSet) Unit}

lemma atomic_onSets (h : change.Atomic) : (onSets change).Atomic := by
  intro w e w' herror
  obtain ⟨sets, hchange, rfl⟩ := Change.onPart_eq_error_iff.mp herror
  rw [h _ _ _ hchange]

lemma keeps_onSets (h : change.Keeps fun sets => ∀ set ∈ sets, set.Sound) :
    (onSets change).Keeps Sound := by
  intro w w' hw hdone
  obtain ⟨sets, hchange, rfl⟩ := Change.onPart_eq_ok_iff.mp hdone
  exact ⟨hw.valid_rule, h _ _ hw.sound_set hchange⟩

end

end Workbench

/-! ## Edits -/

/-- One call.  Rules and sets are referred to by their places; where a place is not taken, nothing
happens. -/
inductive Edit where
  /-- A new rule of a single replacement. -/
  | deterministic (source : Symbol) (replacement : Sequence)
  /-- A new rule of weighted alternatives. -/
  | stochastic (source : Symbol) (alternatives : List Alternative)
  /-- One more alternative for a rule of the bench. -/
  | push (rulePlace : Nat) (a : Alternative)
  /-- A new set of the rules at some places. -/
  | collect (rulePlaces : List Nat)
  /-- A new set that is merged from rule texts. -/
  | parse (rules : List String)
  /-- A new set that is merged from a listing. -/
  | read (text : String)
  /-- A rule of the bench, stored in a set of it. -/
  | insert (setPlace rulePlace : Nat)
  /-- One more alternative for a symbol of a set. -/
  | add (setPlace : Nat) (source : Symbol) (a : Alternative)
  /-- The alternative of one more production for a set. -/
  | addProduction (setPlace : Nat) (p : Production)
  /-- A rule of a set, put on the bench as well. -/
  | copy (setPlace : Nat) (c : Symbol)

namespace Edit

open Workbench

/-- What an edit does to the bench. -/
def perform : Edit → Change Workbench Unit
  | deterministic source replacement =>
    modify fun w => w.putRule (Rule.deterministic source replacement)
  | stochastic source as => .ofUpdate fun w => (Rule.stochastic source as).map w.putRule
  | push rulePlace a => onRules ((Rule.pushInPlace a).atPlace rulePlace)
  | collect rulePlaces =>
    modify fun w => w.putSet (RuleSet.ofList (rulePlaces.filterMap (w.rules[·]?)))
  | parse rules => .ofUpdate fun w => (RuleSet.ofTexts rules).map w.putSet
  | read text => .ofUpdate fun w => (RuleSet.ofListing text).map w.putSet
  | insert setPlace rulePlace => modify fun w => w.store setPlace rulePlace
  | add setPlace source a => onSets ((RuleSet.addInPlace source a).atPlace setPlace)
  | addProduction setPlace p => onSets ((RuleSet.addProductionInPlace p).atPlace setPlace)
  | copy setPlace c => modify fun w => w.copy setPlace c

/-- An edit that is refused changes nothing on the bench. -/
lemma atomic_perform (edit : Edit) : edit.perform.Atomic := by
  cases edit with
  | push rulePlace a => exact atomic_onRules ((Rule.atomic_pushInPlace a).atPlace rulePlace)
  | add setPlace source a =>
    exact atomic_onSets ((RuleSet.atomic_addInPlace source a).atPlace setPlace)
  | addProduction setPlace p =>
    exact atomic_onSets ((RuleSet.atomic_addInPlace _ _).atPlace setPlace)
  | stochastic | parse | read => exact Change.atomic_ofUpdate
  | deterministic | collect | insert | copy => exact Change.atomic_modify

/-- An edit that is done keeps the bench sound. -/
lemma keeps_perform (edit : Edit) : edit.perform.Keeps Sound := by
  cases edit with
  | deterministic source replacement =>
    apply Change.keeps_modify
    intro w hw
    exact hw.putRule (Rule.valid_deterministic source replacement)
  | stochastic source as =>
    apply Change.keeps_ofUpdate
    intro w w' hw h
    obtain ⟨rule, hrule, rfl⟩ := map_eq_ok_iff.mp h
    exact hw.putRule (Rule.valid_of_stochastic hrule).2
  | push rulePlace a => exact keeps_onRules ((Rule.keeps_pushInPlace a).atPlace rulePlace)
  | collect rulePlaces =>
    apply Change.keeps_modify
    intro w hw
    apply hw.putSet
    apply RuleSet.sound_ofList
    intro rule hrule
    obtain ⟨place, -, hplace⟩ := List.mem_filterMap.mp hrule
    exact hw.valid_rule rule (List.mem_of_getElem? hplace)
  | parse rules =>
    apply Change.keeps_ofUpdate
    intro w w' hw h
    obtain ⟨set, hset, rfl⟩ := map_eq_ok_iff.mp h
    exact hw.putSet (RuleSet.sound_of_ofTexts hset)
  | read text =>
    apply Change.keeps_ofUpdate
    intro w w' hw h
    obtain ⟨set, hset, rfl⟩ := map_eq_ok_iff.mp h
    exact hw.putSet (RuleSet.sound_of_ofListing hset)
  | insert setPlace rulePlace =>
    apply Change.keeps_modify
    intro w hw
    exact hw.store setPlace rulePlace
  | add setPlace source a =>
    exact keeps_onSets ((RuleSet.keeps_addInPlace source a).atPlace setPlace)
  | addProduction setPlace p => exact keeps_onSets ((RuleSet.keeps_addInPlace _ _).atPlace setPlace)
  | copy setPlace c =>
    apply Change.keeps_modify
    intro w hw
    exact hw.copy setPlace c

end Edit

/-! ## Runs -/

namespace Workbench

/-- The bench after a run of edits. -/
def run : List Edit → Workbench → Workbench
  | [], w => w
  | edit :: edits, w => run edits (edit.perform.after w)

/-- The edits of a run that are done. -/
def accepted : List Edit → Workbench → List Edit
  | [], _ => []
  | edit :: edits, w =>
    let rest := accepted edits (edit.perform.after w)
    if edit.perform.isDone w then edit :: rest else rest

lemma Sound.run {w : Workbench} (hw : w.Sound) (edits : List Edit) :
    (Workbench.run edits w).Sound := by
  induction edits generalizing w with
  | nil => exact hw
  | cons edit edits ih => exact ih ((edit.keeps_perform).after edit.atomic_perform hw)

/-- A run without its refused edits reaches the same, and none of its edits is refused. -/
lemma run_accepted (edits : List Edit) (w : Workbench) :
    run (accepted edits w) w = run edits w ∧
      accepted (accepted edits w) w = accepted edits w := by
  induction edits generalizing w with
  | nil => exact ⟨rfl, rfl⟩
  | cons edit edits ih =>
    obtain ⟨hrun, haccepted⟩ := ih (edit.perform.after w)
    cases hdone : edit.perform.isDone w with
    | true =>
      simp only [accepted, hdone, if_true, run]
      exact ⟨hrun, congrArg _ haccepted⟩
    | false =>
      have hafter := edit.atomic_perform.after_eq hdone
      simp only [accepted, hdone, Bool.false_eq_true, if_false, run]
      rw [hafter] at hrun haccepted ⊢
      exact ⟨hrun, haccepted⟩

end Workbench

/-- A rule that can be built: some run of edits reaches it. -/
def Rule.Reachable (rule : Rule) : Prop :=
  ∃ edits, rule ∈ (Workbench.run edits Workbench.empty).rules

/-- A rule set that can be built: some run of edits reaches it. -/
def RuleSet.Reachable (set : RuleSet) : Prop :=
  ∃ edits, set ∈ (Workbench.run edits Workbench.empty).sets

lemma Rule.Reachable.valid {rule : Rule} (h : rule.Reachable) : rule.Valid := by
  obtain ⟨edits, hmem⟩ := h
  exact (Workbench.sound_empty.run edits).valid_rule rule hmem

lemma RuleSet.Reachable.sound {set : RuleSet} (h : set.Reachable) : set.Sound := by
  obtain ⟨edits, hmem⟩ := h
  exact (Workbench.sound_empty.run edits).sound_set set hmem

namespace Workbench

/-- **Everything that a run of edits reaches is sound, and refusals change nothing.**  Every rule
has an alternative, and its weights and their total are finite and positive; every rule of a set is
stored under its own source, and each source occurs once; an edit that is refused leaves the bench
as it was, whatever is on it; and a run reaches what the run of its accepted edits reaches. -/
theorem run_sound (edits : List Edit) :
    (∀ rule ∈ (run edits empty).rules, rule.Valid) ∧
    (∀ set ∈ (run edits empty).sets,
      (∀ c rule, set.lookup c = some rule → rule.source = c ∧ rule.Valid) ∧
      (∀ rule, rule ∈ set.toList ↔ set.lookup rule.source = some rule) ∧
      (set.toList.map Rule.source).Nodup) ∧
    (∀ (edit : Edit) (w : Workbench) (e : GrammarError) (w' : Workbench),
      edit.perform w = .error e w' → w' = w) ∧
    run (accepted edits empty) empty = run edits empty ∧
    accepted (accepted edits empty) empty = accepted edits empty := by
  have hsound := sound_empty.run edits
  refine ⟨hsound.valid_rule, ?_, fun edit => edit.atomic_perform, run_accepted edits empty⟩
  intro set hmem
  have hset := hsound.sound_set set hmem
  refine ⟨fun c rule h => ⟨hset.source_eq h, hset.valid h⟩, ?_, hset.nodup_sources⟩
  intro rule
  rw [RuleSet.mem_toList_iff]
  constructor
  · rintro ⟨c, hlookup⟩
    rwa [hset.source_eq hlookup]
  · exact fun hlookup => ⟨rule.source, hlookup⟩

/-- Two weights are refused, one that is no number and one that makes the total overflow. -/
theorem run_sound_of_refused_weights :
    let edits : List Edit :=
      [.deterministic 'F' ['F'], .push 0 ⟨0.0 / 0.0, ['G']⟩, .push 0 ⟨1e308, []⟩,
        .push 0 ⟨1e308, ['F', 'F']⟩, .parse ["F 0.5 -> FF"], .insert 0 0]
    (run edits empty).rules =
        [⟨'F', [⟨1.0, ['F']⟩, ⟨1e308, []⟩]⟩, ⟨'F', [⟨0.5, ['F', 'F']⟩]⟩] ∧
      (accepted edits empty).length = 4 ∧ ∀ rule ∈ (run edits empty).rules, rule.Valid := by
  intro edits
  exact ⟨by decide +kernel, by decide +kernel, (run_sound edits).1⟩

end Workbench

end LSystem
