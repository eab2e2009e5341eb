import Mathlib.Data.List.Nodup
import LSystem.Proofs.Number.PositiveSum
import LSystem.Proofs.Traversal
import LSystem.RuleSet

/-!
# What was built is valid

Every way to build a rule ends in a valid one: it has an alternative, and its weights and their
total are positive and finite.  The checks themselves only establish that the total is finite, and
they look at the total of before with the new weight on top, not at the total of the rule that
results.  The two are the same sum, since the total is taken from left to right
(`Rule.totalWeight_concat`), and it is positive because its summands are (`Double.add_pos`).

A rule set is sound if each rule is valid and is stored under its own source.  All constructions
of rule sets come down to storing a valid rule under its source (`RuleSet.exists_insert_of_add`),
which keeps a set sound; and in a sound set no source occurs twice, because no key does.
-/

namespace LSystem

/-! ## Admissible weights -/

namespace Weight

lemma isAdmissible_one : isAdmissible 1.0 := by decide +kernel

lemma isAdmissible_add {v w : Weight} (hv : v.isAdmissible) (hw : w.isAdmissible)
    (hsum : (v + w).isFinite) : isAdmissible (v + w) :=
  isAdmissible_iff.mpr
    ⟨hsum, Double.add_pos (isAdmissible_iff.mp hv).2 (isAdmissible_iff.mp hw).2⟩

end Weight

/-! ## Rules -/

namespace Rule

lemma totalWeight_singleton (source : Symbol) {a : Alternative} (h : a.weight.isAdmissible) :
    totalWeight ⟨source, [a]⟩ = a.weight :=
  Double.zero_add_of_pos (Weight.isAdmissible_iff.mp h).2

lemma valid_singleton (source : Symbol) {a : Alternative} (h : a.weight.isAdmissible) :
    Valid ⟨source, [a]⟩ := by
  constructor
  · exact List.cons_ne_nil _ _
  · exact List.forall_mem_singleton.mpr h
  · rwa [totalWeight_singleton source h]

lemma valid_deterministic (source : Symbol) (replacement : Sequence) :
    (deterministic source replacement).Valid :=
  valid_singleton source Weight.isAdmissible_one

lemma valid_of_single {source : Symbol} {a : Alternative} {rule : Rule}
    (h : single source a = .ok rule) : rule.source = source ∧ rule.Valid := by
  unfold single at h
  split at h
  · rename_i hweight
    cases h
    exact ⟨rfl, valid_singleton source hweight⟩
  · cases h

lemma source_of_push {rule result : Rule} {a : Alternative} (h : rule.push a = .ok result) :
    result.source = rule.source := by
  rw [eq_of_push_eq_ok h]

/-- The total that was checked is the total of the rule that results. -/
lemma Valid.push {rule result : Rule} {a : Alternative} (hrule : rule.Valid)
    (h : rule.push a = .ok result) : result.Valid := by
  have hresult := eq_of_push_eq_ok h
  unfold Rule.push at h
  split at h
  · rename_i hchecks
    obtain ⟨hweight, hsum⟩ := Bool.and_eq_true_iff.mp hchecks
    rw [hresult]
    constructor
    · exact List.append_ne_nil_of_right_ne_nil _ (List.cons_ne_nil _ _)
    · exact List.forall_mem_append.mpr
        ⟨hrule.isAdmissible_weight, List.forall_mem_singleton.mpr hweight⟩
    · rw [totalWeight_concat]
      exact Weight.isAdmissible_add hrule.isAdmissible_totalWeight hweight hsum
  · cases h

lemma valid_of_stochastic {source : Symbol} {as : List Alternative} {rule : Rule}
    (h : stochastic source as = .ok rule) : rule.source = source ∧ rule.Valid := by
  cases as with
  | nil => cases h
  | cons a as =>
    obtain ⟨first, hfirst, hrest⟩ := bind_eq_ok_iff.mp h
    refine foldlM_invariant (P := fun rule => rule.source = source ∧ rule.Valid) ?_
      (valid_of_single hfirst) hrest
    rintro rule a result ⟨hsource, hvalid⟩ hpush
    exact ⟨(source_of_push hpush).trans hsource, hvalid.push hpush⟩

end Rule

/-! ## Rule sets -/

namespace RuleSet

/-- What holds of a rule set however it was built. -/
structure Sound (set : RuleSet) : Prop where
  source_eq : ∀ {c rule}, set.lookup c = some rule → rule.source = c
  valid : ∀ {c rule}, set.lookup c = some rule → rule.Valid

lemma sound_empty : Sound ∅ := by
  constructor <;> (intro c rule h; rw [lookup_empty] at h; cases h)

lemma Sound.insert {set : RuleSet} (hset : set.Sound) {rule : Rule} (hrule : rule.Valid) :
    (set.insert rule).Sound := by
  constructor
  · intro c stored h
    rw [lookup_insert] at h
    split at h
    · rename_i hc
      cases h
      exact hc
    · exact hset.source_eq h
  · intro c stored h
    rw [lookup_insert] at h
    split at h
    · cases h
      exact hrule
    · exact hset.valid h

/-- Adding an alternative stores a valid rule under its source. -/
lemma Sound.exists_insert_of_add {set result : RuleSet} (hset : set.Sound) {c : Symbol}
    {a : Alternative} (h : set.add c a = .ok result) :
    ∃ rule, rule.Valid ∧ result = set.insert rule := by
  -- Whether the rule is extended or created, it is valid and is stored under the symbol.
  have hstored : ∃ rule, (rule.source = c ∧ rule.Valid) ∧
      result = ⟨set.rules.insert c rule⟩ := by
    unfold add at h
    cases hlookup : set.lookup c with
    | none =>
      rw [hlookup] at h
      obtain ⟨rule, hsingle, hresult⟩ := bind_eq_ok_iff.mp h
      exact ⟨rule, Rule.valid_of_single hsingle, (Except.ok.inj hresult).symm⟩
    | some old =>
      rw [hlookup] at h
      obtain ⟨rule, hpush, hresult⟩ := bind_eq_ok_iff.mp h
      have hsource := (Rule.source_of_push hpush).trans (hset.source_eq hlookup)
      exact ⟨rule, ⟨hsource, (hset.valid hlookup).push hpush⟩, (Except.ok.inj hresult).symm⟩
  obtain ⟨rule, ⟨rfl, hvalid⟩, hresult⟩ := hstored
  exact ⟨rule, hvalid, hresult⟩

lemma Sound.add {set result : RuleSet} (hset : set.Sound) {c : Symbol} {a : Alternative}
    (h : set.add c a = .ok result) : result.Sound := by
  obtain ⟨rule, hvalid, rfl⟩ := hset.exists_insert_of_add h
  exact hset.insert hvalid

lemma sound_of_ofTexts {rules : List String} {set : RuleSet} (h : ofTexts rules = .ok set) :
    set.Sound := by
  refine foldlM_invariant ?_ sound_empty h
  intro set rule result hset hadd
  obtain ⟨p, -, hadd⟩ := bind_eq_ok_iff.mp hadd
  exact hset.add hadd

lemma sound_of_ofListing {text : String} {set : RuleSet} (h : ofListing text = .ok set) :
    set.Sound := by
  obtain ⟨ps, -, hmerge⟩ := bind_eq_ok_iff.mp h
  refine foldlM_invariant ?_ sound_empty hmerge
  intro set p result hset hadd
  exact hset.add hadd

lemma sound_ofList {rules : List Rule} (h : ∀ rule ∈ rules, rule.Valid) :
    (ofList rules).Sound := by
  refine List.foldlRecOn rules insert sound_empty ?_
  intro set hset rule hrule
  exact hset.insert (h rule hrule)

/-! ### The rules of a sound set -/

lemma values_eq_map_snd {α β : Type} {cmp : α → α → Ordering} [Std.TransCmp cmp]
    (t : Std.ExtTreeMap α β cmp) : t.values = t.toList.map Prod.snd := by
  have hfold : t.values = t.foldr (fun _ v values => v :: values) [] := by
    obtain ⟨t⟩ := t
    induction t using Std.ExtDTreeMap.inductionOn with
    | mk t => rfl
  rw [hfold, Std.ExtTreeMap.foldr_eq_foldr_toList]
  induction t.toList with
  | nil => rfl
  | cons entry entries ih => rw [List.foldr_cons, List.map_cons, ih]

lemma mem_toList_iff {set : RuleSet} {rule : Rule} :
    rule ∈ set.toList ↔ ∃ c, set.lookup c = some rule := by
  rw [toList, values_eq_map_snd, List.mem_map]
  constructor
  · rintro ⟨⟨c, stored⟩, hmem, rfl⟩
    exact ⟨c, Std.ExtTreeMap.mem_toList_iff_getElem?_eq_some.mp hmem⟩
  · rintro ⟨c, hlookup⟩
    exact ⟨(c, rule), Std.ExtTreeMap.mem_toList_iff_getElem?_eq_some.mpr hlookup, rfl⟩

/-- The sources of the rules of a sound set are the keys under which they are stored. -/
lemma Sound.sources_eq_keys {set : RuleSet} (hset : set.Sound) :
    set.toList.map Rule.source = set.rules.keys := by
  rw [toList, values_eq_map_snd, List.map_map, ← Std.ExtTreeMap.map_fst_toList_eq_keys]
  apply List.map_congr_left
  rintro ⟨c, rule⟩ hmem
  exact hset.source_eq (Std.ExtTreeMap.mem_toList_iff_getElem?_eq_some.mp hmem)

lemma Sound.nodup_sources {set : RuleSet} (hset : set.Sound) :
    (set.toList.map Rule.source).Nodup := by
  rw [hset.sources_eq_keys]
  exact Std.ExtTreeMap.nodup_keys

end RuleSet

end LSystem
