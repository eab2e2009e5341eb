import LSystem.Proofs.Grammar.Lines
import LSystem.Proofs.Rule.Valid

/-!
# Ways to build a rule set

Rules can be merged from texts one by one, or from a listing that holds one text on each line; and
the alternatives of a rule can be added to a set one by one, or made into a rule that is then
stored.  Each of the two pairs comes to the same.

A listing is read as a whole before anything is merged, so a text that cannot be read and a weight
that cannot be added may be reported in another order; but if nothing is refused, the same
productions are merged (`RuleSet.ofListing_joined_eq_ok_iff`).  Adding alternatives makes the same
checks in the same order as building their rule, the first being checked alone in both, and so the
first refusal is the same as well (`RuleSet.foldlM_add_eq_map_stochastic`).
-/

namespace LSystem

namespace Listing

/-- A rule text that makes up a line of its own: it has no line break, and as a line it is neither
blank nor a comment. -/
structure IsLine (rule : String) : Prop where
  not_mem : '\n' ∉ rule.toList
  isEntry : isEntry rule.toList

instance (rule : String) : Decidable (IsLine rule) :=
  decidable_of_iff ('\n' ∉ rule.toList ∧ isEntry rule.toList)
    ⟨fun h => ⟨h.1, h.2⟩, fun h => ⟨h.not_mem, h.isEntry⟩⟩

lemma lines_joined {rules : List String} (h : ∀ rule ∈ rules, IsLine rule) (hne : rules ≠ []) :
    lines ("\n".intercalate rules) = rules.map String.toList := by
  have hbreak : ∀ line ∈ rules.map String.toList, '\n' ∉ line :=
    List.forall_mem_map.mpr fun rule hrule => (h rule hrule).not_mem
  rw [lines, String.toList_intercalate]
  exact List.splitOn_intercalate '\n' hbreak fun hnil => hne (List.map_eq_nil_iff.mp hnil)

/-- The entries of a text that is joined from lines are these lines. -/
lemma filter_isEntry_lines_joined {rules : List String} (h : ∀ rule ∈ rules, IsLine rule) :
    (lines ("\n".intercalate rules)).filter isEntry = rules.map String.toList := by
  cases rules with
  | nil =>
    rw [lines, String.toList_intercalate]
    rfl
  | cons rule rules =>
    rw [lines_joined h (List.cons_ne_nil _ _)]
    exact List.filter_eq_self.mpr (List.forall_mem_map.mpr fun rule hrule => (h rule hrule).isEntry)

/-- A text that is joined from lines is read exactly if all of them are. -/
lemma read_joined_eq_ok_iff {rules : List String} (h : ∀ rule ∈ rules, IsLine rule)
    {ps : List Production} :
    read ("\n".intercalate rules) = .ok ps ↔ rules.mapM Production.read = .ok ps := by
  rw [read_eq_ok_iff_lines, filter_isEntry_lines_joined h, List.map_map, mapM_eq_ok_iff]
  have hproduction : production ∘ String.toList = Production.read := by
    funext rule
    rw [Function.comp_apply, production, String.ofList_toList]
  rw [hproduction]

end Listing

namespace RuleSet

/-! ## Texts and listings -/

/-- What was merged was read before. -/
lemma exists_mapM_of_foldlM_addText {rules : List String} {set result : RuleSet}
    (h : rules.foldlM addText set = .ok result) : ∃ ps, rules.mapM Production.read = .ok ps := by
  refine exists_mapM_eq_ok_iff.mpr ?_
  induction rules generalizing set with
  | nil => exact nofun
  | cons rule rules ih =>
    rw [List.foldlM_cons, bind_eq_ok_iff] at h
    obtain ⟨set', hadd, hrest⟩ := h
    obtain ⟨p, hp, -⟩ := bind_eq_ok_iff.mp hadd
    exact List.forall_mem_cons.mpr ⟨⟨p, hp⟩, ih hrest⟩

/-- Merging texts and merging the listing of them give the same set, if they give one. -/
lemma ofListing_joined_eq_ok_iff {rules : List String} (h : ∀ rule ∈ rules, Listing.IsLine rule)
    {set : RuleSet} :
    ofListing ("\n".intercalate rules) = .ok set ↔ ofTexts rules = .ok set := by
  have hmerge : ∀ {ps}, rules.mapM Production.read = .ok ps →
      ofTexts rules = ps.foldlM addProduction ∅ :=
    fun hread => foldlM_bind_of_mapM_eq_ok hread
  rw [ofListing, bind_eq_ok_iff]
  simp only [Listing.read_joined_eq_ok_iff h]
  constructor
  · rintro ⟨ps, hread, hset⟩
    rwa [hmerge hread]
  · intro hset
    obtain ⟨ps, hread⟩ := exists_mapM_of_foldlM_addText hset
    exact ⟨ps, hread, hmerge hread ▸ hset⟩

/-! ## Alternatives one by one -/

lemma insert_insert {set : RuleSet} {rule rule' : Rule} (h : rule'.source = rule.source) :
    (set.insert rule).insert rule' = set.insert rule' := by
  apply ext_lookup
  intro c
  rw [lookup_insert, lookup_insert, lookup_insert, h]
  split <;> rfl

/-- Adding to a symbol without a rule stores the rule of that alternative. -/
lemma add_of_lookup_eq_none {set : RuleSet} {source : Symbol} (h : set.lookup source = none)
    (a : Alternative) : set.add source a = (Rule.single source a).map set.insert := by
  rw [add, h]
  change (Rule.single source a >>= fun rule => pure (⟨set.rules.insert source rule⟩ : RuleSet)) = _
  cases hsingle : Rule.single source a with
  | error e => rfl
  | ok rule =>
    have hsource := (Rule.valid_of_single hsingle).1
    rw [← hsource]
    rfl

/-- Adding to a symbol whose rule was stored last stores what that rule becomes. -/
lemma add_insert (set : RuleSet) (rule : Rule) (a : Alternative) :
    (set.insert rule).add rule.source a = (rule.push a).map set.insert := by
  rw [add, lookup_insert_self]
  change (rule.push a >>= fun rule' =>
    pure (⟨(set.insert rule).rules.insert rule.source rule'⟩ : RuleSet)) = _
  cases hpush : rule.push a with
  | error e => rfl
  | ok rule' =>
    have hsource := Rule.source_of_push hpush
    rw [← hsource]
    exact congrArg Except.ok (insert_insert hsource)

lemma foldlM_add_insert (set : RuleSet) (rule : Rule) (as : List Alternative) :
    as.foldlM (fun set a => set.add rule.source a) (set.insert rule) =
      (as.foldlM Rule.push rule).map set.insert := by
  induction as generalizing rule with
  | nil => rfl
  | cons a as ih =>
    rw [List.foldlM_cons, List.foldlM_cons, add_insert]
    cases hpush : rule.push a with
    | error e => rfl
    | ok rule' =>
      rw [← Rule.source_of_push hpush]
      exact ih rule'

/-- Adding alternatives to a symbol without a rule is building their rule and storing it. -/
lemma foldlM_add_eq_map_stochastic {set : RuleSet} {source : Symbol}
    (h : set.lookup source = none) {as : List Alternative} (hne : as ≠ []) :
    as.foldlM (fun set a => set.add source a) set =
      (Rule.stochastic source as).map set.insert := by
  obtain ⟨a, as, rfl⟩ := List.exists_cons_of_ne_nil hne
  rw [List.foldlM_cons, add_of_lookup_eq_none h, Rule.stochastic]
  cases hsingle : Rule.single source a with
  | error e => rfl
  | ok rule =>
    have hsource := (Rule.valid_of_single hsingle).1
    have hrest := foldlM_add_insert set rule as
    rw [hsource] at hrest
    exact hrest

/-- **The ways to build a rule set agree.**  Texts that make up a line each can be merged one after
the other or as a listing: the one gives a set exactly if the other does, and it is the same set.
Alternatives of a symbol can be added to an empty set one after the other, or made into a rule that
is stored: the outcome is the same, the set or the first refusal. -/
theorem constructions_agree :
    (∀ rules : List String, (∀ rule ∈ rules, Listing.IsLine rule) →
      ∀ set, ofTexts rules = .ok set ↔ ofListing ("\n".intercalate rules) = .ok set) ∧
    (∀ (source : Symbol) (as : List Alternative), as ≠ [] →
      as.foldlM (fun set a => set.add source a) ∅ =
        (Rule.stochastic source as).map (∅ : RuleSet).insert) := by
  constructor
  · intro rules h set
    exact (ofListing_joined_eq_ok_iff h).symm
  · intro source as hne
    exact foldlM_add_eq_map_stochastic (lookup_empty source) hne

/-- An arrow may stand in a replacement, and a third weight makes the total overflow. -/
theorem constructions_agree_of_overflow :
    let rules := ["X 2 -> F->", "\tA -> \r", "X 0.5->X#"]
    let as : List Alternative := [⟨1e308, ['A']⟩, ⟨5e307, []⟩, ⟨1e308, ['B']⟩, ⟨0.0, []⟩]
    (∃ set, ofListing "X 2 -> F->\n\tA -> \r\nX 0.5->X#" = .ok set ∧ ofTexts rules = .ok set) ∧
      as.foldlM (fun set a => set.add 'X' a) (∅ : RuleSet) =
        .error (Rule.weightError 'X' 1e308) := by
  intro rules as
  have hlines : ∀ rule ∈ rules, Listing.IsLine rule := by decide +kernel
  have hjoined : "\n".intercalate rules = "X 2 -> F->\n\tA -> \r\nX 0.5->X#" := by decide +kernel
  obtain ⟨set, hset⟩ : ∃ set, ofTexts rules = .ok set :=
    refusal?_eq_none_iff.mp (by decide +kernel)
  have hrefused : Rule.stochastic 'X' as = .error (Rule.weightError 'X' 1e308) :=
    refusal?_eq_some_iff.mp (by decide +kernel)
  obtain ⟨htexts, halternatives⟩ := constructions_agree
  refine ⟨⟨set, hjoined ▸ (htexts rules hlines set).mp hset, hset⟩, ?_⟩
  rw [halternatives 'X' as (List.cons_ne_nil _ _), hrefused]
  rfl

end RuleSet

end LSystem
