import Mathlib.Data.List.Forall2
import LSystem.Proofs.Grammar.Spelling
import LSystem.Proofs.Rule.Valid

/-!
# Merging rule texts

Rule texts are merged one after the other: the first text of a source creates a rule, and every
later one adds an alternative to it.  The two ways check weights differently, but they come to the
same.  A weight that was read is admissible, so the check of a single weight never refuses it, and
what is left is the total: it has to be finite with the new weight on top, and so it is if the
new weight is the only one.

Hence merging treats the symbols one by one, however their texts are interleaved.  The rule of a
symbol holds the alternatives of its own texts in order (`RuleSet.ruleFor`), and merging succeeds
exactly if all texts can be read and the running sums of the weights of each symbol are finite
(`RuleSet.Mergeable`).  `RuleSet.Merges.addText_cases` says what one more text does to a set, and
the rest is by induction on the texts from their end.
-/

namespace LSystem

namespace Production

/-- The alternative that a production adds to the rule of its source. -/
def alternative (p : Production) : Alternative := ⟨p.effectiveWeight, p.replacement⟩

/-- The weight of what was read is admissible, be it written or not. -/
lemma isAdmissible_weight_alternative {text : String} {p : Production} (h : read text = .ok p) :
    p.alternative.weight.isAdmissible := by
  obtain ⟨head, tail, -, hhead, -⟩ := read_eq_ok_iff.mp h
  change (p.weight.getD 1.0).isAdmissible
  rcases readHead_eq_ok_iff.mp hhead with ⟨-, hnone⟩ | ⟨token, w, -, hw, hsome⟩
  · rw [hnone]
    exact Weight.isAdmissible_one
  · rw [hsome]
    exact Weight.isAdmissible_of_read? hw

end Production

lemma Rule.cumulativeWeights_concat (source : Symbol) (as : List Alternative) (a : Alternative) :
    cumulativeWeights ⟨source, as ++ [a]⟩ =
      cumulativeWeights ⟨source, as⟩ ++ [totalWeight ⟨source, as ++ [a]⟩] := by
  have hfrom : ∀ sum, cumulativeFrom sum (as ++ [a]) =
      cumulativeFrom sum as ++ [(as ++ [a]).foldl (fun sum a => sum + a.weight) sum] := by
    induction as with
    | nil => exact fun sum => rfl
    | cons b as ih =>
      intro sum
      rw [List.cons_append, cumulativeFrom, cumulativeFrom, ih, List.foldl_cons, List.cons_append]
  exact hfrom 0.0

namespace RuleSet

/-! ## What texts make up -/

/-- The productions of rule texts; texts that cannot be read have none. -/
def productionsOf (texts : List String) : List Production :=
  texts.filterMap fun text => (Production.read text).toOption

/-- The alternatives that productions add to the rule of a symbol, in order. -/
def alternativesFor (c : Symbol) (ps : List Production) : List Alternative :=
  (ps.filter fun p => p.source = c).map Production.alternative

/-- The rule that productions make up for a symbol, if it is the source of any. -/
def ruleFor (c : Symbol) (ps : List Production) : Option Rule :=
  if alternativesFor c ps = [] then none else some ⟨c, alternativesFor c ps⟩

/-- The sum of the weights of the source of a production, up to that production. -/
def sumUpTo (before : List Production) (p : Production) : Weight :=
  Rule.totalWeight ⟨p.source, alternativesFor p.source (before ++ [p])⟩

/-- All texts can be read, and for each symbol the running sums of the weights are finite. -/
def Mergeable (texts : List String) : Prop :=
  (∀ text ∈ texts, ∃ p, Production.read text = .ok p) ∧
    ∀ c, ∀ sum ∈ Rule.cumulativeWeights ⟨c, alternativesFor c (productionsOf texts)⟩, sum.isFinite

/-- What is wrong with a rule text that comes after others. -/
inductive MergeFault (before : List String) (text : String) : GrammarError → Prop
  /-- It cannot be read. -/
  | unreadable {e : GrammarError} (h : Production.read text = .error e) :
    MergeFault before text e
  /-- Its weight makes the sum of the weights of its source infinite. -/
  | overflow {p : Production} (h : Production.read text = .ok p)
      (hsum : ¬(sumUpTo (productionsOf before) p).isFinite) :
    MergeFault before text (Rule.weightError p.source p.effectiveWeight)

lemma alternativesFor_concat (c : Symbol) (ps : List Production) (p : Production) :
    alternativesFor c (ps ++ [p]) =
      if p.source = c then alternativesFor c ps ++ [p.alternative] else alternativesFor c ps := by
  unfold alternativesFor
  by_cases h : p.source = c <;> simp [h]

lemma alternativesFor_source_concat (ps : List Production) (p : Production) :
    alternativesFor p.source (ps ++ [p]) = alternativesFor p.source ps ++ [p.alternative] := by
  rw [alternativesFor_concat, if_pos rfl]

/-- Productions of different sources may change places. -/
lemma alternativesFor_swap (c : Symbol) {p q : Production} (h : p.source ≠ q.source)
    (ps : List Production) :
    alternativesFor c (p :: q :: ps) = alternativesFor c (q :: p :: ps) := by
  unfold alternativesFor
  by_cases hp : p.source = c
  · have hq : q.source ≠ c := fun hq => h (hp.trans hq.symm)
    simp [hp, hq]
  · simp [List.filter_cons, hp]

lemma cumulativeWeights_source_concat (ps : List Production) (p : Production) :
    Rule.cumulativeWeights ⟨p.source, alternativesFor p.source (ps ++ [p])⟩ =
      Rule.cumulativeWeights ⟨p.source, alternativesFor p.source ps⟩ ++ [sumUpTo ps p] := by
  rw [sumUpTo, alternativesFor_source_concat, Rule.cumulativeWeights_concat]

section

variable {texts : List String} {text : String}

lemma productionsOf_concat {p : Production} (h : Production.read text = .ok p) :
    productionsOf (texts ++ [text]) = productionsOf texts ++ [p] := by
  simp [productionsOf, h, Except.toOption]

/-- Where all texts can be read, each has a production. -/
lemma forall₂_productionsOf (h : ∀ text ∈ texts, ∃ p, Production.read text = .ok p) :
    List.Forall₂ (fun text p => Production.read text = .ok p) texts (productionsOf texts) := by
  induction texts with
  | nil => exact .nil
  | cons text texts ih =>
    obtain ⟨⟨p, hp⟩, hrest⟩ := List.forall_mem_cons.mp h
    have hcons : productionsOf (text :: texts) = p :: productionsOf texts := by
      simp [productionsOf, hp, Except.toOption]
    rw [hcons]
    exact .cons hp (ih hrest)

/-- One more text can be merged if it is read and the sum up to it is finite. -/
lemma mergeable_concat {p : Production} (h : Production.read text = .ok p) :
    Mergeable (texts ++ [text]) ↔
      Mergeable texts ∧ (sumUpTo (productionsOf texts) p).isFinite := by
  have hread : (∀ t ∈ texts ++ [text], ∃ p, Production.read t = .ok p) ↔
      ∀ t ∈ texts, ∃ p, Production.read t = .ok p := by
    rw [List.forall_mem_append, List.forall_mem_singleton]
    exact and_iff_left ⟨p, h⟩
  -- Only the source of `p` has one more sum.
  have hsums : (∀ c, ∀ sum ∈ Rule.cumulativeWeights
        ⟨c, alternativesFor c (productionsOf texts ++ [p])⟩, sum.isFinite) ↔
      (∀ c, ∀ sum ∈ Rule.cumulativeWeights
        ⟨c, alternativesFor c (productionsOf texts)⟩, sum.isFinite) ∧
      (sumUpTo (productionsOf texts) p).isFinite := by
    have hsource := cumulativeWeights_source_concat (productionsOf texts) p
    have hother : ∀ c, p.source ≠ c → alternativesFor c (productionsOf texts ++ [p]) =
        alternativesFor c (productionsOf texts) := by
      intro c hc
      rw [alternativesFor_concat, if_neg hc]
    constructor
    · intro hfinite
      have hlast := hfinite p.source
      rw [hsource, List.forall_mem_append, List.forall_mem_singleton] at hlast
      refine ⟨fun c => ?_, hlast.2⟩
      by_cases hc : p.source = c
      · exact hc ▸ hlast.1
      · exact hother c hc ▸ hfinite c
    · rintro ⟨hfinite, hlast⟩ c
      by_cases hc : p.source = c
      · rw [← hc, hsource, List.forall_mem_append, List.forall_mem_singleton]
        exact ⟨hfinite _, hlast⟩
      · rw [hother c hc]
        exact hfinite c
  rw [Mergeable, productionsOf_concat h, hread, hsums, ← and_assoc]
  rfl

lemma mergeable_nil : Mergeable [] := by
  constructor
  · intro text htext
    cases htext
  · intro c sum hsum
    cases hsum

lemma not_mergeable_concat {before : List String} {e : GrammarError}
    (h : MergeFault before text e) : ¬Mergeable (before ++ [text]) := by
  cases h with
  | unreadable hread =>
    rintro ⟨hreadable, -⟩
    obtain ⟨p, hp⟩ := hreadable text (List.mem_append_right _ List.mem_cons_self)
    rw [hread] at hp
    cases hp
  | overflow hread hsum => exact fun hmergeable => hsum ((mergeable_concat hread).mp hmergeable).2

end

/-! ## Merging one by one -/

/-- The rules of a set are those that productions make up. -/
def Merges (set : RuleSet) (ps : List Production) : Prop := ∀ c, set.lookup c = ruleFor c ps

lemma merges_empty : Merges ∅ [] := lookup_empty

/-- Adding the alternative of a production checks nothing but the sum, and gives the set of one
more production. -/
lemma Merges.addProduction {set : RuleSet} {ps : List Production} (hset : set.Merges ps)
    {p : Production} (hweight : p.alternative.weight.isAdmissible) :
    (¬(sumUpTo ps p).isFinite →
      set.addProduction p = .error (Rule.weightError p.source p.effectiveWeight)) ∧
    ((sumUpTo ps p).isFinite →
      ∃ set', set.addProduction p = .ok set' ∧ set'.Merges (ps ++ [p])) := by
  -- Whether the rule is extended or created, the same rule is stored.
  have hstored : Merges ⟨set.rules.insert p.source
      ⟨p.source, alternativesFor p.source (ps ++ [p])⟩⟩ (ps ++ [p]) := by
    intro c
    refine (set.lookup_insert ⟨p.source, alternativesFor p.source (ps ++ [p])⟩ c).trans ?_
    by_cases hc : p.source = c
    · subst hc
      rw [if_pos rfl, ruleFor, if_neg (by simp [alternativesFor_source_concat])]
    · rw [if_neg hc, ruleFor, alternativesFor_concat, if_neg hc]
      exact hset c
  have hadd : set.addProduction p = set.add p.source p.alternative := rfl
  rw [hadd, add, hset p.source, ruleFor, sumUpTo]
  rw [alternativesFor_source_concat] at hstored ⊢
  by_cases hnone : alternativesFor p.source ps = []
  · have hfinite := (Weight.isAdmissible_iff.mp hweight).1
    rw [hnone, List.nil_append] at hstored ⊢
    rw [if_pos rfl, Rule.totalWeight_singleton p.source hweight, Rule.single, if_pos hweight]
    exact ⟨fun h => absurd hfinite h, fun _ => ⟨_, rfl, hstored⟩⟩
  · rw [if_neg hnone, Rule.totalWeight_concat]
    simp only [Rule.push, hweight, Bool.true_and]
    constructor
    · intro hsum
      rw [if_neg hsum]
      rfl
    · intro hsum
      rw [if_pos hsum]
      exact ⟨_, rfl, hstored⟩

/-- What one more text does to a merged set. -/
lemma Merges.addText_cases {set : RuleSet} {before : List String}
    (hset : set.Merges (productionsOf before)) (hbefore : Mergeable before) (text : String) :
    (∃ set', set.addText text = .ok set' ∧ set'.Merges (productionsOf (before ++ [text])) ∧
      Mergeable (before ++ [text])) ∨
    ∃ e, set.addText text = .error e ∧ MergeFault before text e := by
  cases hread : Production.read text with
  | error e =>
    exact .inr ⟨e, bind_eq_error_iff.mpr (.inl hread), .unreadable hread⟩
  | ok p =>
    have hadd : set.addText text = set.addProduction p := by rw [addText, hread]; rfl
    obtain ⟨hrefused, hdone⟩ :=
      hset.addProduction (Production.isAdmissible_weight_alternative hread)
    rw [hadd, productionsOf_concat hread, mergeable_concat hread]
    by_cases hsum : (sumUpTo (productionsOf before) p).isFinite
    · obtain ⟨set', hset', hmerges⟩ := hdone hsum
      exact .inl ⟨set', hset', hmerges, hbefore, hsum⟩
    · exact .inr ⟨_, hrefused hsum, .overflow hread hsum⟩

lemma MergeFault.unique {before : List String} {text : String} {e e' : GrammarError}
    (h : MergeFault before text e) (h' : MergeFault before text e') : e = e' := by
  cases h with
  | unreadable hread =>
    cases h' with
    | unreadable hread' => exact Except.error.inj (hread.symm.trans hread')
    | overflow hread' _ => rw [hread] at hread'; cases hread'
  | overflow hread hsum =>
    cases h' with
    | unreadable hread' => rw [hread] at hread'; cases hread'
    | overflow hread' _ =>
      cases hread.symm.trans hread'
      rfl

/-! ## Merging all -/

lemma ofTexts_concat (texts : List String) (text : String) :
    ofTexts (texts ++ [text]) = ofTexts texts >>= fun set => set.addText text := by
  rw [ofTexts, ofTexts, List.foldlM_append]
  simp

/-- Texts that can be merged are, and nothing else is. -/
lemma ofTexts_spec (texts : List String) :
    (Mergeable texts → ∃ set, ofTexts texts = .ok set) ∧
      ∀ set, ofTexts texts = .ok set → Mergeable texts ∧ set.Merges (productionsOf texts) := by
  induction texts using List.reverseRecOn with
  | nil =>
    refine ⟨fun _ => ⟨∅, rfl⟩, ?_⟩
    rintro set hset
    cases hset
    exact ⟨mergeable_nil, merges_empty⟩
  | append_singleton texts text ih =>
    obtain ⟨hsucceeds, hspec⟩ := ih
    rw [ofTexts_concat]
    constructor
    · intro hall
      have hbefore : Mergeable texts := by
        obtain ⟨p, hp⟩ := hall.1 text (List.mem_append_right _ List.mem_cons_self)
        exact ((mergeable_concat hp).mp hall).1
      obtain ⟨set, hset⟩ := hsucceeds hbefore
      rcases (hspec set hset).2.addText_cases hbefore text with ⟨set', hadd, -⟩ | ⟨e, -, hfault⟩
      · exact ⟨set', bind_eq_ok_iff.mpr ⟨set, hset, hadd⟩⟩
      · exact absurd hall (not_mergeable_concat hfault)
    · intro set' hset'
      obtain ⟨set, hset, hadd⟩ := bind_eq_ok_iff.mp hset'
      obtain ⟨hbefore, hmerges⟩ := hspec set hset
      rcases hmerges.addText_cases hbefore text with ⟨set'', hadd', hmerges', hall⟩ | ⟨e, herror, -⟩
      · cases hadd.symm.trans hadd'
        exact ⟨hall, hmerges'⟩
      · rw [hadd] at herror
        cases herror

/-- Merging is refused for the fault of the first text that has one. -/
lemma ofTexts_eq_error_iff {texts : List String} {e : GrammarError} :
    ofTexts texts = .error e ↔ ∃ before text after, texts = before ++ text :: after ∧
      Mergeable before ∧ MergeFault before text e := by
  have hstep : ∀ {before text}, Mergeable before →
      ((∃ set, ofTexts before = .ok set ∧ set.addText text = .error e) ↔
        MergeFault before text e) := by
    intro before text hbefore
    obtain ⟨set, hset⟩ := (ofTexts_spec before).1 hbefore
    have hcases := ((ofTexts_spec before).2 set hset).2.addText_cases hbefore text
    constructor
    · rintro ⟨set', hset', herror⟩
      cases hset.symm.trans hset'
      rcases hcases with ⟨set'', hadd, -⟩ | ⟨e', herror', hfault⟩
      · rw [herror] at hadd
        cases hadd
      · cases herror.symm.trans herror'
        exact hfault
    · intro hfault
      rcases hcases with ⟨set', -, -, hall⟩ | ⟨e', herror, hfault'⟩
      · exact absurd hall (not_mergeable_concat hfault)
      · exact ⟨set, hset, hfault.unique hfault' ▸ herror⟩
  rw [ofTexts, foldlM_eq_error_iff]
  constructor
  · rintro ⟨before, text, after, set, rfl, hset, herror⟩
    have hbefore := ((ofTexts_spec before).2 set hset).1
    exact ⟨before, text, after, rfl, hbefore, (hstep hbefore).mp ⟨set, hset, herror⟩⟩
  · rintro ⟨before, text, after, rfl, hbefore, hfault⟩
    obtain ⟨set, hset, herror⟩ := (hstep hbefore).mpr hfault
    exact ⟨before, text, after, set, rfl, hset, herror⟩

/-- Texts that make up the same rules are merged into the same set. -/
lemma ofTexts_eq_of_alternativesFor_eq {texts texts' : List String} {set : RuleSet}
    (h : ofTexts texts = .ok set) (hread : ∀ text ∈ texts', ∃ p, Production.read text = .ok p)
    (hsame : ∀ c, alternativesFor c (productionsOf texts') =
      alternativesFor c (productionsOf texts)) : ofTexts texts' = .ok set := by
  obtain ⟨hmergeable, hmerges⟩ := (ofTexts_spec texts).2 set h
  have hmergeable' : Mergeable texts' := by
    refine ⟨hread, fun c => ?_⟩
    rw [hsame c]
    exact hmergeable.2 c
  obtain ⟨set', hset'⟩ := (ofTexts_spec texts').1 hmergeable'
  have hmerges' := ((ofTexts_spec texts').2 set' hset').2
  have heq : set' = set := by
    apply ext_lookup
    intro c
    rw [hmerges' c, hmerges c, ruleFor, ruleFor, hsame c]
  rw [hset', heq]

/-- **Merging collects the alternatives of each symbol.**  It succeeds exactly if every text can be
read and all running sums of the weights of each symbol are finite.  Then each text has its
production, a symbol that is no source has no rule, and the rule of any other holds the alternatives
of its texts, in their order; so texts may be reordered as long as those of each symbol stay in
order.  Otherwise it is refused for what is wrong with the first text at fault. -/
theorem ofTexts_merges (texts : List String) :
    ((∃ set, ofTexts texts = .ok set) ↔ Mergeable texts) ∧
    (∀ set, ofTexts texts = .ok set →
      List.Forall₂ (fun text p => Production.read text = .ok p) texts (productionsOf texts) ∧
      (∀ c, set.lookup c = ruleFor c (productionsOf texts)) ∧
      ∀ texts', texts'.Perm texts →
        (∀ c, alternativesFor c (productionsOf texts') =
          alternativesFor c (productionsOf texts)) → ofTexts texts' = .ok set) ∧
    ∀ e, ofTexts texts = .error e ↔ ∃ before text after, texts = before ++ text :: after ∧
      Mergeable before ∧ MergeFault before text e := by
  refine ⟨⟨?_, (ofTexts_spec texts).1⟩, ?_, fun e => ofTexts_eq_error_iff⟩
  · rintro ⟨set, hset⟩
    exact ((ofTexts_spec texts).2 set hset).1
  · intro set hset
    obtain ⟨hmergeable, hmerges⟩ := (ofTexts_spec texts).2 set hset
    refine ⟨forall₂_productionsOf hmergeable.1, hmerges, fun texts' hperm hsame => ?_⟩
    apply ofTexts_eq_of_alternativesFor_eq hset _ hsame
    exact fun text htext => hmergeable.1 text (hperm.mem_iff.mp htext)

/-- Two sources in either order, and a weight too many before a text that cannot be read. -/
theorem ofTexts_merges_of_interleaved_sources :
    let texts := ["F 1 -> F+F", "A -> B", "F 3 -> F-F"]
    let refused := ["X 1e308 -> A", "Y ->", "X 1e308 -> B", "Z"]
    Mergeable texts ∧
    (∃ set, ofTexts texts = .ok set ∧ ofTexts ["A -> B", "F 1 -> F+F", "F 3 -> F-F"] = .ok set ∧
      set.lookup 'F' = some ⟨'F', [⟨1.0, ['F', '+', 'F']⟩, ⟨3.0, ['F', '-', 'F']⟩]⟩ ∧
      set.lookup 'B' = none) ∧
    ofTexts refused = .error (Rule.weightError 'X' 1e308) ∧
    ∃ before text after, refused = before ++ text :: after ∧ Mergeable before ∧
      MergeFault before text (Rule.weightError 'X' 1e308) := by
  intro texts refused
  obtain ⟨set, hset⟩ : ∃ set, ofTexts texts = .ok set :=
    refusal?_eq_none_iff.mp (by decide +kernel)
  obtain ⟨-, hlookup, hreorder⟩ := (ofTexts_merges texts).2.1 set hset
  have hF : ruleFor 'F' (productionsOf texts) =
      some ⟨'F', [⟨1.0, ['F', '+', 'F']⟩, ⟨3.0, ['F', '-', 'F']⟩]⟩ := by decide +kernel
  have hB : ruleFor 'B' (productionsOf texts) = none := by decide +kernel
  have hreordered : ofTexts ["A -> B", "F 1 -> F+F", "F 3 -> F-F"] = .ok set := by
    apply hreorder _ (.swap _ _ _)
    intro c
    have hread : productionsOf ["A -> B", "F 1 -> F+F", "F 3 -> F-F"] =
        [⟨'A', none, ['B']⟩, ⟨'F', some 1.0, ['F', '+', 'F']⟩,
          ⟨'F', some 3.0, ['F', '-', 'F']⟩] := by
      decide +kernel
    have hread' : productionsOf texts =
        [⟨'F', some 1.0, ['F', '+', 'F']⟩, ⟨'A', none, ['B']⟩,
          ⟨'F', some 3.0, ['F', '-', 'F']⟩] := by
      decide +kernel
    rw [hread, hread']
    exact alternativesFor_swap c (by decide) _
  have herror : ofTexts refused = .error (Rule.weightError 'X' 1e308) :=
    refusal?_eq_some_iff.mp (by decide +kernel)
  exact ⟨(ofTexts_merges texts).1.mp ⟨set, hset⟩,
    ⟨set, hset, hreordered, (hlookup 'F').trans hF, (hlookup 'B').trans hB⟩, herror,
    ((ofTexts_merges refused).2.2 _).mp herror⟩

end RuleSet

end LSystem
