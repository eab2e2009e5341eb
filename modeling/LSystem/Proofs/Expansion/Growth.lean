import Mathlib.Algebra.Order.BigOperators.Group.Finset
import Mathlib.Data.Matrix.Mul
import LSystem.Proofs.Expansion.Deterministic
import LSystem.Proofs.Expansion.Generations

/-!
# How expansions grow

What a symbol is replaced by is one of its images, so the number of copies of another symbol that it
leaves lies between the fewest and the most over these images.  Summed over the occurrences of a
sequence, this bounds what a pass leaves of each symbol by two matrices of such numbers, applied to
the vector of counts (`RuleSet.mulVec_fewest_le_counts_step`,
`RuleSet.counts_step_le_mulVec_most`).  Both matrices are monotone, so the bounds carry over to any
number of passes, as powers.

If there is no choice, each symbol has one image, both matrices are the same, and the counts follow
its powers exactly.
-/

open scoped Matrix

namespace LSystem

/-- There are finitely many symbols. -/
noncomputable instance : Fintype Symbol :=
  .ofInjective Char.val fun _ _ h => Char.ext h

namespace Sequence

/-- How often each symbol occurs. -/
def counts (cs : Sequence) : Symbol → ℕ := fun x => cs.count x

lemma sum_map_eq_sum_counts (cs : Sequence) (f : Symbol → ℕ) :
    (cs.map f).sum = ∑ c, f c * cs.counts c := by
  rw [Finset.sum_list_map_count]
  refine (Finset.sum_subset (Finset.subset_univ _) fun c _ hc => ?_).trans ?_
  · rw [List.count_eq_zero_of_not_mem (mt List.mem_toFinset.mpr hc), zero_smul]
  · exact Finset.sum_congr rfl fun c _ => mul_comm _ _

lemma length_eq_sum_counts (cs : Sequence) : cs.length = ∑ x, cs.counts x := by
  have hsum := sum_map_eq_sum_counts cs fun _ => 1
  simpa using hsum

end Sequence

namespace RuleSet

variable {set : RuleSet}

/-- What a symbol may be replaced by. -/
def images (set : RuleSet) (c : Symbol) : List Sequence :=
  match set.lookup c with
  | some rule => rule.alternatives.map Alternative.replacement
  | none => [[c]]

/-- The fewest copies of `x` that a `c` is replaced by; none if its rule has no alternative. -/
def fewest (set : RuleSet) : Matrix Symbol Symbol ℕ := fun x c =>
  ((set.images c).map (List.count x)).min?.getD 0

/-- The most copies of `x` that a `c` is replaced by; none if its rule has no alternative. -/
def most (set : RuleSet) : Matrix Symbol Symbol ℕ := fun x c =>
  ((set.images c).map (List.count x)).max?.getD 0

/-- The copies of `x` that a `c` is replaced by without a choice. -/
def growth (set : RuleSet) : Matrix Symbol Symbol ℕ := fun x c => (set.image c).count x

/-! ## One pass -/

lemma images_of_lookup_eq_none {c : Symbol} (h : set.lookup c = none) : set.images c = [[c]] := by
  rw [images, h]

lemma images_of_lookup_eq_some {c : Symbol} {rule : Rule} (h : set.lookup c = some rule) :
    set.images c = rule.alternatives.map Alternative.replacement := by
  rw [images, h]

/-- What a symbol is replaced by is one of its images, if it has any. -/
lemma successor_mem_images {c : Symbol} (h : set.images c ≠ []) (s : DrawStream) :
    (set.successor c s).1 ∈ set.images c := by
  cases hlookup : set.lookup c with
  | none =>
    rw [successor_of_lookup_eq_none hlookup, images_of_lookup_eq_none hlookup]
    exact List.mem_cons_self
  | some rule =>
    rw [images_of_lookup_eq_some hlookup] at h ⊢
    rw [successor_of_lookup_eq_some hlookup]
    obtain ⟨a, ha, hselect⟩ := Rule.exists_select_eq (fun hnil => h (by rw [hnil]; rfl)) s
    exact List.mem_map.mpr ⟨a, ha, hselect.symm⟩

lemma successor_of_images_eq_nil {c : Symbol} (h : set.images c = []) (s : DrawStream) :
    (set.successor c s).1 = [] := by
  cases hlookup : set.lookup c with
  | none =>
    rw [images_of_lookup_eq_none hlookup] at h
    cases h
  | some rule =>
    rw [images_of_lookup_eq_some hlookup] at h
    rw [successor_of_lookup_eq_some hlookup,
      Rule.select_of_alternatives_eq_nil (List.map_eq_nil_iff.mp h)]

lemma fewest_le_count_le_most {c : Symbol} {cs : Sequence} (h : cs ∈ set.images c) (x : Symbol) :
    set.fewest x c ≤ cs.count x ∧ cs.count x ≤ set.most x c := by
  have hmem : cs.count x ∈ (set.images c).map (List.count x) := List.mem_map_of_mem h
  exact ⟨List.min?_getD_le_of_mem hmem, List.le_max?_getD_of_mem hmem⟩

lemma fewest_le_count_successor_le_most (set : RuleSet) (x c : Symbol) (s : DrawStream) :
    set.fewest x c ≤ (set.successor c s).1.count x ∧
      (set.successor c s).1.count x ≤ set.most x c := by
  by_cases h : set.images c = []
  · rw [successor_of_images_eq_nil h, fewest, most, h]
    exact ⟨le_rfl, le_rfl⟩
  · exact fewest_le_count_le_most (successor_mem_images h s) x

/-- A pass adds up what the occurrences leave, each on the draws that come to it. -/
lemma sum_fewest_le_count_step_le_sum_most (cs : Sequence) (s : DrawStream) (x : Symbol) :
    (cs.map (set.fewest x)).sum ≤ (set.step cs s).1.count x ∧
      (set.step cs s).1.count x ≤ (cs.map (set.most x)).sum := by
  induction cs generalizing s with
  | nil => exact ⟨le_rfl, le_rfl⟩
  | cons c cs ih =>
    have hhead := fewest_le_count_successor_le_most set x c s
    have htail := ih (set.successor c s).2
    rw [step_cons, List.count_append, List.map_cons, List.sum_cons, List.map_cons, List.sum_cons]
    exact ⟨add_le_add hhead.1 htail.1, add_le_add hhead.2 htail.2⟩

lemma mulVec_fewest_le_counts_step (cs : Sequence) (s : DrawStream) :
    set.fewest *ᵥ cs.counts ≤ (set.step cs s).1.counts := fun x =>
  (cs.sum_map_eq_sum_counts (set.fewest x)).symm.trans_le
    (sum_fewest_le_count_step_le_sum_most cs s x).1

lemma counts_step_le_mulVec_most (cs : Sequence) (s : DrawStream) :
    (set.step cs s).1.counts ≤ set.most *ᵥ cs.counts := fun x =>
  (sum_fewest_le_count_step_le_sum_most cs s x).2.trans_eq
    (cs.sum_map_eq_sum_counts (set.most x))

/-! ## Any number of passes -/

lemma mulVec_mono (M : Matrix Symbol Symbol ℕ) : Monotone M.mulVec := fun _ _ h _ =>
  Finset.sum_le_sum fun c _ => Nat.mul_le_mul_left _ (h c)

lemma pow_succ_mulVec (M : Matrix Symbol Symbol ℕ) (n : ℕ) (v : Symbol → ℕ) :
    M ^ (n + 1) *ᵥ v = M *ᵥ (M ^ n *ᵥ v) := by
  rw [pow_succ', Matrix.mulVec_mulVec]

/-- The last pass of an expansion works on what the passes before it gave. -/
lemma expand_succ_eq_step (n : Nat) (cs : Sequence) (s : DrawStream) :
    set.expand (n + 1) cs s = set.step (set.expand n cs s).1 (set.expand n cs s).2 := by
  rw [expand_add]
  rfl

lemma pow_fewest_mulVec_le_counts_expand (n : ℕ) (cs : Sequence) (s : DrawStream) :
    set.fewest ^ n *ᵥ cs.counts ≤ (set.expand n cs s).1.counts := by
  induction n with
  | zero => rw [pow_zero, Matrix.one_mulVec, expand_zero]
  | succ n ih =>
    rw [pow_succ_mulVec, expand_succ_eq_step]
    exact (mulVec_mono _ ih).trans (mulVec_fewest_le_counts_step _ _)

lemma counts_expand_le_pow_most_mulVec (n : ℕ) (cs : Sequence) (s : DrawStream) :
    (set.expand n cs s).1.counts ≤ set.most ^ n *ᵥ cs.counts := by
  induction n with
  | zero => rw [pow_zero, Matrix.one_mulVec, expand_zero]
  | succ n ih =>
    rw [pow_succ_mulVec, expand_succ_eq_step]
    exact (counts_step_le_mulVec_most _ _).trans (mulVec_mono _ ih)

/-! ## Without a choice -/

lemma images_of_isDeterministic (h : set.isDeterministic) (c : Symbol) :
    set.images c = [set.image c] := by
  cases hlookup : set.lookup c with
  | none => rw [images_of_lookup_eq_none hlookup, image_of_lookup_eq_none hlookup]
  | some rule =>
    have honly := isDeterministic_of_lookup h hlookup
    obtain ⟨only, honly⟩ := List.length_eq_one_iff.mp (beq_iff_eq.mp honly)
    rw [images_of_lookup_eq_some hlookup, image_of_lookup_eq_some hlookup, Rule.firstReplacement,
      honly]
    rfl

lemma fewest_of_isDeterministic (h : set.isDeterministic) : set.fewest = set.growth := by
  funext x c
  rw [fewest, growth, images_of_isDeterministic h]
  rfl

lemma most_of_isDeterministic (h : set.isDeterministic) : set.most = set.growth := by
  funext x c
  rw [most, growth, images_of_isDeterministic h]
  rfl

/-! ## The growth law -/

lemma exists_count_eq_fewest {c : Symbol} (h : set.images c ≠ []) (x : Symbol) :
    ∃ cs ∈ set.images c, cs.count x = set.fewest x c := by
  have hcounts : (set.images c).map (List.count x) ≠ [] := mt List.map_eq_nil_iff.mp h
  obtain ⟨k, hk⟩ := Option.isSome_iff_exists.mp (List.isSome_min?_of_ne_nil hcounts)
  rw [fewest, hk]
  exact List.mem_map.mp (List.min?_mem hk)

lemma exists_count_eq_most {c : Symbol} (h : set.images c ≠ []) (x : Symbol) :
    ∃ cs ∈ set.images c, cs.count x = set.most x c := by
  have hcounts : (set.images c).map (List.count x) ≠ [] := mt List.map_eq_nil_iff.mp h
  obtain ⟨k, hk⟩ := Option.isSome_iff_exists.mp (List.isSome_max?_of_ne_nil hcounts)
  rw [most, hk]
  exact List.mem_map.mp (List.max?_mem hk)

lemma fewest_most_of_lookup_eq_none {c : Symbol} (h : set.lookup c = none) (x : Symbol) :
    set.fewest x c = (if x = c then 1 else 0) ∧ set.most x c = if x = c then 1 else 0 := by
  have hcount : [c].count x = if x = c then 1 else 0 := by
    by_cases hxc : x = c
    · rw [if_pos hxc, hxc, List.count_singleton_self]
    · rw [if_neg hxc, List.count_eq_zero_of_not_mem (mt List.mem_singleton.mp hxc)]
  rw [fewest, most, images_of_lookup_eq_none h, ← hcount]
  exact ⟨rfl, rfl⟩

lemma fewest_most_of_lookup_eq_some {c : Symbol} {rule : Rule} (h : set.lookup c = some rule)
    (halternatives : rule.alternatives ≠ []) (x : Symbol) :
    IsLeast {k | ∃ a ∈ rule.alternatives, a.replacement.count x = k} (set.fewest x c) ∧
      IsGreatest {k | ∃ a ∈ rule.alternatives, a.replacement.count x = k} (set.most x c) := by
  have himages := images_of_lookup_eq_some h
  have hne : set.images c ≠ [] := by
    rw [himages]
    exact mt List.map_eq_nil_iff.mp halternatives
  have hset : {k | ∃ a ∈ rule.alternatives, a.replacement.count x = k} =
      {k | ∃ cs ∈ set.images c, cs.count x = k} := by
    simp only [himages, List.mem_map, exists_exists_and_eq_and]
  rw [hset]
  refine ⟨⟨exists_count_eq_fewest hne x, ?_⟩, exists_count_eq_most hne x, ?_⟩
  · rintro k ⟨cs, hcs, rfl⟩
    exact (fewest_le_count_le_most hcs x).1
  · rintro k ⟨cs, hcs, rfl⟩
    exact (fewest_le_count_le_most hcs x).2

/-- **The growth law.**  Let `fewest x c` and `most x c` be the least and the greatest number of
copies of `x` over the alternatives of the rule of `c`; a symbol without a rule leaves one copy of
itself.  Whatever the draws are, each generation has at least as many copies of `x` as the
generation before it accounts for at the fewest, and at most as many as it accounts for at the
most.  So the counts after `n` generations lie between the `n`-th powers of the two matrices,
applied to the counts of the seed, and the length lies between the sums.  Without a choice both
matrices are the same, and all the bounds are reached. -/
theorem expand_growth (set : RuleSet) (seed : Sequence) (s : DrawStream) :
    (∀ c, set.lookup c = none → ∀ x,
      set.fewest x c = (if x = c then 1 else 0) ∧ set.most x c = if x = c then 1 else 0) ∧
    (∀ c rule, set.lookup c = some rule → rule.alternatives ≠ [] → ∀ x,
      IsLeast {k | ∃ a ∈ rule.alternatives, a.replacement.count x = k} (set.fewest x c) ∧
        IsGreatest {k | ∃ a ∈ rule.alternatives, a.replacement.count x = k} (set.most x c)) ∧
    let v := fun n x => (set.expand n seed s).1.count x
    (∀ n x, ∑ c, set.fewest x c * v n c ≤ v (n + 1) x ∧
      v (n + 1) x ≤ ∑ c, set.most x c * v n c) ∧
    (∀ n, set.fewest ^ n *ᵥ v 0 ≤ v n ∧ v n ≤ set.most ^ n *ᵥ v 0) ∧
    (∀ n, ∑ x, (set.fewest ^ n *ᵥ v 0) x ≤ (set.expand n seed s).1.length ∧
      (set.expand n seed s).1.length ≤ ∑ x, (set.most ^ n *ᵥ v 0) x) ∧
    (set.isDeterministic → set.fewest = set.growth ∧ set.most = set.growth ∧
      (∀ n x, v (n + 1) x = ∑ c, set.growth x c * v n c) ∧
      (∀ n, v n = set.growth ^ n *ᵥ v 0) ∧
      ∀ n, (set.expand n seed s).1.length = ∑ x, (set.growth ^ n *ᵥ v 0) x) := by
  refine ⟨fun c h => fewest_most_of_lookup_eq_none h,
    fun c rule h halternatives => fewest_most_of_lookup_eq_some h halternatives, ?_⟩
  intro v
  have hpass (n : ℕ) (x : Symbol) : ∑ c, set.fewest x c * v n c ≤ v (n + 1) x ∧
      v (n + 1) x ≤ ∑ c, set.most x c * v n c := by
    simp only [v, expand_succ_eq_step]
    exact ⟨mulVec_fewest_le_counts_step _ _ x, counts_step_le_mulVec_most _ _ x⟩
  have hpasses (n : ℕ) : set.fewest ^ n *ᵥ v 0 ≤ v n ∧ v n ≤ set.most ^ n *ᵥ v 0 :=
    ⟨pow_fewest_mulVec_le_counts_expand n seed s, counts_expand_le_pow_most_mulVec n seed s⟩
  have hlength (n : ℕ) : (set.expand n seed s).1.length = ∑ x, v n x :=
    Sequence.length_eq_sum_counts _
  refine ⟨hpass, hpasses, fun n => ?_, fun h => ?_⟩
  · rw [hlength]
    exact ⟨Finset.sum_le_sum fun x _ => (hpasses n).1 x,
      Finset.sum_le_sum fun x _ => (hpasses n).2 x⟩
  · have hfewest := fewest_of_isDeterministic h
    have hmost := most_of_isDeterministic h
    rw [hfewest, hmost] at hpass hpasses
    have hclosed (n : ℕ) : v n = set.growth ^ n *ᵥ v 0 := le_antisymm (hpasses n).2 (hpasses n).1
    refine ⟨hfewest, hmost, fun n x => le_antisymm (hpass n x).2 (hpass n x).1, hclosed,
      fun n => ?_⟩
    rw [hlength, hclosed]

/-- Drawing three segments for each, a sequence has three times as many after each pass. -/
theorem expand_growth_of_tripling :
    let set := ofList [.deterministic 'F' ['F', '+', 'F', '-', 'F']]
    set.isDeterministic ∧ ∀ n s, (set.expand n ['F'] s).1.count 'F' = 3 ^ n := by
  intro set
  have hdeterministic : set.isDeterministic := by decide +kernel
  have hlookup (c : Symbol) : set.lookup c =
      if 'F' = c then some (.deterministic 'F' ['F', '+', 'F', '-', 'F']) else none :=
    lookup_insert ∅ _ c
  have hzero (c : Symbol) (hc : c ≠ 'F') : set.growth 'F' c = 0 := by
    have hterminal : set.lookup c = none := by rw [hlookup, if_neg hc.symm]
    rw [growth, image_of_lookup_eq_none hterminal,
      List.count_eq_zero_of_not_mem (mt List.mem_singleton.mp hc.symm)]
  have hthree : set.growth 'F' 'F' = 3 := by decide +kernel
  refine ⟨hdeterministic, fun n s => ?_⟩
  obtain ⟨-, -, -, -, -, hgrowth⟩ := expand_growth set ['F'] s
  obtain ⟨-, -, hpass, -, -⟩ := hgrowth hdeterministic
  induction n with
  | zero => rfl
  | succ n ih =>
    refine (hpass n 'F').trans ((Finset.sum_eq_single 'F' ?_ ?_).trans ?_)
    · intro c _ hc
      rw [hzero c hc, zero_mul]
    · exact fun h => absurd (Finset.mem_univ _) h
    · rw [hthree, pow_succ', ← ih]

end RuleSet

end LSystem
