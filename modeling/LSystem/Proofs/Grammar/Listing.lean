import Mathlib.Data.List.Range
import LSystem.Proofs.Traversal
import LSystem.RuleSet

/-!
# Which fault of a listing is reported

A listing can be at fault in two ways: a line cannot be read, or what it holds cannot be added to
the rules of the lines before it, because the total weight would overflow.  If the lines were merged
one after the other, the first line that is at fault in either way would be reported, with its
number (`FirstFault`).

All lines are read before any is merged, so it is not quite that.  Only faults of reading get a
number, in `Listing.readLine`; merging knows of productions and not of lines.  A first fault of
reading is reported as it should be.  Where the first fault is one of merging, a later line that
cannot be read is reported in its place, and if there is none, the cause is reported without its
line.
-/

namespace LSystem

namespace Listing

/-- The lines of a text that hold a production, each with its number. -/
def entries (text : String) : List (List Char × Nat) :=
  (numberedLines text).filter fun line => !isSkipped line.1

/-- The production on a line, or what is wrong with it. -/
def lineProduction (line : List Char × Nat) : Except GrammarError Production :=
  Production.read (String.ofList line.1)

/-- Adds the production on a line to the rules of the lines before it. -/
def addLine (set : RuleSet) (line : List Char × Nat) : Except GrammarError RuleSet :=
  lineProduction line >>= set.addProduction

/-- Line `n` is the first that cannot be read, for that cause. -/
def FirstUnreadable (text : String) (n : Nat) (cause : GrammarError) : Prop :=
  ∃ before line after, entries text = before ++ line :: after ∧
    (∀ l ∈ before, ∃ p, lineProduction l = .ok p) ∧
    line.2 = n ∧ lineProduction line = .error cause

/-- Line `n` is the first that cannot be read or cannot be merged, for that cause. -/
def FirstFault (text : String) (n : Nat) (cause : GrammarError) : Prop :=
  ∃ before line after set, entries text = before ++ line :: after ∧
    before.foldlM addLine ∅ = .ok set ∧ line.2 = n ∧ addLine set line = .error cause

/-- A first fault can be shown by merging the lines up to it, and those before it. -/
lemma firstFault_of_refusal? {text : String} {before after : List (List Char × Nat)}
    {line : List Char × Nat} {cause : GrammarError}
    (hentries : entries text = before ++ line :: after)
    (hbefore : refusal? (before.foldlM addLine ∅) = none)
    (hline : refusal? ((before ++ [line]).foldlM addLine ∅) = some cause) :
    FirstFault text line.2 cause := by
  obtain ⟨set, hmerged⟩ := refusal?_eq_none_iff.mp hbefore
  rw [refusal?_eq_some_iff, List.foldlM_append, hmerged] at hline
  refine ⟨before, line, after, set, hentries, hmerged, rfl, ?_⟩
  change addLine set line >>= pure = .error cause at hline
  rcases bind_eq_error_iff.mp hline with hline | ⟨_, -, hpure⟩
  · exact hline
  · cases hpure

/-! ## Lines -/

/-- Lines are numbered in their order, also if some are skipped. -/
lemma pairwise_lt_entries (text : String) : (entries text).Pairwise (·.2 < ·.2) := by
  have hnumbered : (numberedLines text).Pairwise (·.2 < ·.2) := by
    rw [numberedLines, ← List.pairwise_map (f := Prod.snd), List.zipIdx_map_snd]
    exact List.pairwise_lt_range'
  exact hnumbered.filter _

lemma readLine_eq_ok_iff {line : List Char × Nat} {p : Production} :
    readLine line = .ok p ↔ lineProduction line = .ok p := by
  rw [readLine, lineProduction]
  cases Production.read (String.ofList line.1) <;> simp [Except.mapError]

lemma readLine_eq_error {line : List Char × Nat} {cause : GrammarError}
    (h : lineProduction line = .error cause) : readLine line = .error (.atLine line.2 cause) := by
  rw [lineProduction] at h
  rw [readLine, h]
  rfl

/-! ## Reading -/

lemma read_of_firstUnreadable {text : String} {n : Nat} {cause : GrammarError}
    (h : FirstUnreadable text n cause) : read text = .error (.atLine n cause) := by
  obtain ⟨before, line, after, hentries, hbefore, rfl, hline⟩ := h
  refine mapM_eq_error_iff.mpr ⟨before, line, after, hentries, ?_, readLine_eq_error hline⟩
  intro l hl
  obtain ⟨p, hp⟩ := hbefore l hl
  exact ⟨p, readLine_eq_ok_iff.mpr hp⟩

/-- If no line is the first that cannot be read, all lines can be. -/
lemma exists_mapM_of_not_firstUnreadable {text : String}
    (h : ∀ n cause, ¬FirstUnreadable text n cause) :
    ∃ ps, (entries text).mapM lineProduction = .ok ps := by
  cases hread : (entries text).mapM lineProduction with
  | ok ps => exact ⟨ps, rfl⟩
  | error cause =>
    obtain ⟨before, line, after, hentries, hbefore, hline⟩ := mapM_eq_error_iff.mp hread
    exact absurd ⟨before, line, after, hentries, hbefore, rfl, hline⟩ (h line.2 cause)

lemma read_eq_ok_iff {text : String} {ps : List Production} :
    read text = .ok ps ↔ (entries text).mapM lineProduction = .ok ps := by
  change (entries text).mapM readLine = .ok ps ↔ _
  induction entries text generalizing ps with
  | nil => rfl
  | cons line lines ih =>
    rw [mapM_eq_ok_cons_iff, mapM_eq_ok_cons_iff]
    simp only [readLine_eq_ok_iff, ih]

/-! ## Merging -/

/-- Where all lines can be read, merging what was read is merging line by line. -/
lemma ofListing_of_mapM_eq_ok {text : String} {ps : List Production}
    (h : (entries text).mapM lineProduction = .ok ps) :
    RuleSet.ofListing text = (entries text).foldlM addLine ∅ := by
  rw [RuleSet.ofListing, read_eq_ok_iff.mpr h]
  exact (foldlM_bind_of_mapM_eq_ok h).symm

lemma ofListing_of_firstUnreadable {text : String} {n : Nat} {cause : GrammarError}
    (h : FirstUnreadable text n cause) : RuleSet.ofListing text = .error (.atLine n cause) := by
  rw [RuleSet.ofListing, read_of_firstUnreadable h]
  rfl

/-- What is merged has been read. -/
lemma exists_lineProduction_of_foldlM {lines : List (List Char × Nat)} {set result : RuleSet}
    (h : lines.foldlM addLine set = .ok result) : ∀ l ∈ lines, ∃ p, lineProduction l = .ok p := by
  induction lines generalizing set with
  | nil => exact fun _ hl => nomatch hl
  | cons line lines ih =>
    rw [List.foldlM_cons, bind_eq_ok_iff] at h
    obtain ⟨set', hline, hrest⟩ := h
    obtain ⟨p, hp, -⟩ := bind_eq_ok_iff.mp hline
    exact List.forall_mem_cons.mpr ⟨⟨p, hp⟩, ih hrest⟩

lemma addLine_eq_error {set : RuleSet} {line : List Char × Nat} {cause : GrammarError}
    (h : lineProduction line = .error cause) : addLine set line = .error cause :=
  bind_eq_error_iff.mpr (.inl h)

/-- The first fault is not after the first fault of reading. -/
lemma FirstFault.le_firstUnreadable {text : String} {n m : Nat} {cause cause' : GrammarError}
    (hfault : FirstFault text n cause) (hunreadable : FirstUnreadable text m cause') :
    n < m ∨ n = m ∧ cause = cause' := by
  obtain ⟨before, line, after, set, hentries, hmerged, rfl, hline⟩ := hfault
  obtain ⟨before', line', after', hentries', hread, rfl, hline'⟩ := hunreadable
  have hbefore := exists_lineProduction_of_foldlM hmerged
  rcases List.append_eq_append_iff.mp (hentries.symm.trans hentries') with
    ⟨between, hsplit, hrest⟩ | ⟨between, hsplit, hrest⟩
  · cases between with
    | nil =>
      cases hrest
      exact .inr ⟨rfl, Except.error.inj (hline.symm.trans (addLine_eq_error hline'))⟩
    | cons l between =>
      obtain ⟨rfl, hafter⟩ := List.cons.inj hrest
      have hsorted := pairwise_lt_entries text
      rw [hentries, hafter] at hsorted
      have hlater := (List.pairwise_cons.mp (List.pairwise_append.mp hsorted).2.1).1
      exact .inl (hlater line' (List.mem_append_right _ List.mem_cons_self))
  · cases between with
    | nil =>
      cases hrest
      exact .inr ⟨rfl, Except.error.inj (hline.symm.trans (addLine_eq_error hline'))⟩
    | cons l between =>
      -- The line that cannot be read would be one of those that have been merged.
      obtain ⟨rfl, -⟩ := List.cons.inj hrest
      obtain ⟨p, hp⟩ := hbefore line' (hsplit ▸ List.mem_append_right _ List.mem_cons_self)
      rw [hp] at hline'
      cases hline'

lemma exists_firstFault_iff {text : String} :
    (∃ n cause, FirstFault text n cause) ↔
      ∃ cause, (entries text).foldlM addLine ∅ = .error cause := by
  constructor
  · rintro ⟨n, cause, before, line, after, set, hentries, hmerged, -, hline⟩
    exact ⟨cause, foldlM_eq_error_iff.mpr ⟨before, line, after, set, hentries, hmerged, hline⟩⟩
  · rintro ⟨cause, h⟩
    obtain ⟨before, line, after, set, hentries, hmerged, hline⟩ := foldlM_eq_error_iff.mp h
    exact ⟨line.2, cause, before, line, after, set, hentries, hmerged, rfl, hline⟩

/-- A listing is refused exactly if a line of it is at fault. -/
lemma exists_ofListing_eq_error_iff {text : String} :
    (∃ e, RuleSet.ofListing text = .error e) ↔ ∃ n cause, FirstFault text n cause := by
  rw [exists_firstFault_iff]
  by_cases hunreadable : ∃ n cause, FirstUnreadable text n cause
  · obtain ⟨n, cause, h⟩ := hunreadable
    have hmerged : ∀ set, (entries text).foldlM addLine ∅ ≠ .ok set := by
      intro set hset
      obtain ⟨before, line, after, hentries, -, -, hline⟩ := h
      have hmem : line ∈ entries text := by simp [hentries]
      obtain ⟨p, hp⟩ := exists_lineProduction_of_foldlM hset line hmem
      rw [hp] at hline
      cases hline
    constructor
    · intro _
      cases hmerge : (entries text).foldlM addLine ∅ with
      | ok set => exact absurd hmerge (hmerged set)
      | error cause => exact ⟨cause, rfl⟩
    · exact fun _ => ⟨_, ofListing_of_firstUnreadable h⟩
  · obtain ⟨ps, hread⟩ := exists_mapM_of_not_firstUnreadable
      fun n cause h => hunreadable ⟨n, cause, h⟩
    rw [ofListing_of_mapM_eq_ok hread]

/-- **What is reported of a listing.**  A listing is refused exactly if a line of it is at fault.
The first line at fault is reported, with its number, exactly if it is one that cannot be read.
Otherwise the first line that cannot be read is reported in its place, a later one, and if there is
none, the cause is reported without a line. -/
theorem ofListing_of_firstFault (text : String) :
    ((∃ e, RuleSet.ofListing text = .error e) ↔ ∃ n cause, FirstFault text n cause) ∧
    ∀ n cause, FirstFault text n cause →
      (RuleSet.ofListing text = .error (.atLine n cause) ↔ FirstUnreadable text n cause) ∧
      (∀ m cause', FirstUnreadable text m cause' →
        RuleSet.ofListing text = .error (.atLine m cause') ∧
          (n < m ∨ n = m ∧ cause = cause')) ∧
      ((∀ m cause', ¬FirstUnreadable text m cause') → RuleSet.ofListing text = .error cause) := by
  refine ⟨exists_ofListing_eq_error_iff, fun n cause hfault => ?_⟩
  have hlater : ∀ m cause', FirstUnreadable text m cause' →
      RuleSet.ofListing text = .error (.atLine m cause') ∧ (n < m ∨ n = m ∧ cause = cause') :=
    fun m cause' h => ⟨ofListing_of_firstUnreadable h, hfault.le_firstUnreadable h⟩
  have hmerging : (∀ m cause', ¬FirstUnreadable text m cause') →
      RuleSet.ofListing text = .error cause := by
    intro hreadable
    obtain ⟨ps, hread⟩ := exists_mapM_of_not_firstUnreadable hreadable
    obtain ⟨before, line, after, set, hentries, hmerged, -, hline⟩ := hfault
    rw [ofListing_of_mapM_eq_ok hread]
    exact foldlM_eq_error_iff.mpr ⟨before, line, after, set, hentries, hmerged, hline⟩
  refine ⟨⟨fun hreport => ?_, ofListing_of_firstUnreadable⟩, hlater, hmerging⟩
  by_contra hreadable
  by_cases hunreadable : ∃ m cause', FirstUnreadable text m cause'
  · obtain ⟨m, cause', h⟩ := hunreadable
    rw [(hlater m cause' h).1] at hreport
    cases hreport
    exact hreadable h
  · have hcause := hmerging fun m cause' h => hunreadable ⟨m, cause', h⟩
    rw [hreport] at hcause
    cases hcause

/-- A line that cannot be read, with a blank line and a comment before it that count. -/
theorem ofListing_of_firstFault_of_bad_token :
    let text := "# growth\nF -> FF\n\nF x -> F\nF F"
    let cause := GrammarError.invalidWeight "F x -> F" "x"
    FirstFault text 4 cause ∧ RuleSet.ofListing text = .error (.atLine 4 cause) := by
  intro text cause
  let before := [("F -> FF".toList, 2)]
  let line := ("F x -> F".toList, 4)
  let after := [("F F".toList, 5)]
  have hentries : entries text = before ++ line :: after := by decide +kernel
  have hfault : FirstFault text 4 cause :=
    firstFault_of_refusal? hentries (by decide +kernel) (by decide +kernel)
  have hread : ∀ l ∈ before, ∃ p, lineProduction l = .ok p := by
    intro l hl
    rw [List.mem_singleton.mp hl]
    exact refusal?_eq_none_iff.mp (by decide +kernel)
  have hline : lineProduction line = .error cause := refusal?_eq_some_iff.mp (by decide +kernel)
  have hunreadable : FirstUnreadable text 4 cause :=
    ⟨before, line, after, hentries, hread, rfl, hline⟩
  exact ⟨hfault, ((ofListing_of_firstFault text).2 4 cause hfault).1.mpr hunreadable⟩

/-- A weight that makes the total overflow is refused, but without its line. -/
theorem ofListing_error_without_line :
    let text := "X 1e308 -> A\nX 1e308 -> B"
    let cause := Rule.weightError 'X' 1e308
    FirstFault text 2 cause ∧ RuleSet.ofListing text = .error cause ∧
      ∀ n cause', RuleSet.ofListing text ≠ .error (.atLine n cause') := by
  intro text cause
  let before := [("X 1e308 -> A".toList, 1)]
  let line := ("X 1e308 -> B".toList, 2)
  have hentries : entries text = before ++ line :: [] := by decide +kernel
  have hfault : FirstFault text 2 cause :=
    firstFault_of_refusal? hentries (by decide +kernel) (by decide +kernel)
  have hreport : RuleSet.ofListing text = .error cause :=
    refusal?_eq_some_iff.mp (by decide +kernel)
  refine ⟨hfault, hreport, fun n cause' h => ?_⟩
  rw [hreport] at h
  change Except.error (GrammarError.invalidWeight _ _) = _ at h
  cases h

end Listing

end LSystem
