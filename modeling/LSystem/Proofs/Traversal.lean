import Mathlib.Logic.Basic

/-!
# Traversals that can be refused

Rules and rule sets are built by folds, and listings are read by maps, whose steps can be refused.
Such a traversal is refused by its first step that is, and for the cause of that step.  If a list is
read first and folded after, its elements might as well be read when the fold comes to them,
provided that all of them are read in the end (`foldlM_bind_of_mapM_eq_ok`).
-/

namespace LSystem

variable {α β γ ε : Type}

lemma bind_eq_ok_iff {x : Except ε α} {f : α → Except ε β} {b : β} :
    x >>= f = .ok b ↔ ∃ a, x = .ok a ∧ f a = .ok b := by
  cases x with
  | error e =>
    constructor
    · intro h
      cases h
    · rintro ⟨a, h, -⟩
      cases h
  | ok a =>
    constructor
    · exact fun h => ⟨a, rfl, h⟩
    · rintro ⟨a', h, hf⟩
      cases h
      exact hf

lemma bind_eq_error_iff {x : Except ε α} {f : α → Except ε β} {e : ε} :
    x >>= f = .error e ↔ x = .error e ∨ ∃ a, x = .ok a ∧ f a = .error e := by
  cases x with
  | error e' =>
    constructor
    · intro h
      cases h
      exact .inl rfl
    · rintro (h | ⟨a, h, -⟩) <;> cases h
      rfl
  | ok a =>
    constructor
    · exact fun h => .inr ⟨a, rfl, h⟩
    · rintro (h | ⟨a', h, hf⟩) <;> cases h
      exact hf

lemma map_eq_ok_iff {x : Except ε α} {f : α → β} {b : β} :
    x.map f = .ok b ↔ ∃ a, x = .ok a ∧ f a = b := by
  cases x <;> simp [Except.map]

lemma mapError_eq_error_iff {δ : Type} {x : Except ε α} {f : ε → δ} {e : δ} :
    x.mapError f = .error e ↔ ∃ cause, x = .error cause ∧ f cause = e := by
  cases x with
  | ok a =>
    change (Except.ok a : Except δ α) = .error e ↔ _
    simp
  | error cause =>
    change (Except.error (f cause) : Except δ α) = .error e ↔ _
    simp

/-- The cause of a refusal, if it is one. -/
def refusal? : Except ε α → Option ε
  | .ok _ => none
  | .error e => some e

lemma refusal?_eq_none_iff {x : Except ε α} : refusal? x = none ↔ ∃ a, x = .ok a := by
  cases x <;> simp [refusal?]

lemma refusal?_eq_some_iff {x : Except ε α} {e : ε} : refusal? x = some e ↔ x = .error e := by
  cases x <;> simp [refusal?]

/-! ## Folds -/

section

variable {f : β → α → Except ε β} {as : List α} {b : β}

/-- What each step keeps, a fold keeps, if no step is refused. -/
lemma foldlM_invariant {P : β → Prop} (hstep : ∀ b a b', P b → f b a = .ok b' → P b') {result : β}
    (hb : P b) (h : as.foldlM f b = .ok result) : P result := by
  induction as generalizing b with
  | nil =>
    cases h
    exact hb
  | cons a as ih =>
    rw [List.foldlM_cons, bind_eq_ok_iff] at h
    obtain ⟨b', hfirst, hrest⟩ := h
    exact ih (hstep b a b' hb hfirst) hrest

/-- A fold is refused at its first step that is. -/
lemma foldlM_eq_error_iff {e : ε} :
    as.foldlM f b = .error e ↔ ∃ before a after b',
      as = before ++ a :: after ∧ before.foldlM f b = .ok b' ∧ f b' a = .error e := by
  constructor
  · intro h
    induction as generalizing b with
    | nil => cases h
    | cons a as ih =>
      rw [List.foldlM_cons, bind_eq_error_iff] at h
      rcases h with hfirst | ⟨b', hfirst, hrest⟩
      · exact ⟨[], a, as, b, rfl, rfl, hfirst⟩
      · obtain ⟨before, a', after, b'', rfl, hbefore, hfault⟩ := ih hrest
        refine ⟨a :: before, a', after, b'', rfl, ?_, hfault⟩
        rw [List.foldlM_cons, bind_eq_ok_iff]
        exact ⟨b', hfirst, hbefore⟩
  · rintro ⟨before, a, after, b', rfl, hbefore, hfault⟩
    rw [List.foldlM_append, hbefore]
    exact bind_eq_error_iff.mpr (.inr ⟨b', rfl, bind_eq_error_iff.mpr (.inl hfault)⟩)

end

/-! ## Maps -/

section

variable {f : α → Except ε β} {as : List α}

lemma mapM_eq_ok_cons_iff {a : α} {result : List β} :
    (a :: as).mapM f = .ok result ↔
      ∃ b bs, f a = .ok b ∧ as.mapM f = .ok bs ∧ result = b :: bs := by
  rw [List.mapM_cons, bind_eq_ok_iff]
  refine exists_congr fun b => ?_
  rw [bind_eq_ok_iff]
  constructor
  · rintro ⟨hfirst, bs, hrest, hresult⟩
    exact ⟨bs, hfirst, hrest, (Except.ok.inj hresult).symm⟩
  · rintro ⟨bs, hfirst, hrest, rfl⟩
    exact ⟨hfirst, bs, hrest, rfl⟩

lemma mapM_eq_ok_iff {bs : List β} : as.mapM f = .ok bs ↔ as.map f = bs.map .ok := by
  induction as generalizing bs with
  | nil =>
    cases bs with
    | nil => exact iff_of_true rfl rfl
    | cons b bs => exact iff_of_false nofun nofun
  | cons a as ih =>
    rw [mapM_eq_ok_cons_iff, List.map_cons, eq_comm, List.map_eq_cons_iff]
    constructor
    · rintro ⟨b, bs', hfirst, hrest, rfl⟩
      exact ⟨b, bs', rfl, hfirst.symm, (ih.mp hrest).symm⟩
    · rintro ⟨b, bs', rfl, hfirst, hrest⟩
      exact ⟨b, bs', hfirst.symm, ih.mpr hrest.symm, rfl⟩

lemma exists_mapM_eq_ok_iff : (∃ bs, as.mapM f = .ok bs) ↔ ∀ a ∈ as, ∃ b, f a = .ok b := by
  induction as with
  | nil => exact ⟨fun _ a ha => (nomatch ha), fun _ => ⟨[], rfl⟩⟩
  | cons a as ih =>
    rw [List.forall_mem_cons, ← ih]
    constructor
    · rintro ⟨result, h⟩
      obtain ⟨b, bs, hfirst, hrest, -⟩ := mapM_eq_ok_cons_iff.mp h
      exact ⟨⟨b, hfirst⟩, bs, hrest⟩
    · rintro ⟨⟨b, hfirst⟩, bs, hrest⟩
      exact ⟨b :: bs, mapM_eq_ok_cons_iff.mpr ⟨b, bs, hfirst, hrest, rfl⟩⟩

/-- A map is refused at its first element that is. -/
lemma mapM_eq_error_iff {e : ε} :
    as.mapM f = .error e ↔ ∃ before a after,
      as = before ++ a :: after ∧ (∀ x ∈ before, ∃ y, f x = .ok y) ∧ f a = .error e := by
  constructor
  · intro h
    induction as with
    | nil => cases h
    | cons a as ih =>
      rw [List.mapM_cons, bind_eq_error_iff] at h
      rcases h with hfirst | ⟨b, hfirst, hrest⟩
      · exact ⟨[], a, as, rfl, fun _ hx => (nomatch hx), hfirst⟩
      · rcases bind_eq_error_iff.mp hrest with hrest | ⟨bs, -, hpure⟩
        · obtain ⟨before, a', after, rfl, hbefore, hfault⟩ := ih hrest
          exact ⟨a :: before, a', after, rfl, List.forall_mem_cons.mpr ⟨⟨b, hfirst⟩, hbefore⟩,
            hfault⟩
        · cases hpure
  · rintro ⟨before, a, after, rfl, hbefore, hfault⟩
    obtain ⟨ys, hys⟩ := exists_mapM_eq_ok_iff.mpr hbefore
    rw [List.mapM_append, hys, List.mapM_cons, hfault]
    rfl

/-- A map over the elements of one kind is refused at the first of that kind that is. -/
lemma mapM_filter_eq_error_iff {p : α → Bool} {e : ε} :
    (as.filter p).mapM f = .error e ↔ ∃ before a after, as = before ++ a :: after ∧
      (∀ x ∈ before, p x → ∃ y, f x = .ok y) ∧ p a ∧ f a = .error e := by
  rw [mapM_eq_error_iff]
  constructor
  · rintro ⟨chosen, a, rest, hsplit, hchosen, hfault⟩
    obtain ⟨as₁, as₂, rfl, rfl, hrest⟩ := List.filter_eq_append_iff.mp hsplit
    obtain ⟨skipped, after, rfl, hskipped, ha, -⟩ := List.filter_eq_cons_iff.mp hrest
    refine ⟨as₁ ++ skipped, a, after, (List.append_assoc _ _ _).symm, ?_, ha, hfault⟩
    intro x hx hp
    rcases List.mem_append.mp hx with hx | hx
    · exact hchosen x (List.mem_filter.mpr ⟨hx, hp⟩)
    · exact absurd hp (hskipped x hx)
  · rintro ⟨before, a, after, rfl, hbefore, ha, hfault⟩
    refine ⟨before.filter p, a, after.filter p, ?_, ?_, hfault⟩
    · rw [List.filter_append, List.filter_cons_of_pos ha]
    · intro x hx
      obtain ⟨hx, hp⟩ := List.mem_filter.mp hx
      exact hbefore x hx hp

/-- To read all elements and then to fold what was read is to read in each step of the fold. -/
lemma foldlM_bind_of_mapM_eq_ok {step : γ → β → Except ε γ} {bs : List β} {c : γ}
    (h : as.mapM f = .ok bs) :
    as.foldlM (fun c a => f a >>= step c) c = bs.foldlM step c := by
  induction as generalizing bs c with
  | nil =>
    cases h
    rfl
  | cons a as ih =>
    obtain ⟨b, bs, hfirst, hrest, rfl⟩ := mapM_eq_ok_cons_iff.mp h
    rw [List.foldlM_cons, List.foldlM_cons, hfirst]
    exact bind_congr fun c' => ih hrest

end

end LSystem
