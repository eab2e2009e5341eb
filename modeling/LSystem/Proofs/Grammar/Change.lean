import Mathlib.Data.List.Basic
import LSystem.Grammar.Change

/-!
# What changes keep

A change that can be refused leaves a value in either case.  Two properties are asked of it: that a
refusal leaves the value as it was, and that an invariant of the value still holds when the change
is done.  Together they say that the invariant holds of whatever is left (`Keeps.after`).

Every change by a function has the first property, since the function has nothing to say about the
value of a refusal.  A change to one element of a list has both if the change to the element has.
-/

namespace LSystem

namespace Change

variable {σ τ : Type}

/-- What a change leaves, whether it is done or refused. -/
def after (change : Change σ Unit) (s : σ) : σ :=
  match change s with
  | .ok _ s' => s'
  | .error _ s' => s'

/-- Whether a change is done. -/
def isDone (change : Change σ Unit) (s : σ) : Bool :=
  match change s with
  | .ok _ _ => true
  | .error _ _ => false

/-- A change leaves everything as it was if it is refused. -/
def Atomic (change : Change σ Unit) : Prop := ∀ s e s', change s = .error e s' → s' = s

/-- A change that is done keeps an invariant. -/
def Keeps (P : σ → Prop) (change : Change σ Unit) : Prop :=
  ∀ s s', P s → change s = .ok () s' → P s'

lemma Atomic.after_eq {change : Change σ Unit} (h : change.Atomic) {s : σ}
    (hs : change.isDone s = false) : change.after s = s := by
  unfold isDone at hs
  unfold after
  cases hchange : change s with
  | ok u s' =>
    rw [hchange] at hs
    cases hs
  | error e s' => exact h s e s' hchange

lemma Keeps.after {P : σ → Prop} {change : Change σ Unit} (hkeeps : change.Keeps P)
    (hatomic : change.Atomic) {s : σ} (hs : P s) : P (change.after s) := by
  unfold Change.after
  cases hchange : change s with
  | ok u s' => exact hkeeps s s' hs hchange
  | error e s' =>
    rw [hatomic s e s' hchange]
    exact hs

/-! ## Changes by a function -/

lemma atomic_modify {f : σ → σ} : Atomic (modify f) := by
  intro s e s' h
  cases h

lemma keeps_modify {P : σ → Prop} {f : σ → σ} (h : ∀ s, P s → P (f s)) : Keeps P (modify f) := by
  intro s s' hs hdone
  cases hdone
  exact h s hs

section

variable {update : σ → Except GrammarError σ}

lemma atomic_ofUpdate : (ofUpdate update).Atomic := by
  intro s e s' h
  unfold ofUpdate at h
  split at h <;> cases h
  rfl

lemma keeps_ofUpdate {P : σ → Prop} (h : ∀ s s', P s → update s = .ok s' → P s') :
    (ofUpdate update).Keeps P := by
  intro s s' hs hdone
  unfold ofUpdate at hdone
  split at hdone
  · rename_i hupdate
    cases hdone
    exact h s _ hs hupdate
  · cases hdone

end

/-! ## Changes to a part -/

section

variable {change : Change τ Unit} {part : τ} {putBack : τ → σ → σ} {s s' : σ}

lemma onPart_eq_ok_iff :
    onPart part putBack change s = .ok () s' ↔ ∃ t, change part = .ok () t ∧ putBack t s = s' := by
  unfold onPart
  cases change part <;> simp

lemma onPart_eq_error_iff {e : GrammarError} :
    onPart part putBack change s = .error e s' ↔
      ∃ t, change part = .error e t ∧ putBack t s = s' := by
  unfold onPart
  cases change part <;> simp

/-- A change to the element at a place of a list, if there is one. -/
def atPlace (place : Nat) (change : Change τ Unit) : Change (List τ) Unit := fun ts =>
  match ts[place]? with
  | some t => onPart t (fun t ts => ts.set place t) change ts
  | none => .ok () ts

lemma Atomic.atPlace (h : change.Atomic) (place : Nat) : (change.atPlace place).Atomic := by
  intro ts e ts' herror
  unfold Change.atPlace at herror
  cases hplace : ts[place]? with
  | none =>
    rw [hplace] at herror
    cases herror
  | some t =>
    rw [hplace] at herror
    obtain ⟨t', hchange, rfl⟩ := onPart_eq_error_iff.mp herror
    obtain ⟨hlt, rfl⟩ := List.getElem?_eq_some_iff.mp hplace
    rw [h _ _ _ hchange, List.set_getElem_self]

lemma forall_mem_set {P : τ → Prop} {ts : List τ} (hts : ∀ t ∈ ts, P t) (place : Nat) {t : τ}
    (ht : P t) : ∀ u ∈ ts.set place t, P u := by
  intro u hu
  rcases List.mem_or_eq_of_mem_set hu with hu | rfl
  · exact hts u hu
  · exact ht

lemma Keeps.atPlace {P : τ → Prop} (h : change.Keeps P) (place : Nat) :
    (change.atPlace place).Keeps fun ts => ∀ t ∈ ts, P t := by
  intro ts ts' hts hdone
  unfold Change.atPlace at hdone
  cases hplace : ts[place]? with
  | none =>
    rw [hplace] at hdone
    cases hdone
    exact hts
  | some t =>
    rw [hplace] at hdone
    obtain ⟨t', hchange, rfl⟩ := onPart_eq_ok_iff.mp hdone
    exact forall_mem_set hts place (h t t' (hts t (List.mem_of_getElem? hplace)) hchange)

end

end Change

end LSystem
