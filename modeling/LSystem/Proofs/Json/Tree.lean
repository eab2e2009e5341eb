import Std.Data.ExtTreeMap
import LSystem.Json.Basic
import LSystem.Proofs.Number.Single

/-!
# What is read back from a tree

A value is saved as a tree, and what is read back from that tree depends on the leaves: a number
that is not finite is saved as null, and a count is read only if it fits a machine word.  `Reads`
says on what condition a reading succeeds, and with which value; that nothing else is ever read is
part of it.  Its laws follow the way readers are put together: one reading after the other, a list
item by item.

How deep a tree may be read depends on its `nesting`, the number of containers that enclose one
another in it.
-/

namespace LSystem

/-- Whether all numbers of a list are finite. -/
def AllFinite (xs : List Float32) : Prop := ∀ x ∈ xs, x.isFinite

@[simp] lemma allFinite_nil : AllFinite [] := List.forall_mem_nil _

@[simp] lemma allFinite_cons {x : Float32} {xs : List Float32} :
    AllFinite (x :: xs) ↔ x.isFinite ∧ AllFinite xs :=
  List.forall_mem_cons

@[simp] lemma allFinite_append {xs ys : List Float32} :
    AllFinite (xs ++ ys) ↔ AllFinite xs ∧ AllFinite ys :=
  List.forall_mem_append

lemma allFinite_flatMap {α : Type} {numbers : α → List Float32} {items : List α} :
    AllFinite (items.flatMap numbers) ↔ ∀ a ∈ items, AllFinite (numbers a) :=
  List.forall_mem_flatMap

namespace Json

/-! ## Readings -/

/-- A reading succeeds exactly on a condition, and then with a certain value. -/
def Reads {α : Type} (reading : Option α) (P : Prop) (a : α) : Prop :=
  ∀ b, reading = some b ↔ P ∧ b = a

namespace Reads

variable {α β : Type} {reading : Option α} {P Q : Prop} {a : α} {b : β}

lemma eq_some_iff (h : Reads reading P a) : reading = some a ↔ P :=
  (h a).trans (and_iff_left rfl)

/-- What is read can be something else. -/
lemma exists_ne_iff {c : α} (h : Reads reading P a) :
    (∃ b, reading = some b ∧ b ≠ c) ↔ P ∧ a ≠ c := by
  constructor
  · rintro ⟨b, hb, hne⟩
    obtain ⟨hP, rfl⟩ := (h b).mp hb
    exact ⟨hP, hne⟩
  · rintro ⟨hP, hne⟩
    exact ⟨a, h.eq_some_iff.mpr hP, hne⟩

lemma congr (h : Reads reading P a) (hPQ : P ↔ Q) : Reads reading Q a := fun b => by
  rw [h b, hPQ]

lemma some (a : α) : Reads (some a) True a := fun b => by
  rw [true_and, Option.some_inj, eq_comm]

lemma none (h : ¬P) : Reads Option.none P a := fun _ =>
  iff_of_false (fun hb => nomatch hb) (fun hb => h hb.1)

/-- One reading after another. -/
lemma bind {next : α → Option β} (h : Reads reading P a) (hnext : Reads (next a) Q b) :
    Reads (reading.bind next) (P ∧ Q) b := by
  intro c
  rw [Option.bind_eq_some_iff]
  constructor
  · rintro ⟨a', ha, hc⟩
    obtain ⟨hP, rfl⟩ := (h a').mp ha
    obtain ⟨hQ, rfl⟩ := (hnext c).mp hc
    exact ⟨⟨hP, hQ⟩, rfl⟩
  · rintro ⟨⟨hP, hQ⟩, rfl⟩
    exact ⟨a, (h a).mpr ⟨hP, rfl⟩, (hnext c).mpr ⟨hQ, rfl⟩⟩

lemma map (h : Reads reading P a) (f : α → β) : Reads (reading.map f) P (f a) := by
  rw [Option.map_eq_bind]
  exact (h.bind (.some (f a))).congr (and_iff_left trivial)

/-- A list is read item by item. -/
lemma mapM {γ : Type} {encode : α → γ} {decode : γ → Option β} {P : α → Prop} {g : α → β}
    {items : List α} (h : ∀ a ∈ items, Reads (decode (encode a)) (P a) (g a)) :
    Reads ((items.map encode).mapM decode) (∀ a ∈ items, P a) (items.map g) := by
  induction items with
  | nil => exact (some []).congr (iff_of_true trivial (List.forall_mem_nil _))
  | cons a items ih =>
    have hitems := ih fun a ha => h a (List.mem_cons_of_mem _ ha)
    have hcons : ((a :: items).map encode).mapM decode =
        (decode (encode a)).bind fun b => ((items.map encode).mapM decode).map (b :: ·) := by
      rw [List.map_cons, List.mapM_cons]
      simp only [Option.map_eq_bind]
      rfl
    rw [hcons]
    refine ((h a List.mem_cons_self).bind (hitems.map _)).congr ?_
    rw [List.forall_mem_cons]

end Reads

/-! ## Leaves and lists -/

/-- A number is read back if it is finite. -/
lemma reads_single (x : Float32) : Reads (ofSingle x).single? x.isFinite x := by
  rw [ofSingle]
  split
  next h =>
    rw [single?, Single.narrow_widen h]
    exact (Reads.some x).congr (iff_of_true trivial h)
  next h => exact .none h

/-- A count is read back if it fits a machine word. -/
lemma reads_nat (n : Nat) : Reads (ofNat n).nat? (n < wordCount) n := by
  by_cases h : n < wordCount
  · rw [nat?_ofNat h]
    exact (Reads.some n).congr (iff_of_true trivial h)
  · have hn : ¬((0 : Int) ≤ n ∧ (n : Int).toNat < wordCount) := fun hn => h hn.2
    rw [ofNat, nat?, if_neg hn]
    exact .none h

lemma reads_list {α β : Type} {encode : α → Json} {decode : Json → Option β} {P : α → Prop}
    {g : α → β} {items : List α} (h : ∀ a ∈ items, Reads (decode (encode a)) (P a) (g a)) :
    Reads ((ofList encode items).list? decode) (∀ a ∈ items, P a) (items.map g) :=
  Reads.mapM h

/-! ## Maps -/

/-- A map is the map of its entries. -/
lemma ofList_toList {α β : Type} {cmp : α → α → Ordering} [Std.TransCmp cmp]
    [Std.LawfulEqCmp cmp] (m : Std.ExtTreeMap α β cmp) :
    Std.ExtTreeMap.ofList m.toList cmp = m := by
  have : DecidableEq α := Classical.decEq α
  apply Std.ExtTreeMap.ext_getElem?
  intro k
  cases hk : m[k]? with
  | some v =>
    have hmem : (k, v) ∈ m.toList := Std.ExtTreeMap.mem_toList_iff_getElem?_eq_some.mpr hk
    exact Std.ExtTreeMap.getElem?_ofList_of_mem Std.ReflCmp.compare_self
      Std.ExtTreeMap.distinct_keys_toList hmem
  | none =>
    have hkeys : k ∉ m.keys := by
      rw [Std.ExtTreeMap.mem_keys, Std.ExtTreeMap.mem_iff_isSome_getElem?, hk]
      exact Bool.false_ne_true
    apply Std.ExtTreeMap.getElem?_ofList_of_contains_eq_false
    rw [Std.ExtTreeMap.map_fst_toList_eq_keys, List.contains_eq_mem]
    exact decide_eq_false hkeys

/-! ## Nesting -/

mutual

/-- How many containers of a tree enclose one another at most. -/
def nesting : Json → Nat
  | array items => nestingOfItems items + 1
  | object fields => nestingOfFields fields + 1
  | _ => 0

/-- The nesting of the most deeply nested one of several trees. -/
def nestingOfItems : List Json → Nat
  | [] => 0
  | j :: rest => max j.nesting (nestingOfItems rest)

/-- The nesting of the most deeply nested value of several fields. -/
def nestingOfFields : List (String × Json) → Nat
  | [] => 0
  | (_, j) :: rest => max j.nesting (nestingOfFields rest)

end

lemma nesting_array_le_iff {items : List Json} {n : Nat} :
    (array items).nesting ≤ n + 1 ↔ ∀ j ∈ items, j.nesting ≤ n := by
  rw [nesting, Nat.add_le_add_iff_right]
  induction items with
  | nil => simp [nestingOfItems]
  | cons j rest ih => rw [nestingOfItems, Nat.max_le, ih, List.forall_mem_cons]

lemma nesting_object_le_iff {fields : List (String × Json)} {n : Nat} :
    (object fields).nesting ≤ n + 1 ↔ ∀ f ∈ fields, f.2.nesting ≤ n := by
  rw [nesting, Nat.add_le_add_iff_right]
  induction fields with
  | nil => simp [nestingOfFields]
  | cons f rest ih =>
    obtain ⟨name, j⟩ := f
    rw [nestingOfFields, Nat.max_le, ih, List.forall_mem_cons]

@[simp] lemma nesting_ofSingle (x : Float32) : (ofSingle x).nesting = 0 := by
  rw [ofSingle]
  split <;> rfl

end Json

end LSystem
