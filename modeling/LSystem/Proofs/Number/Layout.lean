import Mathlib.Data.List.Basic
import LSystem.Number.Numeral
import LSystem.Number.Shortest

/-!
# Reading what was laid out

The positional text of a decimal is a numeral, and it reads back as the number that was laid out.  A
positive power of ten is written out as zeros, so it comes back as part of the significand; a
negative one comes back as it was, for each place after the point is a digit.
-/

namespace LSystem

/-! ## Digits -/

namespace Decimal

lemma ofDigits_digits (n : Nat) : ofDigits (digits n) = n :=
  Nat.ofDigitChars_toDigits (by decide) (by decide)

lemma isDigit_of_mem_digits {n : Nat} {c : Char} (h : c ∈ digits n) : c.isDigit :=
  Nat.isDigit_of_mem_toDigits (by decide) (by decide) h

lemma ofDigits_append_zeros (ds : List Char) (k : Nat) :
    ofDigits (ds ++ List.replicate k '0') = ofDigits ds * tenPow k := by
  induction k with
  | zero => rw [List.replicate_zero, List.append_nil, tenPow_zero, Nat.mul_one]
  | succ k ih =>
    calc ofDigits (ds ++ List.replicate (k + 1) '0')
        = 10 * ofDigits (ds ++ List.replicate k '0') + ('0'.toNat - '0'.toNat) := by
          rw [List.replicate_succ', ← List.append_assoc, ofDigits_concat]
      _ = ofDigits ds * tenPow (k + 1) := by
          rw [ih, tenPow_succ, Nat.sub_self, Nat.add_zero, Nat.mul_left_comm, Nat.mul_comm 10]

lemma ofDigits_zeros_append (k : Nat) (ds : List Char) :
    ofDigits (List.replicate k '0' ++ ds) = ofDigits ds := by
  induction k with
  | zero => rfl
  | succ k ih => exact ih

end Decimal

/-! ## Positional numerals -/

namespace Numeral

/-- Digits without an exponent, with or without a point among them, are read as they stand. -/
lemma read?_positional {whole rest fraction : List Char} (hne : whole ≠ [])
    (hwhole : ∀ d ∈ whole, d.isDigit) (hhead : ∀ c ∈ rest.head?, c.isDigit = false)
    (hrest : splitFraction rest = (fraction, [])) :
    read? (whole ++ rest) =
      some ⟨false, ⟨Decimal.ofDigits (whole ++ fraction), -fraction.length⟩⟩ := by
  have hsign : splitSign (whole ++ rest) = (false, whole ++ rest) := by
    obtain ⟨d, ds, rfl⟩ := List.exists_cons_of_ne_nil hne
    refine splitSign_of_isDigit fun c hc => ?_
    obtain rfl : d = c := Option.mem_some.mp hc
    exact hwhole d List.mem_cons_self
  have hdigits : splitDigits (whole ++ rest) = (whole, rest) := splitDigits_of_digits hwhole hhead
  simp [read?, hsign, hdigits, hrest, hne, exponent?]

lemma read?_whole {ds : List Char} (hne : ds ≠ []) (hds : ∀ d ∈ ds, d.isDigit) :
    read? ds = some ⟨false, ⟨Decimal.ofDigits ds, 0⟩⟩ := by
  have hread := @read?_positional ds [] [] hne hds nofun rfl
  rwa [List.append_nil] at hread

/-- A point before the last places of some digits divides by a power of ten. -/
lemma read?_point {ds : List Char} {places : Nat} (hds : ∀ d ∈ ds, d.isDigit)
    (hplaces : places < ds.length) :
    read? (ds.take (ds.length - places) ++ '.' :: ds.drop (ds.length - places)) =
      some ⟨false, ⟨Decimal.ofDigits ds, -places⟩⟩ := by
  obtain ⟨hwhole, hfraction⟩ := List.forall_mem_append.mp
    ((List.take_append_drop (ds.length - places) ds).symm ▸ hds)
  have hsplit : splitFraction ('.' :: ds.drop (ds.length - places)) =
      (ds.drop (ds.length - places), []) := by
    have hall := @splitDigits_of_digits _ [] hfraction nofun
    rwa [List.append_nil] at hall
  have hne : ds.take (ds.length - places) ≠ [] := by
    refine List.length_pos_iff.mp ?_
    rw [List.length_take]
    omega
  have hlength : (ds.drop (ds.length - places)).length = places := by
    rw [List.length_drop]
    omega
  rw [read?_positional hne hwhole (by simp) hsplit, List.take_append_drop, hlength]

end Numeral

namespace Decimal

/-- **What is laid out reads back.**  The positional text of a decimal is a numeral of the same
number, with the zeros that were written out before the point as part of its significand. -/
theorem read?_plain (d : Decimal) :
    Numeral.read? d.plain =
      some ⟨false, ⟨d.significand * tenPow d.exponent.toNat, min d.exponent 0⟩⟩ := by
  have hzeros : ∀ k, ∀ c ∈ List.replicate k '0', c.isDigit := by
    intro k c hc
    rw [List.eq_of_mem_replicate hc]
    rfl
  have hdigits : ∀ c ∈ digits d.significand, c.isDigit := fun c => isDigit_of_mem_digits
  rw [plain]
  split
  · rename_i hplaces
    have hexponent : min d.exponent 0 = 0 := by omega
    have hwhole := List.forall_mem_append.mpr ⟨hdigits, hzeros d.exponent.toNat⟩
    have hne : digits d.significand ++ List.replicate d.exponent.toNat '0' ≠ [] :=
      List.append_ne_nil_of_left_ne_nil Nat.toDigits_ne_nil _
    rw [Numeral.read?_whole hne hwhole, ofDigits_append_zeros, ofDigits_digits, hexponent]
  · rename_i hplaces
    have hexponent : min d.exponent 0 = -((-d.exponent).toNat : Int) := by omega
    have hzero : d.exponent.toNat = 0 := by omega
    have hpadded := List.forall_mem_append.mpr
      ⟨hzeros ((-d.exponent).toNat + 1 - (digits d.significand).length), hdigits⟩
    refine (Numeral.read?_point hpadded ?_).trans ?_
    · rw [List.length_append, List.length_replicate]
      omega
    · rw [ofDigits_zeros_append, ofDigits_digits, hexponent, hzero, tenPow_zero, Nat.mul_one]

example : (mk 15 2).plain = "1500".toList ∧
    Numeral.read? "1500".toList = some ⟨false, 1500, 0⟩ := by decide

example : (mk 15 (-4)).plain = "0.0015".toList ∧
    Numeral.read? "0.0015".toList = some ⟨false, 15, -4⟩ := by decide

end Decimal

end LSystem
