import Mathlib.Tactic.SplitIfs
import Splice.Text.Digit

/-!
This module contains what the text of a number is made of: its decimal digits, and what digits are
worth in other bases.
-/

namespace Splice
namespace Text

/-! ## Decimal digits -/

theorem toList_toString (n : Nat) : (toString n).toList = Nat.toDigits 10 n :=
  Nat.toList_repr

theorem toList_toString_ne_nil (n : Nat) : (toString n).toList ≠ [] := by
  rw [toList_toString]
  exact Nat.toDigits_ne_nil

theorem isDigit_of_mem_toDigits {n : Nat} {c : Char} (h : c ∈ Nat.toDigits 10 n) :
    c.isDigit = true :=
  Nat.isDigit_of_mem_toDigits (by decide) (by decide) h

theorem isDigit_of_mem_toString {n : Nat} {c : Char} (h : c ∈ (toString n).toList) :
    c.isDigit = true := by
  rw [toList_toString] at h
  exact isDigit_of_mem_toDigits h

theorem toString_inj {m n : Nat} (h : toString m = toString n) : m = n := by
  have hdigits : Nat.toDigits 10 m = Nat.toDigits 10 n := by
    rw [← toList_toString, ← toList_toString, h]
  calc m = Nat.ofDigitChars 10 (Nat.toDigits 10 m) 0 := Nat.ofDigitChars_ten_toDigits.symm
    _ = Nat.ofDigitChars 10 (Nat.toDigits 10 n) 0 := by rw [hdigits]
    _ = n := Nat.ofDigitChars_ten_toDigits

theorem length_toString_le_one_iff {n : Nat} : (toString n).length ≤ 1 ↔ n < 10 := by
  rw [← String.length_toList, toList_toString]
  exact Nat.length_toDigits_le_iff (by decide) (by decide)

/-! ## Digits in other bases -/

def digit (c : Char) : Nat :=
  if c ≤ '9' then c.toNat - 48 else if c ≤ 'Z' then c.toNat - 55 else c.toNat - 87

theorem digit_of_digitValue? {c : Char} {n : Nat} (h : digitValue? c = some n) : digit c = n := by
  have h0 : '0'.toNat = 48 := rfl
  have h9 : '9'.toNat = 57 := rfl
  have hA : 'A'.toNat = 65 := rfl
  have hZ : 'Z'.toNat = 90 := rfl
  have ha : 'a'.toNat = 97 := rfl
  unfold digitValue? at h
  unfold digit
  simp only [Bool.and_eq_true, decide_eq_true_eq, Char.le_def, UInt32.le_iff_toNat_le,
    Char.toNat_val] at h ⊢
  split at h
  . next hdecimal =>
    rw [if_pos hdecimal.2, ← Option.some.inj h, h0]
  . split at h
    . next hlower =>
      rw [if_neg (by omega), if_neg (by omega), ← Option.some.inj h]
      omega
    . split at h
      . next hupper =>
        rw [if_neg (by omega), if_pos hupper.2, ← Option.some.inj h]
        omega
      . cases h

theorem digitIn?_eq_some {base : Nat} {c : Char} (h : (digitIn? base c).isSome = true) :
    digitIn? base c = some (digit c) := by
  obtain ⟨n, hn⟩ := Option.isSome_iff_exists.1 h
  have hvalue : digitValue? c = some n := (Option.filter_eq_some_iff.1 hn).1
  rw [hn, digit_of_digitValue? hvalue]

def IsHex (c : Char) : Prop :=
  '0' ≤ c ∧ c ≤ '9' ∨ 'a' ≤ c ∧ c ≤ 'f' ∨ 'A' ≤ c ∧ c ≤ 'F'

instance (c : Char) : Decidable (IsHex c) :=
  inferInstanceAs (Decidable (_ ∨ _))

theorem isHex_iff {c : Char} : IsHex c ↔ (digitIn? 16 c).isSome = true := by
  have h0 : '0'.toNat = 48 := rfl
  have h9 : '9'.toNat = 57 := rfl
  have hA : 'A'.toNat = 65 := rfl
  have hF : 'F'.toNat = 70 := rfl
  have hZ : 'Z'.toNat = 90 := rfl
  have ha : 'a'.toNat = 97 := rfl
  have hf : 'f'.toNat = 102 := rfl
  have hz : 'z'.toNat = 122 := rfl
  unfold IsHex digitIn? digitValue?
  simp only [Bool.and_eq_true, decide_eq_true_eq, Char.le_def, UInt32.le_iff_toNat_le,
    Char.toNat_val]
  split_ifs <;>
    simp only [Option.filter_some, Option.filter_none, Option.isSome_none, Option.isSome_ite,
      decide_eq_true_eq, Bool.false_eq_true, iff_false] <;>
    omega

end Text
end Splice
