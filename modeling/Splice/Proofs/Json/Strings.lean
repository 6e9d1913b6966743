import Splice.Json.Reader
import Splice.Proofs.Text.Digits

/-!
This module contains the proof that the strings and the numbers of a JSON text are read as they were
written.
-/

namespace Splice
namespace Json

/-! ## Strings -/

theorem hexUnit?_control {n : Nat} (h : n < 0x20) :
    hexUnit? '0' '0' (Text.hexDigit (n / 16)) (Text.hexDigit (n % 16)) = some n :=
  (by decide : ∀ m : Fin 0x20,
    hexUnit? '0' '0' (Text.hexDigit (m / 16)) (Text.hexDigit (m % 16)) = some m.val) ⟨n, h⟩

theorem readString?_unit {a b c d : Char} {unit : Nat} (h : hexUnit? a b c d = some unit)
    (hunit : startsPair unit = false) (cs : List Char) :
    readString? ('\\' :: 'u' :: a :: b :: c :: d :: cs) =
      push (ofUnit? unit) (readString? cs) := by
  rw [readString?]
  simp only [h, hunit]
  rfl

theorem ofUnit?_toNat (c : Char) : ofUnit? c.toNat = some c := by
  have hvalid : c.toNat.isValidChar := c.valid
  unfold ofUnit?
  rw [if_pos hvalid, Char.ofNat_toNat]

theorem readString?_plain {c : Char} (hquote : c ≠ '"') (hslash : c ≠ '\\') (h : ¬ c.toNat < 0x20)
    (cs : List Char) : readString? (c :: cs) = push (some c) (readString? cs) := by
  rw [readString?]
  . rw [if_neg h]
  . exact fun heq => hquote heq
  . exact fun _ _ _ _ _ heq _ => hslash heq
  . exact fun _ _ heq _ => hslash heq

theorem readString?_escape (c : Char) (cs : List Char) :
    readString? (escape c ++ cs) = push (some c) (readString? cs) := by
  unfold escape
  split
  . next h => subst h; rfl
  split
  . next h => subst h; rfl
  split
  . next h => subst h; rfl
  split
  . next h => subst h; rfl
  split
  . next h => subst h; rfl
  split
  . next h => subst h; rfl
  split
  . next h => subst h; rfl
  split
  . next h =>
    have hunit : startsPair c.toNat = false := by
      unfold startsPair
      simp only [Bool.and_eq_false_iff, decide_eq_false_iff_not]
      omega
    refine (readString?_unit (hexUnit?_control h) hunit cs).trans ?_
    rw [ofUnit?_toNat]
  . next hquote hslash _ _ _ _ _ h => exact readString?_plain hquote hslash h cs

theorem readString?_escaped (text rest : List Char) :
    readString? (text.flatMap escape ++ '"' :: rest) = some (text, rest) := by
  induction text with
  | nil => rfl
  | cons c text ih =>
    rw [List.flatMap_cons, List.append_assoc, readString?_escape, ih]
    rfl

theorem toList_quote (text : String) :
    (quote text).toList = '"' :: (text.toList.flatMap escape ++ ['"']) := by
  unfold quote
  simp only [String.toList_append, String.toList_ofList]
  exact List.append_assoc ['"'] _ _

/-! ## Numbers -/

theorem head_toDigits {n : Nat} {cs : List Char} (h : Nat.toDigits 10 n = '0' :: cs) : cs = [] := by
  induction n using Nat.strongRecOn generalizing cs with
  | _ n ih =>
    by_cases hn : n < 10
    . rw [Nat.toDigits_of_lt_base hn] at h
      exact (List.cons.inj h).2.symm
    . rw [Nat.toDigits_of_base_le (by decide) (Nat.le_of_not_lt hn)] at h
      obtain ⟨c, cs', hc⟩ := List.exists_cons_of_ne_nil
        (Nat.toDigits_ne_nil : Nat.toDigits 10 (n / 10) ≠ [])
      rw [hc, List.cons_append, List.cons.injEq] at h
      obtain ⟨rfl, -⟩ := h
      have hzero : n / 10 = 0 := by
        have hdigits := congrArg (Nat.ofDigitChars 10 · 0) hc
        rw [ih (n / 10) (by omega) hc, Nat.ofDigitChars_ten_toDigits] at hdigits
        exact hdigits
      omega

def EndsNumber (rest : List Char) : Prop :=
  ∀ c ∈ rest.head?, c.isDigit = false ∧ c ≠ '.' ∧ c ≠ 'e' ∧ c ≠ 'E'

theorem takeWhile_digits {n : Nat} {rest : List Char} (h : EndsNumber rest) :
    (Nat.toDigits 10 n ++ rest).takeWhile Char.isDigit = Nat.toDigits 10 n ∧
    (Nat.toDigits 10 n ++ rest).dropWhile Char.isDigit = rest := by
  rw [List.takeWhile_append_of_pos fun _ => Text.isDigit_of_mem_toDigits,
    List.dropWhile_append_of_pos fun _ => Text.isDigit_of_mem_toDigits]
  cases rest with
  | nil => exact ⟨List.append_nil _, rfl⟩
  | cons c rest =>
    have hc := (h c rfl).1
    rw [List.takeWhile_cons_of_neg (by simp [hc]), List.dropWhile_cons_of_neg (by simp [hc])]
    exact ⟨List.append_nil _, rfl⟩

theorem readDigits?_digits {n : Nat} {rest : List Char} (h : EndsNumber rest) :
    readDigits? (Nat.toDigits 10 n ++ rest) = some (Nat.toDigits 10 n, rest) := by
  unfold readDigits?
  rw [(takeWhile_digits h).1, (takeWhile_digits h).2]
  split
  . next hnil => exact (Nat.toDigits_ne_nil hnil).elim
  . rfl

theorem readInteger?_digits {n : Nat} {rest : List Char} (h : EndsNumber rest) :
    readInteger? (Nat.toDigits 10 n ++ rest) = some (Nat.toDigits 10 n, rest) := by
  unfold readInteger?
  split
  . next cs heq =>
    obtain ⟨c, ds, hds⟩ := List.exists_cons_of_ne_nil
      (Nat.toDigits_ne_nil : Nat.toDigits 10 n ≠ [])
    rw [hds, List.cons_append, List.cons.injEq] at heq
    obtain ⟨rfl, rfl⟩ := heq
    obtain rfl := head_toDigits hds
    rw [hds]
    rfl
  . exact readDigits?_digits h

theorem readFraction?_of_ends {rest : List Char} (h : EndsNumber rest) :
    readFraction? rest = some ([], rest) := by
  unfold readFraction?
  split
  . exact ((h '.' rfl).2.1 rfl).elim
  . rfl

theorem readExponent?_of_ends {rest : List Char} (h : EndsNumber rest) :
    readExponent? rest = some ([], rest) := by
  have hmark : ∀ c ∈ rest.head?, readExponent?.isMark c = false := by
    intro c hc
    simp [readExponent?.isMark, (h c hc).2.2.1, (h c hc).2.2.2]
  unfold readExponent?
  split
  . rw [hmark _ rfl]
    rfl
  . rw [hmark _ rfl]
    rfl
  . rw [hmark _ rfl]
    rfl
  . rfl

theorem readNumber?_digits {n : Nat} {rest : List Char} (h : EndsNumber rest) :
    readNumber? (Nat.toDigits 10 n ++ rest) = some (Nat.toDigits 10 n, rest) := by
  have hsign : readNumber?.dropSign (Nat.toDigits 10 n ++ rest) =
      ([], Nat.toDigits 10 n ++ rest) := by
    unfold readNumber?.dropSign
    split
    . next cs heq =>
      obtain ⟨c, ds, hds⟩ := List.exists_cons_of_ne_nil
        (Nat.toDigits_ne_nil : Nat.toDigits 10 n ≠ [])
      have hdigit : c.isDigit = true := Text.isDigit_of_mem_toDigits (n := n) (hds ▸ List.mem_cons_self)
      rw [hds, List.cons_append, List.cons.injEq] at heq
      rw [heq.1] at hdigit
      contradiction
    . rfl
  unfold readNumber?
  simp only [hsign, readInteger?_digits h, readFraction?_of_ends h, readExponent?_of_ends h,
    Option.bind_eq_bind, Option.bind_some, List.nil_append, List.append_nil, Option.pure_def]

theorem decimal?_toString (n : Nat) : decimal? (toString n).toList = some n := by
  rw [Text.toList_toString]
  unfold decimal?
  have hdigits : (Nat.toDigits 10 n).any (fun c => !c.isDigit) = false := by
    rw [List.any_eq_false]
    intro c hc
    simp [Text.isDigit_of_mem_toDigits hc]
  have hempty : (Nat.toDigits 10 n).isEmpty = false := by
    rw [List.isEmpty_eq_false_iff]
    exact Nat.toDigits_ne_nil
  rw [hempty, hdigits]
  have hvalue := Nat.ofDigitChars_ten_toDigits (n := n)
  rw [Nat.ofDigitChars_eq_foldl] at hvalue
  simp only [Nat.mul_comm] at hvalue
  simpa using hvalue

end Json
end Splice
