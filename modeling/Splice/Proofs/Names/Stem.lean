import Mathlib.Order.Bounds.Defs
import Splice.Proofs.Names.Supply

/-!
This module contains what a fresh name is made of: the stem of its label, which is the label without
its counter, and the least counter with which that is not in use.
-/

namespace Splice

/--
The name is `s` with a counter: there is an underscore and at least one digit behind it, and it is
not empty itself.
-/
def HasCounter (name s : String) : Prop :=
  s ≠ "" ∧ ∃ digits : List Char, digits ≠ [] ∧ digits.all Char.isDigit = true ∧
    name.toList = s.toList ++ '_' :: digits

/--
The stem of a name is the name without its counter, if it has one.
-/
def IsStem (name s : String) : Prop :=
  HasCounter name s ∨ s = name ∧ ∀ s', ¬HasCounter name s'

theorem stem_of_hasCounter {name s : String} (h : HasCounter name s) : stem name = s := by
  obtain ⟨hs, digits, hne, hdigits, hname⟩ := h
  have hreverse : name.toList.reverse = digits.reverse ++ '_' :: s.toList.reverse := by
    rw [hname, List.reverse_append, List.reverse_cons, List.append_assoc]
    rfl
  have hall : ∀ c ∈ digits.reverse, c.isDigit = true := by
    intro c hc
    exact List.all_eq_true.1 hdigits c (List.mem_reverse.1 hc)
  have htake : name.toList.reverse.takeWhile Char.isDigit = digits.reverse := by
    rw [hreverse, List.takeWhile_append_of_pos hall, List.takeWhile_cons_of_neg (by decide),
      List.append_nil]
  have hdrop : name.toList.reverse.dropWhile Char.isDigit = '_' :: s.toList.reverse := by
    rw [hreverse, List.dropWhile_append_of_pos hall, List.dropWhile_cons_of_neg (by decide)]
  obtain ⟨c, cs, hcs⟩ := List.exists_cons_of_ne_nil (List.reverse_ne_nil_iff.2 hne)
  have hs' : s.toList ≠ [] := fun h => hs (String.toList_eq_nil_iff.1 h)
  obtain ⟨d, ds, hds⟩ := List.exists_cons_of_ne_nil (List.reverse_ne_nil_iff.2 hs')
  unfold stem
  dsimp only
  rw [htake, hdrop, hcs, hds]
  change String.ofList (d :: ds).reverse = s
  rw [← hds, List.reverse_reverse, String.ofList_toList]

theorem hasCounter_or_stem_eq (name : String) : HasCounter name (stem name) ∨ stem name = name := by
  unfold stem
  dsimp only
  split
  . next c cs d rest htake hdrop =>
    refine .inl ⟨?_, (c :: cs).reverse, by simp, ?_, ?_⟩
    . intro hempty
      have := congrArg String.toList hempty
      simp at this
    . rw [List.all_reverse, ← htake]
      exact List.all_takeWhile
    . have hsplit := List.takeWhile_append_dropWhile (p := Char.isDigit) (l := name.toList.reverse)
      rw [htake, hdrop] at hsplit
      have := congrArg List.reverse hsplit
      rw [List.reverse_reverse] at this
      simp [← this]
  . exact .inr rfl

theorem not_hasCounter {name : String} {c : Char} (hlast : c ∈ name.toList.getLast?)
    (hc : c.isDigit = false) (s : String) : ¬HasCounter name s := by
  rintro ⟨_, digits, hne, hdigits, hname⟩
  rw [hname, List.getLast?_append, List.getLast?_cons_of_ne_nil hne,
    List.getLast?_eq_some_getLast hne, Option.some_or, Option.mem_some] at hlast
  have hdigit := List.all_eq_true.1 hdigits _ (List.getLast_mem hne)
  rw [hlast, hc] at hdigit
  contradiction

theorem hasCounter_counted {s : String} (hs : s ≠ "") (k : Nat) : HasCounter (counted s k) s := by
  refine ⟨hs, (toString k).toList, Text.toList_toString_ne_nil k, ?_, ?_⟩
  . rw [List.all_eq_true]
    exact fun c hc => Text.isDigit_of_mem_toString hc
  . rw [toList_counted, String.toList_append, List.append_assoc]
    rfl

theorem isStem_stem (name : String) : IsStem name (stem name) := by
  by_cases h : ∃ s, HasCounter name s
  . obtain ⟨s, hs⟩ := h
    rw [stem_of_hasCounter hs]
    exact .inl hs
  . have hnone : ∀ s, ¬HasCounter name s := not_exists.1 h
    exact .inr ⟨(hasCounter_or_stem_eq name).resolve_left (hnone _), hnone⟩

theorem counted_mem_of_lt_freeCounter {s : String} {counter j : Nat} {taken : List String}
    (hle : counter ≤ j) (hlt : j < freeCounter s counter taken) : counted s j ∈ taken := by
  fun_induction freeCounter s counter taken with
  | case1 counter taken hmem ih =>
    rcases Nat.eq_or_lt_of_le hle with rfl | hle
    . exact hmem
    . exact List.mem_of_mem_erase (ih hle hlt)
  | case2 => omega

namespace Supply

theorem isStem_freshName (supply : Supply) {label : String} (hne : label ≠ "")
    (h : ∀ s, ¬HasCounter label s) : IsStem (supply.freshName label) label := by
  have hstem : stem label = label := (hasCounter_or_stem_eq label).resolve_left (h _)
  unfold freshName
  split
  . exact .inr ⟨rfl, h⟩
  . rw [hstem]
    exact .inl (hasCounter_counted hne _)

theorem startedBy_subset (supply : Supply) (s : String) : supply.startedBy s ⊆ supply.used := by
  intro x hx
  exact List.mem_reverse.1 (List.mem_filter.1 hx).1

theorem isLeast_freeCounter (supply : Supply) (s : String) :
    IsLeast { k | 1 ≤ k ∧ counted s k ∉ supply.used } (freeCounter s 1 (supply.startedBy s)) := by
  constructor
  . refine ⟨le_freeCounter s 1 _, fun hmem => ?_⟩
    exact counted_freeCounter_notMem s 1 _ (mem_startedBy hmem)
  . rintro k ⟨hpos, hfree⟩
    rw [← Nat.not_lt]
    intro hlt
    exact hfree (supply.startedBy_subset s (counted_mem_of_lt_freeCounter hpos hlt))

theorem exists_freshName {supply : Supply} {label : String} (h : label ∈ supply.used) :
    ∃ s k, IsStem label s ∧ IsLeast { k | 1 ≤ k ∧ counted s k ∉ supply.used } k ∧
      supply.freshName label = counted s k := by
  refine ⟨stem label, _, isStem_stem label, supply.isLeast_freeCounter _, ?_⟩
  unfold freshName
  rw [if_neg fun hfree => hfree.2.2 h]

end Supply
end Splice
