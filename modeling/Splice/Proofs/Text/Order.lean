import Mathlib.Data.List.Induction
import Splice.Text.Order

/-!
This module contains what an ordered list holds: of the given members with one key the last one, in
the order of the keys.
-/

namespace Splice
namespace Text

variable {α : Type} {key : α → String}

theorem insertBy_subset (a : α) (as : List α) : insertBy key a as ⊆ a :: as := by
  induction as with
  | nil => exact List.Subset.refl _
  | cons b bs ih =>
    unfold insertBy
    split
    . exact List.Subset.refl _
    . split
      . exact List.cons_subset_cons a (List.subset_cons_self b bs)
      . apply List.cons_subset.2 ⟨List.mem_cons_of_mem a List.mem_cons_self, _⟩
        exact List.Subset.trans ih (List.cons_subset_cons a (List.subset_cons_self b bs))

theorem pairwise_insertBy (a : α) {as : List α} (h : as.Pairwise fun x y => key x < key y) :
    (insertBy key a as).Pairwise fun x y => key x < key y := by
  induction as with
  | nil => exact List.pairwise_singleton _ a
  | cons b bs ih =>
    rw [List.pairwise_cons] at h
    unfold insertBy
    split
    . next hab =>
      refine List.pairwise_cons.2 ⟨?_, List.pairwise_cons.2 h⟩
      intro x hx
      rcases List.mem_cons.1 hx with rfl | hx
      . exact hab
      . exact String.lt_trans hab (h.1 x hx)
    . next hab =>
      split
      . next heq =>
        apply List.pairwise_cons.2 ⟨_, h.2⟩
        rw [heq]
        exact h.1
      . next hne =>
        refine List.pairwise_cons.2 ⟨?_, ih h.2⟩
        intro x hx
        rcases List.mem_cons.1 (insertBy_subset a bs hx) with rfl | hx
        . exact Std.lt_of_le_of_ne hab (Ne.symm hne)
        . exact h.1 x hx

theorem find?_insertBy (a : α) (as : List α) (k : String) :
    (insertBy key a as).find? (key · = k) = (a :: as).find? (key · = k) := by
  induction as with
  | nil => rfl
  | cons b bs ih =>
    unfold insertBy
    split
    . rfl
    . split
      . next heq =>
        simp only [List.find?_cons, heq]
        split <;> rfl
      . next hne =>
        rw [List.find?_cons, ih, List.find?_cons, List.find?_cons]
        grind

theorem orderBy_concat (as : List α) (a : α) :
    orderBy key (as ++ [a]) = insertBy key a (orderBy key as) := by
  unfold orderBy
  rw [List.foldl_append]
  rfl

theorem pairwise_orderBy (as : List α) :
    (orderBy key as).Pairwise fun x y => key x < key y := by
  induction as using List.reverseRecOn with
  | nil => exact .nil
  | append_singleton as a ih =>
    rw [orderBy_concat]
    exact pairwise_insertBy a ih

theorem find?_orderBy (as : List α) (k : String) :
    (orderBy key as).find? (key · = k) = as.reverse.find? (key · = k) := by
  induction as using List.reverseRecOn with
  | nil => rfl
  | append_singleton as a ih =>
    rw [orderBy_concat, find?_insertBy, List.reverse_append, List.reverse_singleton,
      List.singleton_append, List.find?_cons, List.find?_cons, ih]

theorem nodup_keys_orderBy (as : List α) : ((orderBy key as).map key).Nodup := by
  apply (List.pairwise_map.2 (pairwise_orderBy as)).imp
  intro a b hab heq
  rw [heq] at hab
  exact String.lt_irrefl b hab

theorem find?_key_of_nodup {as : List α} (h : (as.map key).Nodup) {x : α} :
    as.find? (key · = key x) = some x ↔ x ∈ as := by
  constructor
  . exact List.mem_of_find?_eq_some
  . intro hx
    induction as with
    | nil => contradiction
    | cons a as ih =>
      rw [List.map_cons, List.nodup_cons] at h
      rw [List.find?_cons]
      rcases List.mem_cons.1 hx with rfl | hx
      . simp
      . have hne : key a ≠ key x := fun heq => h.1 (heq ▸ List.mem_map_of_mem hx)
        simpa [hne] using ih h.2 hx

theorem mem_orderBy {as : List α} {x : α} :
    x ∈ orderBy key as ↔ as.reverse.find? (key · = key x) = some x := by
  rw [← find?_orderBy, find?_key_of_nodup (nodup_keys_orderBy as)]

theorem mem_orderBy_of_nodup {as : List α} (h : (as.map key).Nodup) {x : α} :
    x ∈ orderBy key as ↔ x ∈ as := by
  have hreverse : (as.reverse.map key).Nodup := by
    rw [List.map_reverse]
    exact (List.reverse_perm _).nodup_iff.2 h
  rw [mem_orderBy, find?_key_of_nodup hreverse, List.mem_reverse]

theorem mem_ordered {texts : List String} {x : String} : x ∈ ordered texts ↔ x ∈ texts := by
  unfold ordered
  rw [mem_orderBy, ← List.mem_reverse]
  constructor
  . exact List.mem_of_find?_eq_some
  . intro hx
    cases hfound : texts.reverse.find? (id · = id x) with
    | none => simpa using List.find?_eq_none.1 hfound x hx
    | some y =>
      have hy : y = x := by simpa using List.find?_some hfound
      rw [hy]

theorem nodup_ordered (texts : List String) : (ordered texts).Nodup := by
  have hkeys : ((orderBy id texts).map id).Nodup := nodup_keys_orderBy texts
  rwa [List.map_id] at hkeys

end Text
end Splice
