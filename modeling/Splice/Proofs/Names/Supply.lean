import Mathlib.Data.List.Perm.Basic
import Splice.Dialect
import Splice.Names.Supply
import Splice.Proofs.Text.Digits

/-!
This module contains what the passes rely on when they ask for a fresh name: it was not in use, it
is the only one that comes into use, and it is not the name of an instruction.
-/

namespace Splice

theorem toList_counted (s : String) (counter : Nat) :
    (counted s counter).toList = (s ++ "_").toList ++ (toString counter).toList := by
  unfold counted
  rw [String.toList_append]

theorem counted_inj {s : String} {m n : Nat} (h : counted s m = counted s n) : m = n := by
  have hlist := congrArg String.toList h
  rw [toList_counted, toList_counted, List.append_cancel_left_eq, String.toList_inj] at hlist
  exact Text.toString_inj hlist

theorem le_freeCounter (s : String) (counter : Nat) (taken : List String) :
    counter ≤ freeCounter s counter taken := by
  fun_induction freeCounter s counter taken with
  | case1 counter taken _ ih => omega
  | case2 => omega

theorem counted_freeCounter_notMem (s : String) (counter : Nat) (taken : List String) :
    counted s (freeCounter s counter taken) ∉ taken := by
  fun_induction freeCounter s counter taken with
  | case1 counter taken _ ih =>
    intro hmem
    apply ih
    have hne : counted s (freeCounter s (counter + 1) (taken.erase (counted s counter))) ≠
        counted s counter := by
      intro h
      have := counted_inj h
      have := le_freeCounter s (counter + 1) (taken.erase (counted s counter))
      omega
    exact (List.mem_erase_of_ne hne).2 hmem
  | case2 _ _ h => exact h

namespace Supply

theorem mem_add {supply : Supply} {x name : String} :
    x ∈ (supply.add name).used ↔ x = name ∨ x ∈ supply.used := by
  unfold add
  split
  . next h =>
    constructor
    . exact .inr
    . rintro (rfl | hx)
      . exact h
      . exact hx
  . exact List.mem_cons

theorem used_add {supply : Supply} {name : String} (h : name ∉ supply.used) :
    (supply.add name).used = name :: supply.used := by
  unfold add
  rw [dif_neg h]

theorem mem_foldl_add {supply : Supply} {x : String} (names : List String) :
    x ∈ (names.foldl add supply).used ↔ x ∈ names ∨ x ∈ supply.used := by
  induction names generalizing supply with
  | nil => simp
  | cons name names ih =>
    rw [List.foldl_cons, ih, mem_add, List.mem_cons]
    grind

theorem mem_ofNames {x : String} {names : List String} : x ∈ (ofNames names).used ↔ x ∈ names := by
  unfold ofNames
  rw [mem_foldl_add]
  simp [empty]

theorem mem_startedBy {supply : Supply} {s : String} {counter : Nat}
    (h : counted s counter ∈ supply.used) : counted s counter ∈ supply.startedBy s := by
  unfold startedBy
  rw [List.mem_filter, List.mem_reverse, List.isPrefixOf_iff_prefix, toList_counted]
  exact ⟨h, List.prefix_append _ _⟩

theorem freshName_notMem (supply : Supply) (label : String) :
    supply.freshName label ∉ supply.used := by
  unfold freshName
  split
  . next h => exact h.2.2
  . intro hmem
    exact counted_freeCounter_notMem _ _ _ (mem_startedBy hmem)

theorem used_fresh (supply : Supply) (label : String) :
    (supply.fresh label).2.used = (supply.fresh label).1 :: supply.used :=
  used_add (supply.freshName_notMem label)

theorem fresh_notMem (supply : Supply) (label : String) :
    (supply.fresh label).1 ∉ supply.used :=
  supply.freshName_notMem label

theorem underscore_mem_fresh {supply : Supply} {label : String}
    (h : label ∈ supply.used ∨ '_' ∈ label.toList) :
    '_' ∈ (supply.fresh label).1.toList := by
  unfold fresh freshName
  dsimp only
  split
  . next hl => exact h.resolve_left hl.2.2
  . simp [toList_counted]

structure Grows (s s' : Supply) (names : List String) : Prop where
  used : (names ++ s.used).Perm s'.used
  marked : ∀ x ∈ names, '_' ∈ x.toList

namespace Grows

variable {s s' s'' : Supply} {names names' : List String}

theorem refl (s : Supply) : s.Grows s [] :=
  ⟨.refl _, List.forall_mem_nil _⟩

theorem trans (h : s.Grows s' names) (h' : s'.Grows s'' names') :
    s.Grows s'' (names ++ names') where
  used := by
    have hswap : (names ++ names' ++ s.used).Perm (names' ++ (names ++ s.used)) := by
      rw [← List.append_assoc]
      exact List.perm_append_comm.append_right _
    exact hswap.trans ((h.used.append_left names').trans h'.used)
  marked := List.forall_mem_append.2 ⟨h.marked, h'.marked⟩

theorem perm (h : s.Grows s' names) (hn : names.Perm names') : s.Grows s' names' where
  used := (hn.symm.append_right _).trans h.used
  marked x hx := h.marked x (hn.mem_iff.2 hx)

theorem subset (h : s.Grows s' names) : s.used ⊆ s'.used :=
  fun _ hx => h.used.mem_iff.1 (List.mem_append_right _ hx)

theorem names_subset (h : s.Grows s' names) : names ⊆ s'.used :=
  fun _ hx => h.used.mem_iff.1 (List.mem_append_left _ hx)

theorem nodup (h : s.Grows s' names) : names.Nodup := by
  have hn := h.used.nodup_iff.2 s'.nodup
  rw [List.nodup_append] at hn
  exact hn.1

theorem notMem (h : s.Grows s' names) {x : String} (hx : x ∈ names) : x ∉ s.used := by
  have hn := h.used.nodup_iff.2 s'.nodup
  rw [List.nodup_append] at hn
  exact fun hu => hn.2.2 x hx x hu rfl

end Grows

theorem grows_fresh {supply : Supply} {label : String} (h : '_' ∈ label.toList) :
    supply.Grows (supply.fresh label).2 [(supply.fresh label).1] where
  used := by
    rw [used_fresh]
    exact .refl _
  marked x hx := by
    rw [List.mem_singleton.1 hx]
    exact underscore_mem_fresh (.inr h)

end Supply

theorem Instruction.underscore_notMem : ∀ i ∈ Instruction.all, '_' ∉ i.name.toList := by
  decide

theorem Instruction.isName_of_underscore {name : String} (h : '_' ∈ name.toList) :
    Instruction.isName name = false := by
  unfold isName find?
  rw [Option.isSome_eq_false_iff, Option.isNone_iff_eq_none, List.find?_eq_none]
  intro i hi heq
  rw [decide_eq_true_eq] at heq
  exact underscore_notMem i hi (heq ▸ h)

end Splice
