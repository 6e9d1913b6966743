import Mathlib.Data.List.Nodup
import Mathlib.Data.List.Perm.Subperm
import Mathlib.Logic.Relation
import Splice.Proofs.Names.Stem

/-!
This module contains what a supply gives out when it is asked for names again and again: they differ
from each other and from all names in use, the search for a counter is bounded by the number of
names in use, and a name that is made of a name has the same stem.
-/

namespace Splice

open Relation

/-! ## Stems -/

theorem IsStem.stem_eq {name s : String} (h : IsStem name s) : stem name = s := by
  rcases h with h | ⟨rfl, hnone⟩
  . exact stem_of_hasCounter h
  . exact (hasCounter_or_stem_eq s).resolve_left (hnone _)

theorem IsStem.ne_empty {name s : String} (h : IsStem name s) (hne : name ≠ "") : s ≠ "" := by
  rcases h with h | ⟨rfl, _⟩
  . exact h.1
  . exact hne

namespace Supply

/-! ## One name -/

theorem le_size_of_isLeast {supply : Supply} {s : String} {k : Nat}
    (hk : IsLeast { k | 1 ≤ k ∧ counted s k ∉ supply.used } k) : k ≤ supply.size + 1 := by
  have hsub : (List.range (k - 1)).map (fun j => counted s (j + 1)) ⊆ supply.used := by
    intro x hx
    obtain ⟨j, hj, rfl⟩ := List.mem_map.1 hx
    rw [List.mem_range] at hj
    by_contra hfree
    have hle : k ≤ j + 1 := hk.2 ⟨Nat.le_add_left 1 j, hfree⟩
    omega
  have hnodup : ((List.range (k - 1)).map fun j => counted s (j + 1)).Nodup := by
    refine List.Nodup.map ?_ List.nodup_range
    intro i j hij
    exact Nat.add_right_cancel (counted_inj hij)
  have hlength := (hnodup.subperm hsub).length_le
  rw [List.length_map, List.length_range] at hlength
  unfold size
  omega

/--
What a supply calls a name that is made of `label`: the label itself if it is not empty, has no
counter and is not in use, and else its stem with the least counter from 1 on that makes a name that
is not in use. There are no more counters below that one than names in use.
-/
inductive Makes (supply : Supply) (label : String) : String → Prop
  | plain (hne : label ≠ "") (hs : IsStem label label) (hfree : label ∉ supply.used) :
    Makes supply label label
  | numbered {s : String} {k : Nat} (hs : IsStem label s)
    (hold : label = "" ∨ s ≠ label ∨ label ∈ supply.used)
    (hk : IsLeast { k | 1 ≤ k ∧ counted s k ∉ supply.used } k) (hbound : k ≤ supply.size + 1) :
    Makes supply label (counted s k)

theorem makes_fresh (supply : Supply) (label : String) :
    supply.Makes label (supply.fresh label).1 := by
  have hs := isStem_stem label
  have hk := supply.isLeast_freeCounter (stem label)
  unfold fresh freshName
  dsimp only
  split
  . next h =>
    rw [h.2.1] at hs
    exact .plain h.1 hs h.2.2
  . next h =>
    refine .numbered hs ?_ hk (le_size_of_isLeast hk)
    by_contra hall
    simp only [not_or, not_not] at hall
    exact h hall

theorem size_fresh (supply : Supply) (label : String) :
    (supply.fresh label).2.size = supply.size + 1 := by
  unfold size
  rw [used_fresh, List.length_cons]

namespace Makes

variable {supply : Supply} {label name : String}

theorem ne_empty (h : supply.Makes label name) : name ≠ "" := by
  cases h with
  | plain hne => exact hne
  | numbered =>
    intro heq
    have := congrArg String.toList heq
    simp [toList_counted] at this

theorem isStem (h : supply.Makes label name) (hne : label ≠ "") {s : String}
    (hs : IsStem label s) : IsStem name s := by
  cases h with
  | plain => exact hs
  | numbered hs' =>
    rw [← hs'.stem_eq, hs.stem_eq]
    exact .inl (hasCounter_counted (hs.ne_empty hne) _)

end Makes

/-! ## One name after the other -/

def freshNames (supply : Supply) : List String → List String
  | [] => []
  | label :: labels => (supply.fresh label).1 :: (supply.fresh label).2.freshNames labels

def afterFresh (supply : Supply) : List String → Supply
  | [] => supply
  | label :: labels => (supply.fresh label).2.afterFresh labels

variable (supply : Supply)

@[simp]
theorem length_freshNames (labels : List String) :
    (supply.freshNames labels).length = labels.length := by
  induction labels generalizing supply with
  | nil => rfl
  | cons label labels ih => rw [freshNames, List.length_cons, List.length_cons, ih]

theorem afterFresh_append (as bs : List String) :
    supply.afterFresh (as ++ bs) = (supply.afterFresh as).afterFresh bs := by
  induction as generalizing supply with
  | nil => rfl
  | cons a as ih => exact ih _

theorem freshNames_append (as bs : List String) :
    supply.freshNames (as ++ bs) =
      supply.freshNames as ++ (supply.afterFresh as).freshNames bs := by
  induction as generalizing supply with
  | nil => rfl
  | cons a as ih =>
    rw [List.cons_append, freshNames, ih]
    rfl

theorem used_afterFresh (labels : List String) :
    (supply.afterFresh labels).used = (supply.freshNames labels).reverse ++ supply.used := by
  induction labels generalizing supply with
  | nil => rfl
  | cons label labels ih =>
    rw [afterFresh, freshNames, ih, used_fresh, List.reverse_cons, List.append_assoc]
    rfl

theorem size_afterFresh (labels : List String) :
    (supply.afterFresh labels).size = supply.size + labels.length := by
  unfold size
  rw [used_afterFresh, List.length_append, List.length_reverse, length_freshNames, Nat.add_comm]

theorem nodup_freshNames (labels : List String) : (supply.freshNames labels).Nodup := by
  have h := (supply.afterFresh labels).nodup
  rw [used_afterFresh, List.nodup_append, List.nodup_reverse] at h
  exact h.1

theorem freshNames_notMem {labels : List String} {name : String}
    (hname : name ∈ supply.freshNames labels) : name ∉ supply.used := by
  have h := (supply.afterFresh labels).nodup
  rw [used_afterFresh, List.nodup_append] at h
  exact fun hmem => h.2.2 name (List.mem_reverse.2 hname) name hmem rfl

theorem grows_afterFresh {labels : List String} (h : ∀ label ∈ labels, '_' ∈ label.toList) :
    supply.Grows (supply.afterFresh labels) (supply.freshNames labels) := by
  induction labels generalizing supply with
  | nil => exact .refl _
  | cons label labels ih =>
    rw [List.forall_mem_cons] at h
    exact (grows_fresh h.1).trans (ih (supply.fresh label).2 h.2)

theorem freshNames_take (labels : List String) (i : Nat) :
    supply.freshNames (labels.take i) = (supply.freshNames labels).take i := by
  induction labels generalizing supply i with
  | nil => rw [List.take_nil, freshNames, List.take_nil]
  | cons label labels ih =>
    cases i with
    | zero => rfl
    | succ i => rw [List.take_succ_cons, freshNames, freshNames, List.take_succ_cons, ih]

theorem getElem?_freshNames (labels : List String) (i : Nat) :
    (supply.freshNames labels)[i]? =
      labels[i]?.map fun label => ((supply.afterFresh (labels.take i)).fresh label).1 := by
  induction labels generalizing supply i with
  | nil => rfl
  | cons label labels ih =>
    cases i with
    | zero => rfl
    | succ i =>
      rw [freshNames, List.getElem?_cons_succ, List.getElem?_cons_succ, ih]
      rfl

theorem mem_used_afterFresh {supply : Supply} {labels : List String} {x : String} :
    x ∈ (supply.afterFresh labels).used ↔ x ∈ supply.used ∨ x ∈ supply.freshNames labels := by
  rw [used_afterFresh, List.mem_append, List.mem_reverse, or_comm]

def Gives (labels names : List String) (x y : String) : Prop :=
  ∃ i : Nat, labels[i]? = some x ∧ names[i]? = some y

theorem makes_of_gives {supply : Supply} {labels : List String} {x y : String}
    (h : Gives labels (supply.freshNames labels) x y) : ∃ supply' : Supply, supply'.Makes x y := by
  obtain ⟨i, hx, hy⟩ := h
  rw [getElem?_freshNames, hx, Option.map_some, Option.some.injEq] at hy
  rw [← hy]
  exact ⟨_, makes_fresh _ _⟩

/--
However often a supply is asked, it gives out one name for each label. That is none of the names
that were in use from the start and none of those given out before, and it is made of the label as
`Makes` says. Then one more name is in use. All names that are made of a name, of what was made of
that, and so on, have the same stem.
-/
theorem freshNames_new (seed labels : List String) :
    ((ofNames seed).freshNames labels).length = labels.length ∧
    (∀ i label, labels[i]? = some label →
      ∃ name, ((ofNames seed).freshNames labels)[i]? = some name ∧
        name ∉ seed ∧ name ∉ ((ofNames seed).freshNames labels).take i ∧
        (∀ x, x ∈ ((ofNames seed).afterFresh (labels.take i)).used ↔
          x ∈ seed ∨ x ∈ ((ofNames seed).freshNames labels).take i) ∧
        ((ofNames seed).afterFresh (labels.take i)).Makes label name ∧
        ((ofNames seed).afterFresh (labels.take (i + 1))).size =
          ((ofNames seed).afterFresh (labels.take i)).size + 1) ∧
    ∀ x y, ReflTransGen (Gives labels ((ofNames seed).freshNames labels)) x y → x ≠ "" →
      ∀ s, IsStem x s → IsStem y s := by
  refine ⟨length_freshNames _ labels, ?_, ?_⟩
  . intro i label hlabel
    have hused : ∀ x, x ∈ ((ofNames seed).afterFresh (labels.take i)).used ↔
        x ∈ seed ∨ x ∈ ((ofNames seed).freshNames labels).take i := by
      intro x
      rw [mem_used_afterFresh, mem_ofNames, freshNames_take]
    have hnew := ((ofNames seed).afterFresh (labels.take i)).fresh_notMem label
    rw [hused, not_or] at hnew
    refine ⟨_, ?_, hnew.1, hnew.2, hused, makes_fresh _ label, ?_⟩
    . rw [getElem?_freshNames, hlabel, Option.map_some]
    . rw [List.take_add_one, hlabel, afterFresh_append]
      exact size_fresh _ label
  . intro x y hxy hne s hs
    -- Along the chain the stem stays, and no name is empty.
    have hboth : y ≠ "" ∧ IsStem y s := by
      induction hxy with
      | refl => exact ⟨hne, hs⟩
      | tail _ hyz ih =>
        obtain ⟨supply, hmakes⟩ := makes_of_gives hyz
        exact ⟨hmakes.ne_empty, hmakes.isStem ih.1 ih.2⟩
    exact hboth.2

/--
A name that is in use, a name with a counter that is free, one that was given out before, a label
that is nothing but a counter, and no label at all.
-/
theorem freshNames_new_chain :
    ∃ name, ["a", "a_7", "a_2", "_1", ""][2]? = some "a_2" ∧
      ((ofNames ["a", "a_1", "_2"]).freshNames ["a", "a_7", "a_2", "_1", ""])[2]? = some name ∧
      name = "a_4" ∧ name ∉ ["a", "a_1", "_2"] ∧
      ((ofNames ["a", "a_1", "_2"]).afterFresh ["a", "a_7"]).Makes "a_2" name ∧
      ReflTransGen (Gives ["a", "a_7", "a_2", "_1", ""]
        ((ofNames ["a", "a_1", "_2"]).freshNames ["a", "a_7", "a_2", "_1", ""])) "a" "a_4" ∧
      "a" ≠ "" ∧ IsStem "a" "a" ∧ IsStem "a_4" "a" := by
  have hnames : (ofNames ["a", "a_1", "_2"]).freshNames ["a", "a_7", "a_2", "_1", ""] =
      ["a_2", "a_3", "a_4", "_1", "_3"] := by
    decide +kernel
  obtain ⟨_, hmade, hchain⟩ := freshNames_new ["a", "a_1", "_2"] ["a", "a_7", "a_2", "_1", ""]
  obtain ⟨name, hname, hseed, _, _, hmakes, _⟩ := hmade 2 "a_2" rfl
  have hsteps : ReflTransGen (Gives ["a", "a_7", "a_2", "_1", ""]
      ((ofNames ["a", "a_1", "_2"]).freshNames ["a", "a_7", "a_2", "_1", ""])) "a" "a_4" := by
    rw [hnames]
    exact (ReflTransGen.single ⟨0, rfl, rfl⟩).tail ⟨2, rfl, rfl⟩
  have hstem : IsStem "a" "a" := by
    have h := isStem_stem "a"
    rwa [show stem "a" = "a" by decide +kernel] at h
  refine ⟨name, rfl, hname, ?_, hseed, hmakes, hsteps, by decide, hstem,
    hchain "a" "a_4" hsteps (by decide) "a" hstem⟩
  rw [hnames] at hname
  exact (Option.some.inj hname).symm

end Supply
end Splice
