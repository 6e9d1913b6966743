import Mathlib.Data.Finset.Card
import Splice.Pass.Disambiguate
import Splice.Proofs.Names.Stem

/-!
This module contains what a run of the pass decides about names, binding by binding: which bindings
keep their names, and what the others are called.
-/

namespace Splice
namespace Disambiguation

/--
What a binding of `x` is called behind bindings of the names `olds`, which are called `news` by now:
the first one keeps its name, and a later one has the least counter that makes a new name of its
stem. The `reserved` names are not new.
-/
inductive Called (reserved olds news : List String) (x : String) : String → Prop
  | kept (hx : x ∉ olds) : Called reserved olds news x x
  | renamed {s : String} {k : Nat} (hx : x ∈ olds) (hs : IsStem x s)
    (hk : IsLeast { k | 1 ≤ k ∧ counted s k ∉ reserved ∧ counted s k ∉ news } k) :
    Called reserved olds news x (counted s k)

inductive Ledger (reserved : List String) : List String → List String → Prop
  | nil : Ledger reserved [] []
  | snoc {olds news : List String} {x y : String} (h : Ledger reserved olds news)
    (hy : Called reserved olds news x y) : Ledger reserved (olds ++ [x]) (news ++ [y])

def changed (olds news : List String) : Renames :=
  (olds.zip news).filter fun p => p.1 ≠ p.2

theorem changed_concat_of_ne {olds news : List String} (h : olds.length = news.length)
    {x y : String} (hne : x ≠ y) :
    changed (olds ++ [x]) (news ++ [y]) = changed olds news ++ [(x, y)] := by
  unfold changed
  rw [List.zip_append h, List.filter_append]
  exact congrArg _ (List.filter_cons_of_pos (decide_eq_true hne))

theorem changed_concat_self {olds news : List String} (h : olds.length = news.length) (x : String) :
    changed (olds ++ [x]) (news ++ [x]) = changed olds news := by
  unfold changed
  rw [List.zip_append h, List.filter_append]
  simp

theorem mem_changed {olds news : List String} (h : olds.length = news.length) {z : String}
    (hz : z ∉ olds) : z ∈ (changed olds news).map Prod.snd ↔ z ∈ news := by
  unfold changed
  rw [List.mem_map]
  constructor
  . rintro ⟨⟨x, y⟩, hmem, rfl⟩
    exact (List.of_mem_zip (List.mem_filter.1 hmem).1).2
  . intro hmem
    rw [← List.map_snd_zip h.ge] at hmem
    obtain ⟨⟨x, y⟩, hpair, rfl⟩ := List.mem_map.1 hmem
    have hne : x ≠ y := fun heq => hz (heq ▸ (List.of_mem_zip hpair).1)
    exact ⟨(x, y), List.mem_filter.2 ⟨hpair, decide_eq_true hne⟩, rfl⟩

namespace Called

variable {reserved olds news : List String} {x y : String}

theorem eq_iff (h : Called reserved olds news x y) (hx : x ∈ reserved) : y = x ↔ x ∉ olds := by
  cases h with
  | kept hnew => exact iff_of_true rfl hnew
  | renamed hold hs hk =>
    refine iff_of_false ?_ (not_not_intro hold)
    rintro rfl
    exact hk.1.2.1 hx

end Called

namespace Ledger

variable {reserved olds news : List String}

theorem length_eq (h : Ledger reserved olds news) : olds.length = news.length := by
  induction h with
  | nil => rfl
  | snoc _ _ ih => rw [List.length_append, List.length_append, ih, List.length_singleton,
      List.length_singleton]

theorem mem_iff (h : Ledger reserved olds news) {z : String} (hz : z ∈ reserved) :
    z ∈ news ↔ z ∈ olds := by
  induction h with
  | nil => rfl
  | snoc _ hy ih =>
    rw [List.mem_append, List.mem_append, ih, List.mem_singleton, List.mem_singleton]
    cases hy with
    | kept => rfl
    | renamed hold hs hk =>
      have hne : z ≠ counted _ _ := fun h => hk.1.2.1 (h ▸ hz)
      constructor
      . exact fun h => .inl (h.resolve_right hne)
      . rintro (h | rfl)
        . exact .inl h
        . exact .inl hold

theorem called (h : Ledger reserved olds news) {i : Nat} {x y : String} (hx : olds[i]? = some x)
    (hy : news[i]? = some y) : Called reserved (olds.take i) (news.take i) x y := by
  -- On the ledger: what an entry was made of does not change with the entries behind it.
  induction h with
  | nil => contradiction
  | @snoc olds news x' y' h hcalled ih =>
    have hlength := h.length_eq
    have hi := (List.getElem?_eq_some_iff.1 hx).1
    rw [List.length_append, List.length_singleton] at hi
    rcases Nat.lt_succ_iff_lt_or_eq.1 hi with hi | rfl
    . have hi' : i < news.length := hlength ▸ hi
      rw [List.getElem?_append_left hi] at hx
      rw [List.getElem?_append_left hi'] at hy
      rw [List.take_append_of_le_length hi.le, List.take_append_of_le_length hi'.le]
      exact ih hx hy
    . rw [List.getElem?_concat_length] at hx
      rw [hlength, List.getElem?_concat_length] at hy
      cases hx
      cases hy
      rw [List.take_left, hlength, List.take_left]
      exact hcalled

theorem length_changed (h : Ledger reserved olds news) (hsub : olds ⊆ reserved) :
    (changed olds news).length + olds.toFinset.card = olds.length := by
  induction h with
  | nil => rfl
  | @snoc olds news x y h hcalled ih =>
    obtain ⟨hsub, hx⟩ := List.append_subset.1 hsub
    have hiff := hcalled.eq_iff (hx List.mem_cons_self)
    have ih := ih hsub
    rw [List.length_append, List.length_singleton, List.toFinset_append]
    -- Each binding is either renamed, or the first one of a name.
    by_cases hmem : x ∈ olds
    . have hne : x ≠ y := fun h => hiff.1 h.symm hmem
      have hset : olds.toFinset ∪ [x].toFinset = olds.toFinset := by simpa using hmem
      rw [changed_concat_of_ne h.length_eq hne, hset, List.length_append, List.length_singleton]
      omega
    . obtain rfl : y = x := hiff.2 hmem
      have hset : (olds.toFinset ∪ [y].toFinset).card = olds.toFinset.card + 1 := by
        have hdisjoint : Disjoint olds.toFinset [y].toFinset := by simpa using hmem
        rw [Finset.card_union_of_disjoint hdisjoint]
        rfl
      rw [changed_concat_self h.length_eq, hset]
      omega

end Ledger

/-! ## The state -/

theorem State.scopes_bind {s : State} {scope : Renames} {outer : List Renames}
    (h : s.scopes = scope :: outer) (x : String) :
    (s.bind x).2.scopes = ((x, (s.bind x).1) :: scope) :: outer := by
  unfold State.bind State.record
  dsimp only
  rw [h]
  split <;> rfl

structure Booked (reserved external olds news : List String) (s : State) : Prop where
  ledger : Ledger reserved olds news
  taken : ∀ y, y ∈ s.taken ↔ y ∈ news ∨ y ∈ external
  used : ∀ y, y ∈ s.supply.used ↔ y ∈ reserved ∨ y ∈ news
  bindings : s.bindings = olds.length
  renamed : s.renamed = changed olds news

namespace Booked

variable {reserved external olds news : List String} {s : State}

theorem initial (info : Info) (b : Block) :
    Booked (b.boundNames ++ info.external) info.external [] [] (.initial info b) where
  ledger := .nil
  taken y := by simp [State.initial]
  used y := by simp [State.initial, Supply.mem_ofNames]
  bindings := rfl
  renamed := rfl

theorem congr (h : Booked reserved external olds news s) {s' : State} (htaken : s'.taken = s.taken)
    (hsupply : s'.supply = s.supply) (hbindings : s'.bindings = s.bindings)
    (hrenamed : s'.renamed = s.renamed) : Booked reserved external olds news s' where
  ledger := h.ledger
  taken := htaken ▸ h.taken
  used := hsupply ▸ h.used
  bindings := hbindings ▸ h.bindings
  renamed := hrenamed ▸ h.renamed

theorem record (h : Booked reserved external olds news s) (before after : String) :
    Booked reserved external olds news (s.record before after) := by
  unfold State.record
  split
  . exact h
  . exact h.congr rfl rfl rfl rfl

theorem bind (h : Booked reserved external olds news s) {x : String} (hx : x ∈ reserved)
    (hforeign : x ∉ external) :
    Booked reserved external (olds ++ [x]) (news ++ [(s.bind x).1]) (s.bind x).2 := by
  have hmem : x ∈ s.taken ↔ x ∈ olds := by
    rw [h.taken, h.ledger.mem_iff hx]
    exact or_iff_left hforeign
  have hlength := h.ledger.length_eq
  have hcount : s.bindings + 1 = (olds ++ [x]).length := by
    rw [h.bindings, List.length_append, List.length_singleton]
  unfold State.bind
  dsimp only
  split
  . next htaken =>
    -- All names of the program are in use from the start, so that the new name has a counter.
    obtain ⟨root, k, hroot, hk, hname⟩ := Supply.exists_freshName ((h.used x).2 (.inl hx))
    have hused := s.supply.used_fresh x
    have hfresh : (s.supply.fresh x).1 = counted root k := hname
    have hleast :
        IsLeast { k | 1 ≤ k ∧ counted root k ∉ reserved ∧ counted root k ∉ news } k := by
      simpa only [h.used, not_or] using hk
    refine record ?_ x _
    refine ⟨?_, ?_, ?_, hcount, ?_⟩
    . rw [hfresh]
      exact h.ledger.snoc (.renamed (hmem.1 htaken) hroot hleast)
    . intro y
      rw [List.mem_cons, h.taken, List.mem_append, List.mem_singleton]
      grind
    . intro y
      rw [hused, List.mem_cons, h.used, List.mem_append, List.mem_singleton]
      grind
    . have hne : x ≠ counted root k := fun heq => hleast.1.2.1 (heq ▸ hx)
      rw [hfresh, changed_concat_of_ne hlength hne, h.renamed]
  . next hfree =>
    refine record ?_ x x
    refine ⟨h.ledger.snoc (.kept fun hold => hfree (hmem.2 hold)), ?_, ?_, hcount, ?_⟩
    . intro y
      rw [List.mem_cons, h.taken, List.mem_append, List.mem_singleton]
      grind
    . intro y
      rw [h.used, List.mem_append, List.mem_singleton]
      grind
    . rw [changed_concat_self hlength]
      exact h.renamed

end Booked

end Disambiguation
end Splice
