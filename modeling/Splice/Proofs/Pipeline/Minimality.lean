import Splice.Proofs.Disambiguate.Main
import Splice.Proofs.Disambiguate.Order
import Splice.Proofs.Pipeline.Preservation

/-!
This module contains the proof that the pass that gives every binding a name of its own renames no
more than it must, and that each new name is fixed by what was bound before.
-/

namespace Splice

open Disambiguation

/--
The bindings of `b'` have the names that those of `b` must get, in the order in which they are
visited: the first binding of a name keeps it. A later one gets the stem of its name with the least
counter that makes it a name which is none of the program or the host, and which no binding before
it got in the place of another.
-/
structure RenamesMinimally (external : List String) (b b' : Block) : Prop where
  length : b'.bindings.length = b.bindings.length
  kept : ∀ i x y, b.bindings[i]? = some x → b'.bindings[i]? = some y →
    (y = x ↔ x ∉ b.bindings.take i)
  renamed : ∀ i x y, b.bindings[i]? = some x → b'.bindings[i]? = some y → x ∈ b.bindings.take i →
    ∃ s k, IsStem x s ∧ y = counted s k ∧ IsLeast { k | 1 ≤ k ∧ counted s k ∉ b.boundNames ∧
      counted s k ∉ external ∧
      counted s k ∉ (changed (b.bindings.take i) (b'.bindings.take i)).map Prod.snd } k
  count : (changed b.bindings b'.bindings).length + b.bindings.toFinset.card = b.bindings.length

theorem Disambiguation.Ledger.renamesMinimally {external host : List String} {b b' : Block}
    (hhost : ∀ x, x ∈ host ↔ x ∈ external)
    (h : Ledger (b.boundNames ++ host) b.bindings b'.bindings) :
    RenamesMinimally external b b' := by
  have hbound : b.bindings ⊆ b.boundNames := b.bindings_perm.subset
  have hsub : b.bindings ⊆ b.boundNames ++ host :=
    List.Subset.trans hbound (List.subset_append_left _ _)
  refine ⟨h.length_eq.symm, ?_, ?_, h.length_changed hsub⟩
  . intro i x y hx hy
    exact (h.called hx hy).eq_iff (hsub (List.mem_of_getElem? hx))
  . intro i x y hx hy hmem
    have hlength : (b.bindings.take i).length = (b'.bindings.take i).length := by
      rw [List.length_take, List.length_take, h.length_eq]
    cases h.called hx hy with
    | kept hnew => contradiction
    | @renamed s k hold hs hk =>
      have hfree : ∀ k, (counted s k ∉ b.boundNames ++ host ∧ counted s k ∉ b'.bindings.take i ↔
          counted s k ∉ b.boundNames ∧ counted s k ∉ external ∧
          counted s k ∉ (changed (b.bindings.take i) (b'.bindings.take i)).map Prod.snd) := by
        intro k
        rw [List.mem_append, not_or, and_assoc, hhost]
        refine and_congr_right fun hnew => and_congr_right fun _ => ?_
        rw [mem_changed hlength fun hmem => hnew (hbound (List.mem_of_mem_take hmem))]
      simp only [hfree] at hk
      exact ⟨s, k, hs, rfl, hk⟩

/--
On an accepted program without stack forms, the pass that gives every binding a name of its own
succeeds, changes nothing but names and renames no more bindings than it must. It reports just the
bindings that it renamed, in the order in which it came across them, and how many there were.
-/
theorem disambiguate_minimal {d : Dialect} {external : List String} {source : String} {b : Block}
    {info : Info} (h : parseAndAnalyze d external source = .ok (b, info))
    (hforms : b.stackForms = []) :
    ∃ b', disambiguate info b = .ok b' ∧ b'.anonymous = b.anonymous ∧
      RenamesMinimally external b b' ∧
      (disambiguateTraced info b).events =
        (changed b.bindings b'.bindings).map (fun r => .renamed r.1 r.2) ++
          [.disambiguated b.bindings.length (changed b.bindings b'.bindings).length] := by
  obtain ⟨_, hanalyze⟩ := parseAndAnalyze_eq_ok.1 h
  obtain ⟨_, hinfo⟩ := info_of_analyze hanalyze
  obtain ⟨hv, hd⟩ := isOk_analyze.1 (congrArg Except.isOk hanalyze)
  obtain ⟨b', hb', hanonymous, _⟩ := exists_disambiguate (c := .root d external) hinfo.symm rfl rfl
    (List.Subset.refl _) hv hd hforms
  obtain ⟨s, hrun⟩ := disambiguate_eq_ok hb'
  have hbindable : ∀ y ∈ b.bindings, y ∈ b.boundNames ++ info.external ∧ y ∉ info.external := by
    intro y hy
    have hy := b.bindings_perm.subset hy
    refine ⟨List.mem_append_left _ hy, ?_⟩
    rw [hinfo]
    exact Block.DeclaresNew.foreign b hd y hy
  obtain ⟨_, hbooked, rfl, _⟩ :=
    (books_block [] b hforms hd _ _ _ (.initial info b) rfl hbindable).ok hrun
  have hhost : ∀ x, x ∈ info.external ↔ x ∈ external := fun x => by rw [hinfo, Text.mem_ordered]
  refine ⟨b', hb', hanonymous, hbooked.ledger.renamesMinimally hhost, ?_⟩
  unfold disambiguateTraced Disambiguation.run State.events
  rw [hrun]
  dsimp only
  rw [hbooked.renamed, hbooked.bindings]
  rfl

/--
Bindings of `a`, `a_1` and `a_7` that all want names of one stem, one of which the host has. A
function is visited in front of the variables that its block declares before it.
-/
theorem disambiguate_minimal_stems : ∃ b info,
    parseAndAnalyze .loose ["h", "a_2"]
      ("\x7b \x7b let a := h let a_1 := 1 \x7d \x7b let a_7 := a(2) " ++
        "function a(a_7) -> a_1 \x7b a_1 := a_7 \x7d \x7d \x7b let a := 3 \x7d \x7d") =
      .ok (b, info) ∧
    b.stackForms = [] ∧
    b.bindings = ["a", "a_1", "a", "a_7", "a_7", "a_1", "a"] ∧
    ∃ b', disambiguate info b = .ok b' ∧ b'.anonymous = b.anonymous ∧
      RenamesMinimally ["h", "a_2"] b b' ∧
      (disambiguateTraced info b).events =
        (changed b.bindings b'.bindings).map (fun r => .renamed r.1 r.2) ++
          [.disambiguated b.bindings.length (changed b.bindings b'.bindings).length] := by
  have hruns : (parseAndAnalyze .loose ["h", "a_2"]
      ("\x7b \x7b let a := h let a_1 := 1 \x7d \x7b let a_7 := a(2) " ++
        "function a(a_7) -> a_1 \x7b a_1 := a_7 \x7d \x7d \x7b let a := 3 \x7d \x7d")).toOption.any
      (fun r => r.1.stackForms.isEmpty &&
        decide (r.1.bindings = ["a", "a_1", "a", "a_7", "a_7", "a_1", "a"])) = true := by
    decide +kernel
  obtain ⟨⟨b, info⟩, h, hruns⟩ := exists_of_any hruns
  obtain ⟨hforms, hbindings⟩ := Bool.and_eq_true_iff.1 hruns
  have hforms : b.stackForms = [] := List.isEmpty_iff.1 hforms
  exact ⟨b, info, h, hforms, of_decide_eq_true hbindings, disambiguate_minimal h hforms⟩

end Splice
