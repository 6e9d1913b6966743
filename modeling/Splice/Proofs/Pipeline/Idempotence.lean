import Splice.Proofs.Analysis.Occurrences
import Splice.Proofs.Disambiguate.Settled
import Splice.Proofs.Pipeline.Preservation

/-!
This module contains the proof that the pass that gives every binding a name of its own has nothing
left to do behind itself, and behind the pass that inlines.
-/

namespace Splice

variable {d : Dialect} {external assignable : List String} {b b₀ b₁ : Block} {info : Info}

theorem Block.Prepared.disambiguateTraced_eq (hb : b.Prepared d external assignable)
    (hinfo : info.external = Text.ordered external)
    (hsub : assignable ⊆ Text.ordered external) :
    disambiguateTraced info b = ⟨[.disambiguated b.boundNames.length 0], .ok b⟩ := by
  have hforms : b.stackForms = [] := Block.Valid.stackForms rfl b hb.valid
  have hnodup : (b.boundNames ++ ([] ++ info.external)).Nodup := by
    rw [List.nil_append, hinfo, List.nodup_append]
    refine ⟨hb.distinct.nodup, Text.nodup_ordered external, ?_⟩
    rintro x hx _ hmem rfl
    exact hb.distinct.foreign x hx (Text.mem_ordered.1 hmem)
  -- All names differ, so that each is still free when its turn to be bound comes. That every use is
  -- found follows from the rules, as it did for the first run.
  have hinitial : Disambiguation.Settled info.external [] [] (.initial info b) :=
    ⟨rfl, .refl _, rfl, rfl⟩
  have hsettles := Disambiguation.settles_block info.external [] b hforms [] _ hinitial hnodup
  obtain ⟨b', hb', _⟩ := exists_disambiguate (c := (Context.root d external).restrict assignable)
    hinfo.symm rfl rfl hsub hb.valid hb.distinct.declaresNew.restrict hforms
  obtain ⟨s, hrun⟩ := disambiguate_eq_ok hb'
  obtain ⟨rfl, hs⟩ := hsettles.ok hrun
  unfold disambiguateTraced Disambiguation.run Disambiguation.State.events
  rw [hrun]
  dsimp only
  rw [hs.bindings, hs.renamed, List.append_nil]
  rfl

theorem Block.Prepared.disambiguate_eq (hb : b.Prepared d external assignable)
    (hinfo : info.external = Text.ordered external)
    (hsub : assignable ⊆ Text.ordered external) : disambiguate info b = .ok b := by
  rw [← disambiguateTraced_result, hb.disambiguateTraced_eq hinfo hsub]

/--
Giving every binding a name of its own a second time changes nothing. On an accepted program without
stack forms the pass succeeds, and behind it, and behind each run of the pass that inlines, it
succeeds again for the same names of the host. It returns the program that it is given then, and
reports that it bound all names and renamed none.
-/
theorem disambiguate_idempotent {source : String}
    (h : parseAndAnalyze d external source = .ok (b₀, info)) (hforms : b₀.stackForms = []) :
    ∃ b₁, disambiguate info b₀ = .ok b₁ ∧ ∀ n b, inlineTimes info n b₁ = .ok b →
      ∀ again : Info, again.external = info.external → disambiguate again b = .ok b ∧
        disambiguateTraced again b = ⟨[.disambiguated b.boundNames.length 0], .ok b⟩ := by
  obtain ⟨_, hanalyze⟩ := parseAndAnalyze_eq_ok.1 h
  obtain ⟨_, hinfo⟩ := info_of_analyze hanalyze
  obtain ⟨hv, hd⟩ := isOk_analyze.1 (congrArg Except.isOk hanalyze)
  obtain ⟨b₁, hb₁, _⟩ := exists_disambiguate (c := .root d external) hinfo.symm rfl rfl
    (List.Subset.refl _) hv hd hforms
  have hsub : Text.ordered external ⊆ Text.ordered external := List.Subset.refl _
  refine ⟨b₁, hb₁, fun n b hb again hagain => ?_⟩
  have hprepared := prepared_of_passes h hb₁ hb
  have hinfo' := hagain.trans hinfo
  exact ⟨hprepared.disambiguate_eq hinfo' hsub, hprepared.disambiguateTraced_eq hinfo' hsub⟩

/--
A variable and a parameter that share their name with others, and the result of one run of the pass
that inlines, which takes an argument with a name of the host out of a call.
-/
theorem disambiguate_idempotent_shadowed : ∃ b₀ info b₁ b,
    parseAndAnalyze .typed ["h"]
      ("\x7b function f(a, b) -> r \x7b r := add(a, b) \x7d \x7b let a := f(h, 2) \x7d " ++
        "\x7b let a := f(f(1, h), 3) \x7d function g(a) -> r \x7b r := g(f(a, h)) \x7d \x7d") =
      .ok (b₀, info) ∧
    b₀.stackForms = [] ∧ disambiguate info b₀ = .ok b₁ ∧ inlineTimes info 1 b₁ = .ok b ∧
    b₁.boundNames ≠ b₀.boundNames ∧
    disambiguate info b = .ok b ∧
    disambiguateTraced info b = ⟨[.disambiguated b.boundNames.length 0], .ok b⟩ := by
  have hruns : (parseAndAnalyze .typed ["h"]
      ("\x7b function f(a, b) -> r \x7b r := add(a, b) \x7d \x7b let a := f(h, 2) \x7d " ++
        "\x7b let a := f(f(1, h), 3) \x7d function g(a) -> r \x7b r := g(f(a, h)) \x7d \x7d")
      ).toOption.any (fun r => r.1.stackForms.isEmpty && (disambiguate r.2 r.1).toOption.any fun b₁ =>
        decide (b₁.boundNames ≠ r.1.boundNames) && (inlineTimes r.2 1 b₁).isOk) = true := by
    decide +kernel
  obtain ⟨⟨b₀, info⟩, h, hruns⟩ := exists_of_any hruns
  obtain ⟨hforms, hruns⟩ := Bool.and_eq_true_iff.1 hruns
  have hforms : b₀.stackForms = [] := List.isEmpty_iff.1 hforms
  obtain ⟨b₁, hb₁, hspec⟩ := disambiguate_idempotent h hforms
  rw [hb₁] at hruns
  obtain ⟨hrenamed, hruns⟩ := Bool.and_eq_true_iff.1 hruns
  obtain ⟨b, hb⟩ := exists_of_isOk hruns
  obtain ⟨hagain, htraced⟩ := hspec 1 b hb info rfl
  exact ⟨b₀, info, b₁, b, h, hforms, hb₁, hb, of_decide_eq_true hrenamed, hagain, htraced⟩

end Splice
