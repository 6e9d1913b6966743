import Splice.Proofs.Analysis.Spans
import Splice.Proofs.Disambiguate.Legible
import Splice.Proofs.Inline.Legible
import Splice.Proofs.Pipeline.Preservation
import Splice.Proofs.Syntax.Completeness

/-!
This module contains the proof that the text the optimiser returns can be read again: it is that of
a legible tree which the analysis accepts.
-/

namespace Splice

variable {d : Dialect} {external : List String} {b b' : Block} {info : Info}

theorem isOk_analyze_of_bare_eq (h : b'.bare = b.bare) :
    (analyze d external b').isOk = true ↔ (analyze d external b).isOk = true := by
  rw [isOk_analyze, isOk_analyze, ← b'.valid_bare, ← b'.declaresNew_bare, h, b.valid_bare,
    b.declaresNew_bare]

theorem legible_of_runSteps {source : String} {traceTiming : Bool} {steps : List Step}
    (haccepted : parseAndAnalyze d external source = .ok (b, info))
    (h : (runSteps traceTiming info steps b).result = .ok b') : b'.Legible d := by
  obtain ⟨hparse, hanalyze⟩ := parseAndAnalyze_eq_ok.1 haccepted
  have hdialect := (info_of_analyze hanalyze).1
  have hb := (legible_of_parse hparse).1
  rw [← hdialect] at hb ⊢
  exact Pipeline.runPrepared_keeps (fun _ _ hb => hb.disambiguate)
    (fun _ _ _ hb => hb.fullInline) hb (runSteps_eq_ok h).2

theorem mapError_eq_ok {ε ε' α : Type} {x : Except ε α} {f : ε → ε'} {a : α} :
    x.mapError f = .ok a ↔ x = .ok a := by
  cases x <;> simp [Except.mapError]

theorem optimise_eq_ok {settings : Settings} {source text : String}
    (h : (optimise settings source).result = .ok text) : ∃ b₀ info b,
    parseAndAnalyze settings.dialect settings.external source = .ok (b₀, info) ∧
    (runSteps settings.traceTiming info settings.steps b₀).result = .ok b ∧ text = b.print := by
  unfold optimise at h
  simp only [Traced.bind_eq_ok] at h
  obtain ⟨_, _, ⟨b₀, info⟩, haccepted, _, _, b, hrun, _, _, hprint⟩ := h
  refine ⟨b₀, info, b, ?_, hrun, ?_⟩
  . exact mapError_eq_ok.1 haccepted
  . exact (Except.ok.inj hprint).symm

/--
The text that the optimiser returns is that of the tree behind the last step. If that tree is not
nested deeper than the parser allows, the text is read without a diagnostic and as that tree, and
the analysis accepts it with the same names of the host. It is not read if the tree is nested
deeper.
-/
theorem optimise_reads_back {settings : Settings} {source text : String}
    (h : (optimise settings source).result = .ok text) : ∃ b₀ info b,
    parseAndAnalyze settings.dialect settings.external source = .ok (b₀, info) ∧
    (runSteps settings.traceTiming info settings.steps b₀).result = .ok b ∧ text = b.print ∧
    (b.nesting ≤ Parser.maxNesting → ∃ b' info', parse settings.dialect text = .ok b' ∧
      b'.bare = b.bare ∧
      parseAndAnalyze settings.dialect settings.external text = .ok (b', info')) ∧
    ∀ b', parse settings.dialect text = .ok b' → b.nesting ≤ Parser.maxNesting := by
  obtain ⟨b₀, info, b, haccepted, hrun, rfl⟩ := optimise_eq_ok h
  have hlegible := legible_of_runSteps haccepted hrun
  refine ⟨b₀, info, b, haccepted, hrun, rfl, fun hn => ?_, fun b' hparse => ?_⟩
  . obtain ⟨b', hparse, hbare⟩ := (exists_parse_print_iff hlegible).2 hn
    have hok := (isOk_analyze_of_bare_eq hbare).2 (isOk_analyze_of_runSteps haccepted hrun)
    obtain ⟨info', hanalyze⟩ := exists_of_isOk hok
    exact ⟨b', info', hparse, hbare, parseAndAnalyze_eq_ok.2 ⟨hparse, hanalyze⟩⟩
  . exact (exists_parse_print_iff hlegible).1 ⟨b', hparse, bare_eq_of_parse_print hlegible hparse⟩

theorem optimise_reads_back_nested : ∃ (text : String) (b : Block),
    (optimise ⟨.typed, [.disambiguate, .fullInline], false, ["h"]⟩
      ("\x7b function f(a: u256) -> r: bool \x7b r := lt(a, h) \x7d let f_a := \"x\\n\":bytes " ++
        "if f(mload(f(0x10))) \x7b f_a := f(1) \x7d \x7d")).result = .ok text ∧
    text = b.print ∧ b.nesting ≤ Parser.maxNesting ∧ ∃ b' info', parse .typed text = .ok b' ∧
      b'.bare = b.bare ∧ parseAndAnalyze .typed ["h"] text = .ok (b', info') := by
  have hsucceeds : (optimise ⟨.typed, [.disambiguate, .fullInline], false, ["h"]⟩
      ("\x7b function f(a: u256) -> r: bool \x7b r := lt(a, h) \x7d let f_a := \"x\\n\":bytes " ++
        "if f(mload(f(0x10))) \x7b f_a := f(1) \x7d \x7d")).result.isOk = true := by
    decide +kernel
  have hnesting : ((parseAndAnalyze .typed ["h"]
      ("\x7b function f(a: u256) -> r: bool \x7b r := lt(a, h) \x7d let f_a := \"x\\n\":bytes " ++
        "if f(mload(f(0x10))) \x7b f_a := f(1) \x7d \x7d")).toOption.any fun r =>
      (runSteps false r.2 [.disambiguate, .fullInline] r.1).result.toOption.any fun b =>
        b.nesting ≤ Parser.maxNesting) = true := by
    decide +kernel
  obtain ⟨text, htext⟩ := exists_of_isOk hsucceeds
  obtain ⟨b₀, info, b, haccepted, hrun, hprint, hback, _⟩ := optimise_reads_back htext
  rw [haccepted] at hnesting
  have hn : b.nesting ≤ Parser.maxNesting := by
    simpa [Except.toOption, hrun] using hnesting
  exact ⟨text, b, htext, hprint, hn, hback hn⟩

end Splice
