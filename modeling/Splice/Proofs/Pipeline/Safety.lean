import Splice.Proofs.Pipeline.Invariant
import Splice.Proofs.Safety.Soundness
import Splice.Proofs.Syntax.RoundTrip

/-!
This module contains the proof that the analysis only accepts programs that do not get stuck.
-/

namespace Splice
namespace Safety

variable {d : Dialect} {external : List String} {source : String} {b : Block} {info : Info}

/--
A source text that is accepted and has no stack forms does not get stuck, for any bound on its steps
and any interpretation of the instructions that fits to their table. The host has to bind its names.
-/
theorem run_ne_stuck (h : parseAndAnalyze d external source = .ok (b, info))
    (hforms : b.stackForms = []) {m : Interpretation} (hm : m.Fits) {start : World m}
    (hhost : ∀ x, (start.host x).isSome = true ↔ x ∈ external) (bound : Nat) (fault : Fault) :
    run b bound start ≠ .error (.stuck fault) := by
  obtain ⟨hparse, hanalyze⟩ := parseAndAnalyze_eq_ok.1 h
  have hrules : b.Valid ((Context.root d external).restrict (Text.ordered external)) ∧
      b.DeclaresNew ((Context.root d external).restrict (Text.ordered external)) :=
    valid_of_analyze hanalyze hforms (targeted_of_parse hparse) fun x hx _ => Text.mem_ordered.2 hx
  obtain ⟨hvalid, hnew⟩ := hrules
  exact run_ne_stuck_of_valid hm rfl rfl rfl rfl rfl hvalid hnew
    (fun x hx => (hhost x).2 (Text.mem_ordered.1 hx)) bound fault

theorem run_ne_stuck_loop : ∃ b info,
    parseAndAnalyze .typed ["h"]
      ("\x7b function f(a) -> r \x7b if a \x7b r := f(0) \x7d h := add(a, r) \x7d " ++
        "for \x7b let i := f(h) \x7d lt(i, 3) \x7b i := f(i) \x7d \x7b sstore(i, h) \x7d \x7d") =
      .ok (b, info) ∧ b.stackForms = [] ∧ Interpretation.zeros.Fits ∧
    ∀ (bound : Nat) (fault : Fault),
      run (m := Interpretation.zeros) b bound
        ⟨(), fun x => if x = "h" then some Interpretation.zeros.zero else none⟩ ≠
        .error (.stuck fault) := by
  have hruns : (parseAndAnalyze .typed ["h"]
      ("\x7b function f(a) -> r \x7b if a \x7b r := f(0) \x7d h := add(a, r) \x7d " ++
        "for \x7b let i := f(h) \x7d lt(i, 3) \x7b i := f(i) \x7d \x7b sstore(i, h) \x7d \x7d")
      ).toOption.any (fun r => r.1.stackForms.isEmpty) = true := by
    decide +kernel
  obtain ⟨⟨b, info⟩, h, hruns⟩ := exists_of_any hruns
  have hforms := List.isEmpty_iff.1 hruns
  refine ⟨b, info, h, hforms, Interpretation.zeros_fits, ?_⟩
  refine run_ne_stuck h hforms Interpretation.zeros_fits fun x => ?_
  dsimp only
  by_cases hx : x = "h" <;> simp [hx]

end Safety
end Splice
