import Splice.Proofs.Inline.Hoisting
import Splice.Proofs.Pipeline.Preservation

/-!
This module contains which arguments the pass that inlines moves in front of the calls that stay, in
a program whose names were made unique.
-/

namespace Splice

variable {d : Dialect} {external : List String} {b₀ b₁ b b' : Block} {info : Info}

/--
The pass moves what it has to and no more. Outside of the conditions of loops, an argument of a call
that stays is moved into a fresh variable if and only if it is not movable once it is rewritten and
an eligible call stands in an argument further left. All other arguments stay in their place, and
those in which no eligible call stands stay as they are.
-/
theorem fullInline_hoists {source : String}
    (h : parseAndAnalyze d external source = .ok (b₀, info)) (hb₁ : disambiguate info b₀ = .ok b₁)
    {n : Nat} (hb : inlineTimes info n b₁ = .ok b) {count : Nat}
    (hb' : fullInline info b = .ok (b', count)) :
    b.InlinesTo (b.boundNames ++ info.external) ⟨info.dialect, b, []⟩ b' ∧
    b'.boundNames.Nodup := by
  obtain ⟨_, hinfo⟩ := info_of_analyze (parseAndAnalyze_eq_ok.1 h).2
  have hsub : Text.ordered external ⊆ Text.ordered external := List.Subset.refl _
  have hprepared := prepared_of_passes h hb₁ hb
  have hprepared' := prepared_of_fullInline hinfo hsub hprepared hb'
  obtain ⟨s, hrun⟩ := fullInline_eq_ok hb'
  have hreserved : b.boundNames ++ info.external ⊆
      (Inlining.State.initial info b).supply.used :=
    fun x hx => Supply.mem_ofNames.2 hx
  refine ⟨?_, hprepared'.distinct.nodup⟩
  exact (Inlining.block_inlines (hprepared.place hsub) b hprepared.valid (List.Subset.refl _)
    (List.Subset.refl _) _ b' s hreserved hrun).1

theorem fullInline_hoists_nested : ∃ b₀ info b₁ b b' count,
    parseAndAnalyze .typed []
      ("\x7b function f(a) -> c \x7b c := a \x7d " ++
        "function g(a) -> r \x7b r := add(g(f(a)), mload(a)) \x7d " ++
        "sstore(addmod(mload(0), f(1), mload(3)), sload(4)) " ++
        "for \x7b \x7d lt(f(1), 3) \x7b \x7d \x7b mstore(f(1), 7) \x7d \x7d") =
      .ok (b₀, info) ∧
    disambiguate info b₀ = .ok b₁ ∧ inlineTimes info 0 b₁ = .ok b ∧
    fullInline info b = .ok (b', count) ∧
    b.InlinesTo (b.boundNames ++ info.external) ⟨info.dialect, b, []⟩ b' ∧ b'.boundNames.Nodup ∧
    ["add_arg", "addmod_arg", "sstore_arg"] ⊆ b'.boundNames ∧ "mstore_arg" ∉ b'.boundNames := by
  have hruns : (parseAndAnalyze .typed []
      ("\x7b function f(a) -> c \x7b c := a \x7d " ++
        "function g(a) -> r \x7b r := add(g(f(a)), mload(a)) \x7d " ++
        "sstore(addmod(mload(0), f(1), mload(3)), sload(4)) " ++
        "for \x7b \x7d lt(f(1), 3) \x7b \x7d \x7b mstore(f(1), 7) \x7d \x7d")).toOption.any
      (fun r => (disambiguate r.2 r.1).toOption.any fun b => (fullInline r.2 b).toOption.any fun r' =>
        decide (["add_arg", "addmod_arg", "sstore_arg"] ⊆ r'.1.boundNames ∧
          "mstore_arg" ∉ r'.1.boundNames)) = true := by
    decide +kernel
  obtain ⟨⟨b₀, info⟩, h, hruns⟩ := exists_of_any hruns
  obtain ⟨b, hb₁, hruns⟩ := exists_of_any hruns
  obtain ⟨⟨b', count⟩, hb', hruns⟩ := exists_of_any hruns
  obtain ⟨hinlines, hnodup⟩ := fullInline_hoists h hb₁ (n := 0) rfl hb'
  obtain ⟨hmoved, hstays⟩ := of_decide_eq_true hruns
  exact ⟨b₀, info, b, b, b', count, h, hb₁, rfl, hb', hinlines, hnodup, hmoved, hstays⟩

end Splice
