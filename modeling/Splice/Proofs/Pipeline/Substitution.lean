import Splice.Proofs.Inline.Failures
import Splice.Proofs.Inline.Steps
import Splice.Proofs.Pipeline.Preservation

/-!
This module contains the proof that the copying of a body is a substitution: the parameters and
return variables of a function become the names that they are replaced by, the variables that its
body declares become fresh names, and nothing else changes. The copies that are made with one supply
have no variables in common.
-/

namespace Splice
namespace BodyCopy

structure Request where
  f : Function
  label : String
  replacements : List (String × String)

namespace Request

def copy (r : Request) : EStateM Failure Supply Block :=
  copyBody r.label r.replacements r.f.body

def labels (r : Request) : List String :=
  r.f.body.boundNames.map (r.label ++ ·)

/--
A function of the program `p` without functions in its body, with a replacement for each parameter
and return variable and for nothing else.
-/
structure Fits (p : Block) (r : Request) : Prop where
  mem : r.f ∈ p.functions
  functions : r.f.body.functions = []
  formals : (r.replacements.map Prod.fst).Perm ((r.f.parameters ++ r.f.returns).map Binder.name)

/--
The renaming does what the replacements say, gives each variable that the body declares a name of
its own that is not in use, and leaves all other names alone, those of functions and of the host
among them.
-/
structure Substitutes (p : Block) (external : List String) (r : Request) (supply : Supply)
    (ρ : String → String) : Prop where
  formals : Agrees ρ r.replacements
  own : (r.f.body.boundNames.map ρ).Nodup
  unused : ∀ x ∈ r.f.body.boundNames, ρ x ∉ supply.used
  functions : ∀ g ∈ p.functions, ρ g.name = g.name
  host : ∀ x ∈ external, ρ x = x
  other : ∀ x, x ∉ r.replacements.map Prod.fst → x ∉ r.f.body.boundNames → ρ x = x

end Request

inductive Draw where
  | name (label : String)
  | body (r : Request)

namespace Draw

def request? : Draw → Option Request
  | .name _ => none
  | .body r => some r

def all : List Draw → EStateM Failure Supply (List Block)
  | [] => return []
  | .name label :: draws => do
    modify fun supply => (supply.fresh label).2
    all draws
  | .body r :: draws => do
    let b ← r.copy
    let bs ← all draws
    return b :: bs

end Draw
end BodyCopy

open BodyCopy

section

variable {d : Dialect} {external assignable : List String} {b : Block}

/-! ## One copy -/

theorem Block.Prepared.exists_copy (hsub : assignable ⊆ Text.ordered external)
    (hb : b.Prepared d external assignable) {r : Request} (hr : r.Fits b) (supply : Supply) :
    ∃ ρ, r.copy supply = .ok (r.f.body.rename ρ) (supply.afterFresh r.labels) ∧
      (r.f.body.rename ρ).boundNames = supply.freshNames r.labels ∧
      r.Substitutes b external supply ρ := by
  obtain ⟨c, hp, hbody⟩ := Block.Valid.exists_context (Inlining.Place.pervades b) (hb.place hsub)
    b hb.valid (List.Subset.refl _) (List.Subset.refl _) hr.mem
  have hforms : r.f.body.stackForms = [] := hp.stackForms_of_valid hbody
  -- Only a function in the body could make the copying fail.
  have hfails := copyBody_failsWith r.label r.replacements hforms
  rw [hr.functions] at hfails
  obtain ⟨copy, supply', hcopy⟩ := hfails.exists_eq_ok supply
  obtain ⟨_, _, ρ, rfl, hagrees, hother, hfresh, rfl⟩ :=
    Inlining.copyBody_of_place hp hr.mem hbody hr.formals hcopy
  have hinner : r.f.innerNames =
      (r.f.parameters ++ r.f.returns).map Binder.name ++ r.f.body.boundNames := by
    rw [r.f.body.boundNames_of_functions hr.functions]
    rfl
  refine ⟨ρ, hcopy, ?_, hagrees, ?_, ?_, ?_, ?_, ?_⟩
  . rw [r.f.body.boundNames_rename hr.functions hforms]
    exact hfresh
  . rw [hfresh]
    exact supply.nodup_freshNames _
  . intro x hx
    apply supply.freshNames_notMem
    rw [← hfresh]
    exact List.mem_map_of_mem hx
  . intro g hg
    exact hother g.name (Block.name_notMem_innerNames hb.distinct.nodup hr.mem hg)
  . intro x hx
    refine hother x fun hmem => ?_
    exact hb.distinct.foreign x (Block.innerNames_subset hr.mem hmem) hx
  . intro x hformal hlocal
    refine hother x fun hmem => ?_
    rw [hinner, List.mem_append, ← hr.formals.mem_iff] at hmem
    exact hmem.elim hformal hlocal

/-! ## One copy after the other -/

theorem Block.Prepared.exists_copies (hsub : assignable ⊆ Text.ordered external)
    (hb : b.Prepared d external assignable) (draws : List Draw)
    (hdraws : ∀ r ∈ draws.filterMap Draw.request?, r.Fits b) (supply : Supply) :
    ∃ copies supply', Draw.all draws supply = .ok copies supply' ∧
      List.Forall₂ (fun r copy => ∃ s s', supply.used ⊆ s.used ∧ r.copy s = .ok copy s')
        (draws.filterMap Draw.request?) copies ∧
      (∀ copy ∈ copies, ∀ x ∈ copy.boundNames, x ∉ supply.used) ∧
      copies.Pairwise fun x y => x.boundNames.Disjoint y.boundNames := by
  induction draws generalizing supply with
  | nil => exact ⟨[], supply, rfl, .nil, List.forall_mem_nil _, .nil⟩
  | cons draw draws ih =>
    have hsubset : ∀ labels, supply.used ⊆ (supply.afterFresh labels).used :=
      fun _ _ hx => Supply.mem_used_afterFresh.2 (.inl hx)
    cases draw with
    | name label =>
      have hused : supply.used ⊆ (supply.fresh label).2.used := hsubset [label]
      obtain ⟨copies, supply', hrun, hmade, hnew, hdisjoint⟩ := ih hdraws (supply.fresh label).2
      refine ⟨copies, supply', hrun, hmade.imp ?_, ?_, hdisjoint⟩
      . rintro r copy ⟨s, s', hs, hcopy⟩
        exact ⟨s, s', List.Subset.trans hused hs, hcopy⟩
      . exact fun copy hcopy x hx hmem => hnew copy hcopy x hx (hused hmem)
    | body r =>
      obtain ⟨hr, hdraws⟩ := List.forall_mem_cons.1 hdraws
      obtain ⟨ρ, hcopy, hnames, _⟩ := hb.exists_copy hsub hr supply
      obtain ⟨copies, supply', hrun, hmade, hnew, hdisjoint⟩ :=
        ih hdraws (supply.afterFresh r.labels)
      refine ⟨r.f.body.rename ρ :: copies, supply', ?_, ?_, ?_, ?_⟩
      . simp only [Draw.all, bind_eq_ok, pure_eq_ok]
        exact ⟨_, _, hcopy, _, _, hrun, rfl, rfl⟩
      . refine .cons ⟨supply, _, List.Subset.refl _, hcopy⟩ (hmade.imp ?_)
        rintro r' copy ⟨s, s', hs, hcopy⟩
        exact ⟨s, s', List.Subset.trans (hsubset _) hs, hcopy⟩
      . rw [List.forall_mem_cons]
        constructor
        . intro x hx
          rw [hnames] at hx
          exact supply.freshNames_notMem hx
        . exact fun copy hcopy x hx hmem => hnew copy hcopy x hx (hsubset _ hmem)
      . -- The names of the first copy are in use when the others are made.
        refine .cons (fun copy hcopy x hx hmem => ?_) hdisjoint
        rw [hnames] at hx
        exact hnew copy hcopy x hmem (Supply.mem_used_afterFresh.2 (.inr hx))

end

variable {d : Dialect} {external : List String} {b₀ b₁ b : Block} {info : Info}

/--
The copying of a body is a substitution that captures nothing that is in use. It always returns, and
the copy is the body with each parameter and return variable replaced, once, each variable that it
declares renamed to a name of its own that was not in use, and nothing else changed. One more name
is in use for each of these variables. However many copies are made with one supply, and whatever
names are drawn from it in between, no two of them declare a common name.
-/
theorem copyBody_substitutes {source : String}
    (h : parseAndAnalyze d external source = .ok (b₀, info)) (hb₁ : disambiguate info b₀ = .ok b₁)
    {n : Nat} (hb : inlineTimes info n b₁ = .ok b) :
    (∀ r : Request, r.Fits b → ∀ supply : Supply, ∃ copy supply' ρ,
      copyBody r.label r.replacements r.f.body supply = .ok copy supply' ∧
      copy = r.f.body.rename ρ ∧ r.Substitutes b external supply ρ ∧
      (∀ x ∈ supply.used, x ∉ copy.boundNames) ∧
      supply'.size = supply.size + r.f.body.boundNames.length) ∧
    ∀ draws : List Draw, (∀ r ∈ draws.filterMap Draw.request?, r.Fits b) → ∀ supply : Supply,
      ∃ copies supply', Draw.all draws supply = .ok copies supply' ∧
        List.Forall₂ (fun r copy => ∃ s s', supply.used ⊆ s.used ∧
            copyBody r.label r.replacements r.f.body s = .ok copy s')
          (draws.filterMap Draw.request?) copies ∧
        copies.Pairwise fun x y => x.boundNames.Disjoint y.boundNames := by
  have hsub : Text.ordered external ⊆ Text.ordered external := List.Subset.refl _
  have hprepared := prepared_of_passes h hb₁ hb
  constructor
  . intro r hr supply
    obtain ⟨ρ, hcopy, hnames, hsubstitutes⟩ := hprepared.exists_copy hsub hr supply
    refine ⟨_, _, ρ, hcopy, rfl, hsubstitutes, ?_, ?_⟩
    . intro x hx hmem
      rw [hnames] at hmem
      exact supply.freshNames_notMem hmem hx
    . rw [Supply.size_afterFresh, Request.labels, List.length_map]
  . intro draws hdraws supply
    obtain ⟨copies, supply', hrun, hmade, _, hdisjoint⟩ :=
      hprepared.exists_copies hsub draws hdraws supply
    exact ⟨copies, supply', hrun, hmade, hdisjoint⟩

/--
Two copies of a body with a loop and nested blocks. The replacements are names of parameters and of
variables of the body.
-/
theorem copyBody_substitutes_twice : ∃ b₀ info b₁ b r,
    parseAndAnalyze .typed ["h"]
      ("\x7b function f(a, b) -> r \x7b for \x7b let i := a \x7d lt(i, b) " ++
        "\x7b i := add(i, h) \x7d \x7b let x := g(i) \x7b let y := x r := add(r, y) \x7d \x7d " ++
        "\x7b let z := r r := z \x7d \x7d function g(c) -> s \x7b s := c \x7d " ++
        "let t := f(1, 2) \x7d") = .ok (b₀, info) ∧
    disambiguate info b₀ = .ok b₁ ∧ inlineTimes info 0 b₁ = .ok b ∧ r.Fits b ∧ r.label = "" ∧
    r.replacements = [("a", "b"), ("b", "i"), ("r", "a")] ∧
    (∃ copy supply' ρ,
      copyBody "" r.replacements r.f.body (Supply.ofNames b.boundNames) = .ok copy supply' ∧
      copy = r.f.body.rename ρ ∧ r.Substitutes b ["h"] (Supply.ofNames b.boundNames) ρ ∧
      supply'.size = (Supply.ofNames b.boundNames).size + 4) ∧
    ∃ copies supply', Draw.all [.body r, .name "i", .body r] (Supply.ofNames b.boundNames) =
        .ok copies supply' ∧
      copies.Pairwise fun x y => x.boundNames.Disjoint y.boundNames := by
  have hruns : (parseAndAnalyze .typed ["h"]
      ("\x7b function f(a, b) -> r \x7b for \x7b let i := a \x7d lt(i, b) " ++
        "\x7b i := add(i, h) \x7d \x7b let x := g(i) \x7b let y := x r := add(r, y) \x7d \x7d " ++
        "\x7b let z := r r := z \x7d \x7d function g(c) -> s \x7b s := c \x7d " ++
        "let t := f(1, 2) \x7d")).toOption.any (fun r =>
      (disambiguate r.2 r.1).toOption.any fun b₁ => b₁.functions.any fun f =>
        f.body.functions.isEmpty && decide (f.body.boundNames.length = 4) &&
          decide ((f.parameters ++ f.returns).map Binder.name = ["a", "b", "r"])) = true := by
    decide +kernel
  obtain ⟨⟨b₀, info⟩, h, hruns⟩ := exists_of_any hruns
  obtain ⟨b₁, hb₁, hruns⟩ := exists_of_any hruns
  obtain ⟨f, hf, hruns⟩ := List.any_eq_true.1 hruns
  simp only [Bool.and_eq_true, List.isEmpty_iff, decide_eq_true_eq] at hruns
  obtain ⟨⟨hfunctions, hlength⟩, hformals⟩ := hruns
  have hfits : Request.Fits b₁ ⟨f, "", [("a", "b"), ("b", "i"), ("r", "a")]⟩ := by
    refine ⟨hf, hfunctions, ?_⟩
    rw [hformals]
    exact .refl _
  obtain ⟨hone, hall⟩ := copyBody_substitutes h hb₁ (n := 0) rfl
  obtain ⟨copy, supply', ρ, hcopy, hrename, hsubstitutes, _, hsize⟩ :=
    hone _ hfits (Supply.ofNames b₁.boundNames)
  have hdraws : ∀ r ∈ [Request.mk f "" [("a", "b"), ("b", "i"), ("r", "a")],
      Request.mk f "" [("a", "b"), ("b", "i"), ("r", "a")]], r.Fits b₁ := by
    rw [List.forall_mem_cons, List.forall_mem_singleton]
    exact ⟨hfits, hfits⟩
  obtain ⟨copies, supply'', hrun, _, hdisjoint⟩ :=
    hall [.body ⟨f, "", _⟩, .name "i", .body ⟨f, "", _⟩] hdraws (Supply.ofNames b₁.boundNames)
  rw [hlength] at hsize
  exact ⟨b₀, info, b₁, b₁, _, h, hb₁, rfl, hfits, rfl, rfl,
    ⟨copy, supply', ρ, hcopy, hrename, hsubstitutes, hsize⟩, copies, supply'', hrun, hdisjoint⟩

end Splice
