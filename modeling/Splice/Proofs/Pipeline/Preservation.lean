import Splice.Proofs.Inline.Behaviour
import Splice.Proofs.Pipeline.Invariant

/-!
This module contains the proof that inlining keeps what a program does: the instructions that it
executes, with their arguments, and the state it ends in.
-/

namespace Splice

def inlineTimes (info : Info) : Nat → Block → Except Failure Block
  | 0, b => .ok b
  | n + 1, b => do
    let (b, _) ← fullInline info b
    inlineTimes info n b

section

variable {d : Dialect} {external assignable : List String} {b b' : Block} {info : Info}

theorem inlineTimes_succ_eq_ok {n : Nat} :
    inlineTimes info (n + 1) b = .ok b' ↔
      ∃ b₁ count, fullInline info b = .ok (b₁, count) ∧ inlineTimes info n b₁ = .ok b' := by
  change (fullInline info b >>= fun r => inlineTimes info n r.1) = _ ↔ _
  cases fullInline info b with
  | error e => exact ⟨nofun, nofun⟩
  | ok r =>
    refine ⟨fun h => ⟨r.1, r.2, rfl, h⟩, ?_⟩
    rintro ⟨b₁, count, heq, h⟩
    cases heq
    exact h

theorem prepared_of_inlineTimes (hinfo : info.external = Text.ordered external)
    (hsub : assignable ⊆ Text.ordered external) (hb : b.Prepared d external assignable) {n : Nat}
    (h : inlineTimes info n b = .ok b') : b'.Prepared d external assignable := by
  induction n generalizing b with
  | zero =>
    cases h
    exact hb
  | succ n ih =>
    obtain ⟨b₁, count, hstep, hrest⟩ := inlineTimes_succ_eq_ok.1 h
    exact ih (prepared_of_fullInline hinfo hsub hb hstep) hrest

theorem prepared_of_passes {source : String} {b₀ b₁ : Block}
    (h : parseAndAnalyze d external source = .ok (b₀, info)) (hb₁ : disambiguate info b₀ = .ok b₁)
    {n : Nat} (hb : inlineTimes info n b₁ = .ok b) :
    b.Prepared d external (Text.ordered external) := by
  obtain ⟨_, hinfo⟩ := info_of_analyze (parseAndAnalyze_eq_ok.1 h).2
  have hsub : Text.ordered external ⊆ Text.ordered external := List.Subset.refl _
  have hprepared := prepared_of_parseAndAnalyze h (fun x hx _ => Text.mem_ordered.2 hx) hsub hb₁
  exact prepared_of_inlineTimes hinfo hsub hprepared hb

end

variable {m : Machine} {d : Dialect} {external : List String} {b b' : Block} {info : Info}

theorem matches_of_fullInline (hinfo : info.external = Text.ordered external)
    (hb : b.Prepared d external []) {count : Nat} (h : fullInline info b = .ok (b', count))
    (side : Side) {bound bound' : Nat} (hbound : side.Exceeds bound bound') (start : World m) :
    Matches side (fun r r' => r.2.world = r'.2.world)
      (b.exec bound Calls.empty ⟨fun _ => none, start⟩)
      (b'.exec bound' Calls.empty ⟨fun _ => none, start⟩) := by
  obtain ⟨s, hrun⟩ := fullInline_eq_ok h
  have hp : Inlining.Site b (Text.ordered external) ((Context.root d external).restrict []) :=
    ⟨hb.place (List.nil_subset _), rfl, rfl⟩
  have hu : Inlining.InUse b (Text.ordered external) (.initial info b) := by
    intro x hx
    change x ∈ (Supply.ofNames (b.boundNames ++ info.external)).used
    rw [Supply.mem_ofNames, List.mem_append, hinfo]
    exact hx
  have hfollows : Inlining.FollowsBlock side start.host bound bound' b (Text.ordered external)
      ((Context.root d external).restrict []) b b' :=
    Inlining.block_follows (s := ⟨info.dialect, b, []⟩) hp hbound b hb.valid (List.Subset.refl _)
      (List.Subset.refl _) (Block.DeclaresNew.restrict b hb.distinct.declaresNew) hu hrun
  have hlinked : Inlining.Linked side start.host bound b (Text.ordered external)
      ((Context.root d external).restrict []) Calls.empty Calls.empty :=
    ⟨List.forall_mem_nil _, List.forall_mem_nil _⟩
  have hsees : (Embedding.plain start.host).Sees ((Context.root d external).restrict [])
      ⟨fun _ => none, start⟩ ⟨fun _ => none, start⟩ :=
    ⟨rfl, rfl, List.forall_mem_nil _, fun _ _ => ⟨rfl, rfl⟩, fun _ => False.elim⟩
  refine Matches.imp (hfollows _ _ hlinked _ _ hsees) ?_
  exact fun _ _ hsees => hsees.world

theorem Block.run_eq_of_matches {side : Side} {bound bound' : Nat} {start : World m}
    (h : Matches side (fun r r' => r.2.world = r'.2.world)
      (b.exec bound Calls.empty ⟨fun _ => none, start⟩)
      (b'.exec bound' Calls.empty ⟨fun _ => none, start⟩)) :
    (side = .forward ∧ b.run bound start = none) ∨ (side = .backward ∧ b'.run bound' start = none) ∨
      b.run bound start = b'.run bound' start := by
  unfold Block.run
  generalize b.exec bound Calls.empty ⟨fun _ => none, start⟩ = r at h
  generalize b'.exec bound' Calls.empty ⟨fun _ => none, start⟩ = r' at h
  cases h with
  | missing h => exact .inl ⟨h, rfl⟩
  | missed h => exact .inr (.inl ⟨h, rfl⟩)
  | halted world => exact .inr (.inr rfl)
  | done h => exact .inr (.inr (congrArg (some ∘ Outcome.finished) h))

/--
Inlining keeps what a program does. From every start, it executes the same instructions with the
same arguments and comes to the same end as before.
-/
theorem fullInline_terminates_iff {source : String} {b₀ : Block}
    (h : parseAndAnalyze d external source = .ok (b₀, info))
    (hassigns : ∀ x ∈ external, ¬ b₀.Assigns x) {b₁ : Block} (hb₁ : disambiguate info b₀ = .ok b₁)
    {n : Nat} (hb : inlineTimes info n b₁ = .ok b) {count : Nat}
    (hb' : fullInline info b = .ok (b', count)) (m : Machine) (start : World m)
    (outcome : Outcome m) : b.Terminates start outcome ↔ b'.Terminates start outcome := by
  obtain ⟨_, hinfo⟩ := info_of_analyze (parseAndAnalyze_eq_ok.1 h).2
  have hnone : ∀ x ∈ external, b₀.Assigns x → x ∈ ([] : List String) :=
    fun x hx hassign => (hassigns x hx hassign).elim
  have hprepared₁ := prepared_of_parseAndAnalyze h hnone (List.nil_subset _) hb₁
  have hprepared := prepared_of_inlineTimes hinfo (List.nil_subset _) hprepared₁ hb
  constructor
  -- Behind the pass the same bound is enough, in front of it twice the bound and one more.
  . rintro ⟨bound, hrun⟩
    have hmatches := matches_of_fullInline hinfo hprepared hb' .forward
      (Nat.le_refl bound) start
    rcases Block.run_eq_of_matches hmatches with ⟨_, hnone⟩ | ⟨hside, _⟩ | heq
    . rw [hrun] at hnone
      cases hnone
    . cases hside
    . exact ⟨bound, heq ▸ hrun⟩
  . rintro ⟨bound, hrun⟩
    have hmatches := matches_of_fullInline hinfo hprepared hb' .backward
      (Nat.le_refl (2 * bound + 1)) start
    rcases Block.run_eq_of_matches hmatches with ⟨hside, _⟩ | ⟨_, hnone⟩ | heq
    . cases hside
    . rw [hrun] at hnone
      cases hnone
    . exact ⟨2 * bound + 1, heq.trans hrun⟩

/--
A second run behind a first one: the body of `f` brings calls of `g` with it.
-/
theorem fullInline_terminates_iff_nested : ∃ b₀ info b₁ b b',
    parseAndAnalyze .typed ["h"]
      ("\x7b function g(a) -> r \x7b r := add(a, h) sstore(r, a) \x7d " ++
        "function f(a) -> r \x7b r := g(g(a)) \x7d let x := f(f(2)) \x7d") = .ok (b₀, info) ∧
    (∀ x ∈ ["h"], ¬ b₀.Assigns x) ∧ disambiguate info b₀ = .ok b₁ ∧
    inlineTimes info 1 b₁ = .ok b ∧ fullInline info b = .ok (b', 4) ∧
    ∀ (m : Machine) (start : World m) (outcome : Outcome m),
      b.Terminates start outcome ↔ b'.Terminates start outcome := by
  have hruns : (parseAndAnalyze .typed ["h"]
      ("\x7b function g(a) -> r \x7b r := add(a, h) sstore(r, a) \x7d " ++
        "function f(a) -> r \x7b r := g(g(a)) \x7d let x := f(f(2)) \x7d")).toOption.any
      (fun r => r.1.assignments.all (fun is => "h" ∉ is.map Identifier.name) &&
        (disambiguate r.2 r.1).toOption.any fun b₁ => (inlineTimes r.2 1 b₁).toOption.any fun b =>
          (fullInline r.2 b).toOption.any fun r' => r'.2 = 4) = true := by
    decide +kernel
  obtain ⟨⟨b₀, info⟩, h, hruns⟩ := exists_of_any hruns
  rw [Bool.and_eq_true, List.all_eq_true] at hruns
  obtain ⟨hassigns, hruns⟩ := hruns
  have hassigns : ∀ x ∈ ["h"], ¬ b₀.Assigns x := by
    rintro x hx ⟨targets, hmem, hassign⟩
    rw [List.mem_singleton.1 hx] at hassign
    exact of_decide_eq_true (hassigns targets hmem) hassign
  obtain ⟨b₁, hb₁, hruns⟩ := exists_of_any hruns
  obtain ⟨b, hb, hruns⟩ := exists_of_any hruns
  obtain ⟨⟨b', count⟩, hb', hruns⟩ := exists_of_any hruns
  obtain rfl : count = 4 := of_decide_eq_true hruns
  exact ⟨b₀, info, b₁, b, b', h, hassigns, hb₁, hb, hb',
    fullInline_terminates_iff h hassigns hb₁ hb hb'⟩

end Splice
