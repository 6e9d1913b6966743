import Mathlib.Algebra.GroupWithZero.Nat
import Splice.Proofs.Inline.Tally
import Splice.Proofs.Pipeline.Recursion

/-!
This module contains what one run of the pass that inlines makes of the calls, the instructions and
the functions of a program whose names were made unique, and when it fails.
-/

namespace Splice

/--
A call that the pass may replace: it stands neither in the condition of a loop nor in the function
that it calls.
-/
def Occurrence.isEligible (o : Occurrence) : Bool :=
  match o.item with
  | .call callee => !o.inCondition && !o.enclosing.contains callee
  | _ => false

namespace Block

def callee? (b : Block) (o : Occurrence) : Option Function :=
  match o.item with
  | .call callee => b.function? callee
  | _ => none

def count (b : Block) (item : Item) : Nat :=
  b.occurrences.countP fun o => o.item = item

/--
How often something occurs in the bodies of the functions that the eligible calls of the block are
calls of, with each body as many times as it is called.
-/
def copiedCount (b : Block) (item : Item) : Nat :=
  ((b.occurrences.filter Occurrence.isEligible).map fun o =>
    (b.callee? o).elim 0 fun f => f.body.count item).sum

end Block

/-! ## Eligible calls -/

section

variable {d : Dialect} {external assignable : List String} {b b' : Block} {info : Info}

theorem Inlining.Setting.expansion?_root (d : Dialect) (b : Block) (o : Occurrence) :
    expansion? ⟨d, b, []⟩ o = if o.isEligible then b.callee? o else none := by
  unfold expansion? Occurrence.isEligible Block.callee? target?
  cases o.item with
  | call callee => cases o.inCondition <;> cases hmem : o.enclosing.contains callee <;> simp_all
  | instruction name => rfl
  | definition f => rfl

theorem Occurrence.isEligible_eq_true {o : Occurrence} {f : Function} {s : Inlining.Setting}
    (hs : s.enclosing = []) (h : s.expansion? o = some f) : o.isEligible = true := by
  obtain ⟨d, b, enclosing⟩ := s
  obtain rfl : enclosing = [] := hs
  rw [Inlining.Setting.expansion?_root] at h
  split at h
  . assumption
  . contradiction

namespace Block.Prepared

theorem function?_name (hb : b.Prepared d external assignable) {f : Function}
    (hf : f ∈ b.functions) : b.function? f.name = some f := by
  cases hfind : b.function? f.name with
  | none =>
    have hnone := List.find?_eq_none.1 hfind f (List.mem_reverse.2 hf)
    exact (hnone (decide_eq_true rfl)).elim
  | some g =>
    obtain ⟨hg, hname⟩ := Block.function?_eq_some hfind
    rw [Block.eq_of_name_eq hb.distinct.nodup hg hf hname]

theorem exists_callee (hb : b.Prepared d external assignable) {o : Occurrence}
    (ho : o ∈ b.occurrences) (h : o.isEligible = true) :
    ∃ f ∈ b.functions, o.item = .call f.name ∧ b.callee? o = some f := by
  unfold Occurrence.isEligible at h
  split at h
  . next callee hitem =>
    obtain ⟨f, hf, rfl⟩ := List.mem_map.1 (hb.name_mem ⟨o, ho, hitem⟩)
    refine ⟨f, hf, hitem, ?_⟩
    unfold Block.callee?
    rw [hitem]
    exact hb.function?_name hf
  . contradiction

theorem expansion?_eq (hb : b.Prepared d external assignable) {o : Occurrence}
    (ho : o ∈ b.occurrences) (d' : Dialect) :
    (Inlining.Setting.expansion? ⟨d', b, []⟩ o).isSome = o.isEligible := by
  rw [Inlining.Setting.expansion?_root]
  split
  . next h =>
    obtain ⟨f, _, _, hcallee⟩ := hb.exists_callee ho h
    rw [hcallee, h]
    rfl
  . next h => exact (Bool.not_eq_true _ ▸ h).symm

/-! ## Failures -/

theorem mem_refusals (hb : b.Prepared d external assignable) (d' : Dialect) {e : Failure} :
    e ∈ b.occurrences.flatMap (Inlining.Setting.refusals ⟨d', b, []⟩) ↔
      ∃ o ∈ b.occurrences, o.isEligible = true ∧ ∃ f ∈ b.functions, o.item = .call f.name ∧
        ∃ g ∈ f.body.functions, e = .nestedFunction g.toSignature := by
  rw [List.mem_flatMap]
  constructor
  . rintro ⟨o, ho, he⟩
    unfold Inlining.Setting.refusals at he
    split at he
    . next f hf =>
      obtain ⟨hmem, hitem, _⟩ := Inlining.Setting.expansion?_eq_some hf
      obtain ⟨g, hg, rfl⟩ := List.mem_map.1 he
      exact ⟨o, ho, Occurrence.isEligible_eq_true rfl hf, f, hmem, hitem, g, hg, rfl⟩
    . contradiction
  . rintro ⟨o, ho, heligible, f, hf, hitem, g, hg, rfl⟩
    have hexpansion : Inlining.Setting.expansion? ⟨d', b, []⟩ o = some f := by
      rw [Inlining.Setting.expansion?_root, if_pos heligible]
      unfold Block.callee?
      rw [hitem]
      exact hb.function?_name hf
    refine ⟨o, ho, ?_⟩
    unfold Inlining.Setting.refusals
    rw [hexpansion]
    exact List.mem_map.2 ⟨g, hg, rfl⟩

end Block.Prepared

theorem fullInline_eq_error {e : Failure} (h : fullInline info b = .error e) :
    ∃ s, Inlining.run info b = .error e s := by
  unfold fullInline at h
  split at h
  . contradiction
  . next e' s hrun =>
    injection h with h
    exact ⟨s, h ▸ hrun⟩

theorem Block.Prepared.fullInline_failsWith (hsub : assignable ⊆ Text.ordered external)
    (hb : b.Prepared d external assignable) (info : Info) :
    FailsWith (b.occurrences.flatMap (Inlining.Setting.refusals ⟨info.dialect, b, []⟩))
      (Inlining.block ⟨info.dialect, b, []⟩ b) :=
  Inlining.block_failsWith (s := ⟨info.dialect, b, []⟩) (hb.place hsub) b hb.valid
    (List.Subset.refl _) (List.Subset.refl _)

/-! ## Numbers -/

theorem Block.count_inside (os : List Occurrence) (names : List String) (item : Item) :
    (os.map (Occurrence.inside · names)).countP (fun o => o.item = item) =
      os.countP fun o => o.item = item :=
  List.countP_map

namespace Block.Prepared

theorem countP_after (hb : b.Prepared d external assignable) (d' : Dialect) (item : Item)
    {os : List Occurrence} (hos : os ⊆ b.occurrences) :
    (os.flatMap (Inlining.Setting.after ⟨d', b, []⟩)).countP (fun o => o.item = item) =
      os.countP (fun o => o.item = item ∧ o.isEligible = false) +
        ((os.filter Occurrence.isEligible).map fun o =>
          (b.callee? o).elim 0 fun f => f.body.count item).sum := by
  -- One after the other: an eligible call goes and brings a body, and all else stays.
  induction os with
  | nil => rfl
  | cons o os ih =>
    rw [List.cons_subset] at hos
    rw [List.flatMap_cons, List.countP_append, ih hos.2, List.countP_cons]
    unfold Inlining.Setting.after
    rw [Inlining.Setting.expansion?_root]
    cases heligible : o.isEligible with
    | true =>
      obtain ⟨f, _, _, hcallee⟩ := hb.exists_callee hos.1 heligible
      rw [List.filter_cons_of_pos heligible, List.map_cons, List.sum_cons, hcallee]
      simp only [if_true, Block.count_inside, Option.elim_some, Block.count, Bool.true_eq_false,
        and_false, decide_false, Bool.false_eq_true, if_false]
      omega
    | false =>
      rw [List.filter_cons_of_neg (Bool.eq_false_iff.1 heligible)]
      simp only [Bool.false_eq_true, if_false, List.countP_singleton, and_true]
      omega

theorem functions_perm (hsub : assignable ⊆ Text.ordered external)
    (hb : b.Prepared d external assignable) {n : Nat} (h : fullInline info b = .ok (b', n)) :
    (b'.functions.map Function.toSignature).Perm (b.functions.map Function.toSignature) := by
  obtain ⟨s, hrun⟩ := fullInline_eq_ok h
  have hperm := Inlining.block_occurrences (hb.place hsub) b hb.valid (List.Subset.refl _)
    (List.Subset.refl _) hrun
  -- A body with a function in it would have made the pass fail, so no copy defines one.
  have hnone := (hb.fullInline_failsWith hsub info (.initial info b)).ok hrun
  have hdefinition : ∀ o ∈ b.occurrences,
      (Inlining.Setting.after ⟨info.dialect, b, []⟩ o).filterMap Occurrence.definition? =
        o.definition?.toList := by
    intro o ho
    have hrefusals := List.flatMap_eq_nil_iff.1 hnone o ho
    unfold Inlining.Setting.refusals at hrefusals
    unfold Inlining.Setting.after
    cases hexpansion : Inlining.Setting.expansion? ⟨info.dialect, b, []⟩ o with
    | none => exact List.filterMap_cons
    | some f =>
      obtain ⟨_, hitem, _⟩ := Inlining.Setting.expansion?_eq_some hexpansion
      rw [hexpansion] at hrefusals
      have hbody : f.body.functions = [] := List.map_eq_nil_iff.1 hrefusals
      have hinside : (f.body.occurrences.map (Occurrence.inside · o.enclosing)).filterMap
          Occurrence.definition? = f.body.occurrences.filterMap Occurrence.definition? :=
        List.filterMap_map
      dsimp only
      rw [hinside, f.body.filterMap_definition?, hbody]
      unfold Occurrence.definition?
      rw [hitem]
      rfl
  rw [← b'.filterMap_definition?, ← b.filterMap_definition?]
  refine (hperm.filterMap _).trans ?_
  rw [List.filterMap_flatMap, List.flatMap_congr hdefinition, List.filterMap_eq_flatMap_toList]

end Block.Prepared

theorem count_of_fullInline {n : Nat} (h : fullInline info b = .ok (b', n)) :
    n = b.occurrences.countP (Inlining.Setting.expands ⟨info.dialect, b, []⟩) := by
  unfold fullInline Inlining.run at h
  split at h
  . next b₁ s hrun =>
    injection h with h
    obtain ⟨_, rfl⟩ := Prod.mk.inj h
    have hcount := Inlining.block_counts ⟨info.dialect, b, []⟩ b _ _ _ hrun
    rw [hcount]
    exact Nat.zero_add _
  . contradiction

theorem eq_of_fullInline {n : Nat} (hforms : b.stackForms = [])
    (hnone : b.occurrences.countP (Inlining.Setting.expands ⟨info.dialect, b, []⟩) = 0)
    (h : fullInline info b = .ok (b', n)) : b' = b := by
  obtain ⟨s, hrun⟩ := fullInline_eq_ok h
  rw [Inlining.block_eq_pure b hforms hnone, pure_eq_ok] at hrun
  exact hrun.1.symm

end

variable {d : Dialect} {external : List String} {b₀ b₁ b b' : Block} {info : Info}

/--
The pass fails if and only if the body of a function has another function in it, and an eligible
call is one of that function. It names a function in such a body then.
-/
theorem fullInline_fails_iff {source : String}
    (h : parseAndAnalyze d external source = .ok (b₀, info)) (hb₁ : disambiguate info b₀ = .ok b₁)
    {n : Nat} (hb : inlineTimes info n b₁ = .ok b) :
    ((∃ e, fullInline info b = .error e) ↔
      ∃ o ∈ b.occurrences, o.isEligible = true ∧ ∃ f ∈ b.functions, o.item = .call f.name ∧
        f.body.functions ≠ []) ∧
    ∀ e, fullInline info b = .error e →
      ∃ o ∈ b.occurrences, o.isEligible = true ∧ ∃ f ∈ b.functions, o.item = .call f.name ∧
        ∃ g ∈ f.body.functions, e = .nestedFunction g.toSignature := by
  have hsub : Text.ordered external ⊆ Text.ordered external := List.Subset.refl _
  have hprepared := prepared_of_passes h hb₁ hb
  have hspec := hprepared.fullInline_failsWith hsub info (.initial info b)
  have herror : ∀ e, fullInline info b = .error e →
      ∃ o ∈ b.occurrences, o.isEligible = true ∧ ∃ f ∈ b.functions, o.item = .call f.name ∧
        ∃ g ∈ f.body.functions, e = .nestedFunction g.toSignature := by
    intro e he
    obtain ⟨s, hrun⟩ := fullInline_eq_error he
    exact (hprepared.mem_refusals info.dialect).1 (hspec.error hrun)
  refine ⟨⟨?_, ?_⟩, herror⟩
  . rintro ⟨e, he⟩
    obtain ⟨o, ho, heligible, f, hf, hitem, g, hg, _⟩ := herror e he
    exact ⟨o, ho, heligible, f, hf, hitem, List.ne_nil_of_mem hg⟩
  . rintro ⟨o, ho, heligible, f, hf, hitem, hne⟩
    obtain ⟨g, hg⟩ := List.exists_mem_of_ne_nil _ hne
    have hmem := (hprepared.mem_refusals info.dialect).2
      ⟨o, ho, heligible, f, hf, hitem, g, hg, rfl⟩
    cases hresult : fullInline info b with
    | error e => exact ⟨e, rfl⟩
    | ok r =>
      obtain ⟨s, hrun⟩ := fullInline_eq_ok hresult
      have hnil := hspec.ok hrun
      rw [hnil] at hmem
      contradiction

theorem fullInline_fails_iff_argument : ∃ b₀ info b₁ b,
    parseAndAnalyze .typed []
      ("\x7b function f(a) -> r \x7b function g() \x7b \x7d r := a \x7d " ++
        "function h(a) -> r \x7b r := mul(a, 2) \x7d sstore(0, add(1, h(h(f(2))))) \x7d") =
      .ok (b₀, info) ∧
    disambiguate info b₀ = .ok b₁ ∧ inlineTimes info 0 b₁ = .ok b ∧
    (∃ e, fullInline info b = .error e) ∧
    ∀ e, fullInline info b = .error e →
      ∃ o ∈ b.occurrences, o.isEligible = true ∧ ∃ f ∈ b.functions, o.item = .call f.name ∧
        ∃ g ∈ f.body.functions, e = .nestedFunction g.toSignature := by
  have hruns : (parseAndAnalyze .typed []
      ("\x7b function f(a) -> r \x7b function g() \x7b \x7d r := a \x7d " ++
        "function h(a) -> r \x7b r := mul(a, 2) \x7d sstore(0, add(1, h(h(f(2))))) \x7d")
      ).toOption.any (fun r => (disambiguate r.2 r.1).toOption.any fun b =>
        b.occurrences.any fun o => o.isEligible && b.functions.any fun f =>
          decide (o.item = .call f.name) && !f.body.functions.isEmpty) = true := by
    decide +kernel
  obtain ⟨⟨b₀, info⟩, h, hruns⟩ := exists_of_any hruns
  obtain ⟨b₁, hb₁, hruns⟩ := exists_of_any hruns
  have hspec := fullInline_fails_iff h hb₁ (n := 0) rfl
  obtain ⟨o, ho, hruns⟩ := List.any_eq_true.1 hruns
  obtain ⟨heligible, hruns⟩ := Bool.and_eq_true_iff.1 hruns
  obtain ⟨f, hf, hruns⟩ := List.any_eq_true.1 hruns
  obtain ⟨hitem, hne⟩ := Bool.and_eq_true_iff.1 hruns
  have hfails : ∃ e, fullInline info b₁ = .error e := by
    refine hspec.1.2 ⟨o, ho, heligible, f, hf, of_decide_eq_true hitem, fun hnil => ?_⟩
    rw [hnil] at hne
    contradiction
  exact ⟨b₀, info, b₁, b₁, h, hb₁, rfl, hfails, hspec.2⟩

/--
One run neither loses nor duplicates anything. It replaces each eligible call, once. Behind it, a
function is called as often as it was by calls that stayed and as it is in the bodies of the
functions whose calls were replaced, and an instruction stands in the program as often as before and
in these bodies. The functions are those of before, each once, and if no call is replaced then
nothing changes at all.
-/
theorem fullInline_conserves {source : String}
    (h : parseAndAnalyze d external source = .ok (b₀, info)) (hb₁ : disambiguate info b₀ = .ok b₁)
    {n : Nat} (hb : inlineTimes info n b₁ = .ok b) {count : Nat}
    (hb' : fullInline info b = .ok (b', count)) :
    count = b.occurrences.countP Occurrence.isEligible ∧
    (∀ o ∈ b.occurrences, o.isEligible = true →
      ∃ f ∈ b.functions, o.item = .call f.name ∧ b.callee? o = some f) ∧
    (∀ g, b'.count (.call g) =
      b.occurrences.countP (fun o => o.item = .call g ∧ o.isEligible = false) +
        b.copiedCount (.call g)) ∧
    (∀ name, b'.count (.instruction name) =
      b.count (.instruction name) + b.copiedCount (.instruction name)) ∧
    (b'.functions.map Function.toSignature).Perm (b.functions.map Function.toSignature) ∧
    (Function.names b'.functions).Nodup ∧ (count = 0 → b' = b) := by
  obtain ⟨_, hinfo⟩ := info_of_analyze (parseAndAnalyze_eq_ok.1 h).2
  have hsub : Text.ordered external ⊆ Text.ordered external := List.Subset.refl _
  have hprepared := prepared_of_passes h hb₁ hb
  have hprepared' := prepared_of_fullInline hinfo hsub hprepared hb'
  have hcount := count_of_fullInline hb'
  have heligible : b.occurrences.countP (Inlining.Setting.expands ⟨info.dialect, b, []⟩) =
      b.occurrences.countP Occurrence.isEligible := by
    apply List.countP_congr
    intro o ho
    unfold Inlining.Setting.expands
    rw [hprepared.expansion?_eq ho]
  have hafter : ∀ item, b'.count item =
      b.occurrences.countP (fun o => o.item = item ∧ o.isEligible = false) +
        b.copiedCount item := by
    intro item
    obtain ⟨s, hrun⟩ := fullInline_eq_ok hb'
    have hperm := Inlining.block_occurrences (hprepared.place hsub) b hprepared.valid
      (List.Subset.refl _) (List.Subset.refl _) hrun
    unfold Block.count
    rw [hperm.countP_eq, hprepared.countP_after info.dialect item (List.Subset.refl _)]
    rfl
  refine ⟨hcount.trans heligible, fun o ho => hprepared.exists_callee ho,
    fun g => hafter (.call g), fun name => ?_, hprepared.functions_perm hsub hb', ?_,
    fun hzero => ?_⟩
  . rw [hafter]
    congr 1
    apply List.countP_congr
    intro o _
    -- An eligible call is no instruction.
    simp only [decide_eq_true_eq, and_iff_left_iff_imp]
    intro hitem
    unfold Occurrence.isEligible
    rw [hitem]
  . have hnodup := hprepared'.distinct.nodup
    rw [b'.boundNames_perm.nodup_iff, List.nodup_append] at hnodup
    exact hnodup.1
  . have hforms : b.stackForms = [] := Block.Valid.stackForms rfl b hprepared.valid
    exact eq_of_fullInline hforms (hcount.symm.trans hzero) hb'

/--
The second run on a program with nested calls in an argument, a condition of a loop, the condition
of a branch and the body of a recursive function.
-/
theorem fullInline_conserves_second : ∃ b₀ info b₁ b b' count,
    parseAndAnalyze .typed []
      ("\x7b function g(a) -> r \x7b r := add(a, 1) sstore(r, a) \x7d " ++
        "function f(a) -> r \x7b if g(a) \x7b r := f(g(a)) \x7d \x7d " ++
        "for \x7b let i := g(f(2)) \x7d lt(i, g(3)) \x7b i := add(i, 1) \x7d " ++
        "\x7b pop(f(1)) \x7d \x7d") = .ok (b₀, info) ∧
    disambiguate info b₀ = .ok b₁ ∧ inlineTimes info 1 b₁ = .ok b ∧
    fullInline info b = .ok (b', count) ∧ count = b.occurrences.countP Occurrence.isEligible ∧
    (∀ o ∈ b.occurrences, o.isEligible = true →
      ∃ f ∈ b.functions, o.item = .call f.name ∧ b.callee? o = some f) ∧
    (∀ g, b'.count (.call g) =
      b.occurrences.countP (fun o => o.item = .call g ∧ o.isEligible = false) +
        b.copiedCount (.call g)) ∧
    (∀ name, b'.count (.instruction name) =
      b.count (.instruction name) + b.copiedCount (.instruction name)) ∧
    (b'.functions.map Function.toSignature).Perm (b.functions.map Function.toSignature) ∧
    (Function.names b'.functions).Nodup ∧ (count = 0 → b' = b) ∧ 0 < count := by
  have hruns : (parseAndAnalyze .typed []
      ("\x7b function g(a) -> r \x7b r := add(a, 1) sstore(r, a) \x7d " ++
        "function f(a) -> r \x7b if g(a) \x7b r := f(g(a)) \x7d \x7d " ++
        "for \x7b let i := g(f(2)) \x7d lt(i, g(3)) \x7b i := add(i, 1) \x7d " ++
        "\x7b pop(f(1)) \x7d \x7d")).toOption.any (fun r =>
      (disambiguate r.2 r.1).toOption.any fun b₁ => (inlineTimes r.2 1 b₁).toOption.any fun b =>
        (fullInline r.2 b).toOption.any fun r' => decide (0 < r'.2)) = true := by
    decide +kernel
  obtain ⟨⟨b₀, info⟩, h, hruns⟩ := exists_of_any hruns
  obtain ⟨b₁, hb₁, hruns⟩ := exists_of_any hruns
  obtain ⟨b, hb, hruns⟩ := exists_of_any hruns
  obtain ⟨⟨b', count⟩, hb', hruns⟩ := exists_of_any hruns
  obtain ⟨hcount, hcallees, hcalls, hinstructions, hfunctions, hnodup, hsame⟩ :=
    fullInline_conserves h hb₁ hb hb'
  exact ⟨b₀, info, b₁, b, b', count, h, hb₁, hb, hb', hcount, hcallees, hcalls, hinstructions,
    hfunctions, hnodup, hsame, of_decide_eq_true hruns⟩

end Splice
