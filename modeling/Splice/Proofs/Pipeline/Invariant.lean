import Splice.Pipeline
import Splice.Proofs.Analysis.Unique
import Splice.Proofs.Disambiguate.Main
import Splice.Proofs.Inline.Valid
import Splice.Proofs.Syntax.Targets

/-!
This module contains the invariant of the pipeline: behind each step the analysis accepts the
program, and once the names were made unique, all of them differ.
-/

namespace Splice

/--
All names that the block binds differ, from each other, from the given names of the host, and from
the names of instructions.
-/
structure Block.Distinct (external : List String) (b : Block) : Prop where
  nodup : b.boundNames.Nodup
  foreign : ∀ x ∈ b.boundNames, x ∉ external
  plain : ∀ x ∈ b.boundNames, Instruction.isName x = false

/--
The block keeps to the rules without the forms that the passes do not support, assigns to no names
of the host but the given ones, and all its names differ.
-/
structure Block.Prepared (d : Dialect) (external assignable : List String) (b : Block) : Prop where
  valid : b.Valid ((Context.root d external).restrict assignable)
  distinct : b.Distinct external

section

variable {d : Dialect} {external assignable : List String} {b b' : Block} {info : Info}

/-! ## The analysis -/

theorem Context.restrict_extends (hsub : assignable ⊆ Text.ordered external) :
    ((Context.root d external).restrict assignable).Extends (Context.root d external) where
  external := List.Subset.refl _
  assignable := hsub
  stackForms h := (Bool.false_ne_true h).elim
  targetless h := (Bool.false_ne_true h).elim
  vars := List.Subset.refl _
  functions := List.Subset.refl _

theorem Block.Distinct.declarable (h : b.Distinct external) :
    ∀ x ∈ b.boundNames, (Context.root d external).Declarable x := by
  intro x hx
  refine ⟨List.not_mem_nil, List.not_mem_nil, List.not_mem_nil, ?_, h.plain x hx⟩
  exact fun hmem => h.foreign x hx (Text.mem_ordered.1 hmem)

theorem Block.Distinct.declaresNew (h : b.Distinct external) :
    b.DeclaresNew (Context.root d external) :=
  Block.declaresNew_of_nodup b h.declarable h.nodup

theorem Block.Prepared.isOk_analyze (hsub : assignable ⊆ Text.ordered external)
    (h : b.Prepared d external assignable) : (analyze d external b).isOk = true :=
  Splice.isOk_analyze.2 ⟨h.valid.mono (Context.restrict_extends hsub), h.distinct.declaresNew⟩

theorem valid_of_analyze (h : analyze d external b = .ok info) (hforms : b.stackForms = [])
    (htargets : Targeted b.assignments)
    (hassigns : ∀ x ∈ external, b.Assigns x → x ∈ assignable) :
    b.Valid ((Context.root d external).restrict assignable) ∧
    b.DeclaresNew ((Context.root d external).restrict assignable) := by
  obtain ⟨hvalid, hnew⟩ := Splice.isOk_analyze.1 (congrArg Except.isOk h)
  refine ⟨hvalid.restrict b hforms ?_, hnew.restrict⟩
  intro targets hmem
  refine ⟨htargets targets hmem, fun i hi hexternal => ?_⟩
  exact hassigns i.name (Text.mem_ordered.1 hexternal) ⟨targets, hmem, List.mem_map.2 ⟨i, hi, rfl⟩⟩

/-! ## The passes -/

theorem stackForms_of_disambiguate (h : disambiguate info b = .ok b') : b.stackForms = [] := by
  obtain ⟨s, hrun⟩ := disambiguate_eq_ok h
  exact ((Disambiguation.refusesStackForms info.external).block b (.initial info b)).ok hrun

theorem prepared_of_disambiguate (hinfo : info.external = Text.ordered external)
    (hsub : assignable ⊆ Text.ordered external)
    (hv : b.Valid ((Context.root d external).restrict assignable))
    (hd : b.DeclaresNew ((Context.root d external).restrict assignable))
    (h : disambiguate info b = .ok b') : b'.Prepared d external assignable := by
  obtain ⟨s, hrun⟩ := disambiguate_eq_ok h
  have hkept := (Disambiguation.run_spec info (c := (Context.root d external).restrict assignable)
    hinfo.symm rfl rfl hsub hv hd).ok hrun
  have hshows : Disambiguation.Shows [] ((Context.root d external).restrict assignable)
      ((Context.root d external).restrict assignable) :=
    ⟨List.Subset.refl _, List.Subset.refl _, id, List.nil_subset _, List.nil_subset _⟩
  have hgrows := hkept.same.grows
  have hnodup : (b'.boundNames ++ info.external).Nodup := by
    apply hgrows.taken.nodup_iff.2
    apply hgrows.nodup
    change info.external.Nodup
    rw [hinfo]
    exact Text.nodup_ordered external
  rw [List.nodup_append] at hnodup
  refine ⟨hkept.valid _ hshows, hnodup.1, ?_, hgrows.plain⟩
  intro x hx hmem
  rw [← Text.mem_ordered, ← hinfo] at hmem
  exact hnodup.2.2 x hx x hmem rfl

theorem Block.Prepared.place (hsub : assignable ⊆ Text.ordered external)
    (h : b.Prepared d external assignable) :
    Inlining.Place b ((Context.root d external).restrict assignable) where
  nodup := h.distinct.nodup
  foreign x hx hmem := h.distinct.foreign x hx (Text.mem_ordered.1 hmem)
  vars := List.nil_subset _
  assignable := hsub
  stackForms := rfl
  targetless := rfl
  functions := List.forall_mem_nil _

theorem prepared_of_fullInline (hinfo : info.external = Text.ordered external)
    (hsub : assignable ⊆ Text.ordered external) (hb : b.Prepared d external assignable) {n : Nat}
    (h : fullInline info b = .ok (b', n)) : b'.Prepared d external assignable := by
  obtain ⟨s, hrun⟩ := fullInline_eq_ok h
  obtain ⟨hvalid, new, hgrows, hperm⟩ := Inlining.block_replaces (hb.place hsub) b hb.valid
    (List.Subset.refl _) (List.Subset.refl _) hrun
  -- All names of the program and of the host are in use from the start.
  have hused : ∀ x, x ∈ b.boundNames ∨ x ∈ external → x ∉ new := by
    intro x hx hnew
    apply hgrows.notMem hnew
    change x ∈ (Supply.ofNames (b.boundNames ++ info.external)).used
    rw [Supply.mem_ofNames, List.mem_append, hinfo, Text.mem_ordered]
    exact hx
  refine ⟨hvalid _ (.refl _), ?_, ?_, ?_⟩
  . rw [hperm.nodup_iff, List.nodup_append]
    refine ⟨hb.distinct.nodup, hgrows.nodup, fun x hx y hy hxy => ?_⟩
    exact hused x (.inl hx) (hxy ▸ hy)
  . intro x hx hmem
    rw [hperm.mem_iff, List.mem_append] at hx
    exact hx.elim (fun hx => hb.distinct.foreign x hx hmem) (hused x (.inr hmem))
  . intro x hx
    rw [hperm.mem_iff, List.mem_append] at hx
    rcases hx with hx | hx
    . exact hb.distinct.plain x hx
    . exact Instruction.isName_of_underscore (hgrows.marked x hx)

end

/-! ## The pipeline -/

section

variable {α β : Type}

theorem Traced.bind_eq_ok {x : Traced α} {f : α → Traced β} {b : β} :
    (x >>= f).result = .ok b ↔ ∃ a, x.result = .ok a ∧ (f a).result = .ok b := by
  change (Traced.bind x f).result = _ ↔ _
  unfold Traced.bind
  cases x.result with
  | error e => simp
  | ok a =>
    constructor
    . exact fun h => ⟨a, rfl, h⟩
    . rintro ⟨_, heq, h⟩
      cases heq
      exact h

theorem disambiguateTraced_result (info : Info) (b : Block) :
    (disambiguateTraced info b).result = disambiguate info b := by
  unfold disambiguateTraced disambiguate
  cases Disambiguation.run info b <;> rfl

theorem fullInlineTraced_result (info : Info) (b : Block) :
    (fullInlineTraced info b).result = fullInline info b := by
  unfold fullInlineTraced fullInline
  cases Inlining.run info b <;> rfl

end

variable {d : Dialect} {external assignable : List String} {b b' : Block} {info : Info}

namespace Pipeline

theorem runStep_eq_ok {step : Step} (h : (runStep info b step).result = .ok b') :
    (step = .disambiguate ∧ disambiguate info b = .ok b') ∨
    (step = .fullInline ∧ ∃ inlined, fullInline info b = .ok (b', inlined)) := by
  cases step with
  | disambiguate =>
    rw [runStep, disambiguateTraced_result] at h
    exact .inl ⟨rfl, h⟩
  | fullInline =>
    simp only [runStep, Traced.bind_eq_ok] at h
    obtain ⟨⟨b₁, inlined⟩, hstep, _, _, hpure⟩ := h
    rw [fullInlineTraced_result] at hstep
    cases hpure
    exact .inr ⟨rfl, inlined, hstep⟩

theorem runPrepared_cons {traceTiming : Bool} {step : Step} {steps : List Step}
    (h : (runPrepared traceTiming info (step :: steps) b).result = .ok b') :
    ∃ b₁, (runStep info b step).result = .ok b₁ ∧
      (runPrepared traceTiming info steps b₁).result = .ok b' := by
  simp only [runPrepared, Traced.bind_eq_ok] at h
  obtain ⟨b₁, hstep, _, _, hrest⟩ := h
  exact ⟨b₁, hstep, hrest⟩

theorem runPrepared_keeps {P : Block → Prop}
    (hdisambiguate : ∀ b b', P b → disambiguate info b = .ok b' → P b')
    (hinline : ∀ b b' inlined, P b → fullInline info b = .ok (b', inlined) → P b')
    {traceTiming : Bool} {steps : List Step} (hb : P b)
    (h : (runPrepared traceTiming info steps b).result = .ok b') : P b' := by
  induction steps generalizing b with
  | nil =>
    cases h
    exact hb
  | cons step steps ih =>
    obtain ⟨b₁, hstep, hrest⟩ := runPrepared_cons h
    rcases runStep_eq_ok hstep with ⟨_, hb₁⟩ | ⟨_, inlined, hb₁⟩
    . exact ih (hdisambiguate b b₁ hb hb₁) hrest
    . exact ih (hinline b b₁ inlined hb hb₁) hrest

end Pipeline

theorem Step.validate_eq_ok {steps : List Step} :
    Step.validate steps = .ok () ↔ Step.prepared steps = true := by
  unfold validate
  split <;> simp [*]

theorem Step.prepared_iff {steps : List Step} : Step.prepared steps = true ↔
    ∀ before after, steps = before ++ .fullInline :: after → .disambiguate ∈ before := by
  cases steps with
  | nil => simp [prepared]
  | cons step steps =>
    cases step with
    | disambiguate =>
      refine iff_of_true rfl ?_
      intro before after h
      cases before with
      | nil => cases h
      | cons step before =>
        cases h
        exact List.mem_cons_self
    | fullInline =>
      refine iff_of_false Bool.false_ne_true ?_
      exact fun h => (List.not_mem_nil (h [] steps rfl)).elim

theorem runSteps_eq_ok {traceTiming : Bool} {steps : List Step}
    (h : (runSteps traceTiming info steps b).result = .ok b') :
    Step.prepared steps = true ∧
      (Pipeline.runPrepared traceTiming info steps b).result = .ok b' := by
  unfold runSteps at h
  rw [Traced.bind_eq_ok] at h
  obtain ⟨_, hvalidate, hrun⟩ := h
  exact ⟨Step.validate_eq_ok.1 hvalidate, hrun⟩

theorem prepared_of_parseAndAnalyze {source : String} {b₀ : Block}
    (h : parseAndAnalyze d external source = .ok (b₀, info))
    (hassigns : ∀ x ∈ external, b₀.Assigns x → x ∈ assignable)
    (hsub : assignable ⊆ Text.ordered external) (hb : disambiguate info b₀ = .ok b) :
    b.Prepared d external assignable := by
  obtain ⟨hparse, hanalyze⟩ := parseAndAnalyze_eq_ok.1 h
  obtain ⟨_, hinfo⟩ := info_of_analyze hanalyze
  obtain ⟨hv, hd⟩ := valid_of_analyze hanalyze (stackForms_of_disambiguate hb)
    (targeted_of_parse hparse) hassigns
  exact prepared_of_disambiguate hinfo hsub hv hd hb

theorem prepared_of_runSteps {source : String} {traceTiming : Bool} {steps : List Step}
    (haccepted : parseAndAnalyze d external source = .ok (b, info))
    (h : (runSteps traceTiming info steps b).result = .ok b') (hne : steps ≠ []) :
    b'.Prepared d external (Text.ordered external) := by
  obtain ⟨_, hinfo⟩ := info_of_analyze (parseAndAnalyze_eq_ok.1 haccepted).2
  have hsub : Text.ordered external ⊆ Text.ordered external := List.Subset.refl _
  obtain ⟨hprepared, hrun⟩ := runSteps_eq_ok h
  cases steps with
  | nil => contradiction
  | cons step steps =>
    obtain ⟨b₁, hstep, hrest⟩ := Pipeline.runPrepared_cons hrun
    rcases Pipeline.runStep_eq_ok hstep with ⟨rfl, hb₁⟩ | ⟨rfl, _⟩
    . have hb := prepared_of_parseAndAnalyze haccepted (fun x hx _ => Text.mem_ordered.2 hx) hsub hb₁
      refine Pipeline.runPrepared_keeps (fun b b' hb h => ?_) (fun b b' inlined hb h => ?_) hb hrest
      . exact prepared_of_disambiguate hinfo hsub hb.valid
          (Block.DeclaresNew.restrict b hb.distinct.declaresNew) h
      . exact prepared_of_fullInline hinfo hsub hb h
    . contradiction

theorem isOk_analyze_of_runSteps {source : String} {traceTiming : Bool} {steps : List Step}
    (haccepted : parseAndAnalyze d external source = .ok (b, info))
    (h : (runSteps traceTiming info steps b).result = .ok b') :
    (analyze d external b').isOk = true := by
  by_cases hne : steps = []
  . subst hne
    cases (runSteps_eq_ok h).2
    exact congrArg Except.isOk (parseAndAnalyze_eq_ok.1 haccepted).2
  . exact (prepared_of_runSteps haccepted h hne).isOk_analyze (List.Subset.refl _)

/--
A list of steps is accepted if each step that inlines has an earlier one that makes the names
unique. Behind each of the steps of an accepted list, the analysis accepts the program, and once the
names were made unique, they differ from each other, from those of the host and from those of
instructions.
-/
theorem runSteps_keeps_invariant (steps : List Step) :
    (Step.validate steps = .ok () ↔
      ∀ before after, steps = before ++ .fullInline :: after → .disambiguate ∈ before) ∧
    ∀ (d : Dialect) (external : List String) (source : String) (b b' : Block) (info : Info)
      (traceTiming : Bool) (n : Nat), Step.validate steps = .ok () →
      parseAndAnalyze d external source = .ok (b, info) →
      (runSteps traceTiming info (steps.take n) b).result = .ok b' →
      (analyze d external b').isOk = true ∧
      (.disambiguate ∈ steps.take n → b'.boundNames.Nodup ∧
        ∀ x ∈ b'.boundNames, x ∉ external ∧ Instruction.isName x = false) := by
  refine ⟨Step.validate_eq_ok.trans Step.prepared_iff, ?_⟩
  intro d external source b b' info traceTiming n _ haccepted hrun
  refine ⟨isOk_analyze_of_runSteps haccepted hrun, fun hmem => ?_⟩
  have hb' := prepared_of_runSteps haccepted hrun (List.ne_nil_of_mem hmem)
  exact ⟨hb'.distinct.nodup, fun x hx => ⟨hb'.distinct.foreign x hx, hb'.distinct.plain x hx⟩⟩

theorem runSteps_keeps_invariant_nested : ∃ b b' info,
    Step.validate [.disambiguate, .fullInline] = .ok () ∧
    parseAndAnalyze .typed ["h"]
      "\x7b function f(a) -> r \x7b r := add(a, h) \x7d let x := f(f(2)) \x7d" = .ok (b, info) ∧
    (runSteps true info ([Step.disambiguate, .fullInline].take 2) b).result = .ok b' ∧
    (analyze .typed ["h"] b').isOk = true ∧
    (.disambiguate ∈ [Step.disambiguate, .fullInline].take 2 → b'.boundNames.Nodup ∧
      ∀ x ∈ b'.boundNames, x ∉ ["h"] ∧ Instruction.isName x = false) := by
  have hruns : (parseAndAnalyze .typed ["h"]
      "\x7b function f(a) -> r \x7b r := add(a, h) \x7d let x := f(f(2)) \x7d").toOption.any
      (fun r =>
        (runSteps true r.2 ([Step.disambiguate, .fullInline].take 2) r.1).result.isOk) = true := by
    decide +kernel
  obtain ⟨⟨b, info⟩, h, hruns⟩ := exists_of_any hruns
  obtain ⟨b', hb'⟩ := exists_of_isOk hruns
  exact ⟨b, b', info, rfl, h, hb',
    (runSteps_keeps_invariant [.disambiguate, .fullInline]).2 .typed ["h"] _ b b' info true 2 rfl h
      hb'⟩

end Splice
