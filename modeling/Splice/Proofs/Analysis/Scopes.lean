import Splice.Proofs.Analysis.Rules

/-!
This module contains what the scopes of the analysis show, in the terms of the rules: how the
visible meanings change where a scope is entered or a name is declared.
-/

namespace Splice

namespace Report

def Clean (r : Report) : Prop := r.diagnostics = []

@[simp]
theorem clean_empty : empty.Clean := rfl

@[simp]
theorem clean_append {r s : Report} : (r ++ s).Clean ↔ r.Clean ∧ s.Clean :=
  List.append_eq_nil_iff

@[simp]
theorem not_clean_ofDiagnostic {d : Diagnostic} : ¬(ofDiagnostic d).Clean := by
  intro h
  injection h

@[simp]
theorem not_clean_fault {f : AnalysisFault} {span : Span} : ¬(fault f span).Clean :=
  not_clean_ofDiagnostic

@[simp]
theorem clean_onlyIf {condition : Bool} {f : AnalysisFault} {span : Span} :
    (onlyIf condition (fault f span)).Clean ↔ condition = false := by
  unfold onlyIf
  cases condition <;> simp

end Report

namespace Env

def meaning? (env : Env) (name : String) : Option Meaning :=
  match env.lookup name with
  | .found b => some b.meaning
  | _ => none

structure Agrees (env : Env) (c : Context) : Prop where
  stackForms : env.dialect.stackForms = c.stackForms
  targetless : c.targetless = true
  assignable : c.assignable = c.external
  external : env.external = c.external
  -- The analysis looks at the scopes first, so a name of the host must not be in one.
  host : ∀ x ∈ c.external, lookupIn x env.scopes = .missing
  readable : ∀ x, env.meaning? x = some .variable ↔ c.Readable x
  callable : ∀ f : Head,
    env.meaning? f.name = some (.function f.parameters f.returns) ↔ f ∈ c.functions
  labelled : ∀ x, env.meaning? x = some .label ↔ x ∈ c.labels

structure AgreesWithin (env : Env) (c : Context) : Prop extends Agrees env c where
  within : env.scopes ≠ []

/-! ## Scopes -/

theorem Agrees.enter {env : Env} {c : Context} (h : env.Agrees c) :
    (env.enter false).AgreesWithin c where
  stackForms := h.stackForms
  targetless := h.targetless
  assignable := h.assignable
  external := h.external
  host := h.host
  readable := h.readable
  callable := h.callable
  labelled := h.labelled
  within := List.cons_ne_nil _ _

theorem lookupIn_enter_true (env : Env) (x : String) :
    lookupIn x (env.enter true).scopes = (lookupIn x env.scopes).fromFunction := rfl

theorem Agrees.meaning?_enter_true {env : Env} {c : Context} (h : env.Agrees c) (x : String) :
    (env.enter true).meaning? x =
      if x ∉ c.external ∧ env.meaning? x = some .variable then none else env.meaning? x := by
  have hcontains : env.external.contains x = true ↔ x ∈ c.external := by
    rw [h.external, List.contains_iff_mem]
  have hexternal : (env.enter true).external = env.external := rfl
  unfold meaning? lookup
  rw [lookupIn_enter_true, hexternal]
  by_cases hx : x ∈ c.external
  . rw [h.host x hx, hcontains.2 hx]
    simp [Lookup.fromFunction, hx]
  . have hnot : env.external.contains x = false := by
      rw [Bool.eq_false_iff, Ne, hcontains]
      exact hx
    cases lookupIn x env.scopes with
    | found b =>
      obtain ⟨meaning, span⟩ := b
      cases meaning <;> simp [Lookup.fromFunction, hx]
    | hidden b => simp [Lookup.fromFunction]
    | missing =>
      unfold Lookup.fromFunction
      rw [hnot]
      simp

theorem Agrees.enter_true {env : Env} {c : Context} (h : env.Agrees c) :
    (env.enter true).AgreesWithin { c with vars := [] } where
  stackForms := h.stackForms
  targetless := h.targetless
  assignable := h.assignable
  external := h.external
  host x hx := by
    rw [lookupIn_enter_true, h.host x hx]
    rfl
  readable x := by
    have hvariable := h.readable x
    rw [h.meaning?_enter_true]
    unfold Context.Readable at *
    split <;> grind
  callable f := by
    rw [h.meaning?_enter_true, ← h.callable f]
    split
    . next hx => simp [hx.2]
    . rfl
  labelled x := by
    rw [h.meaning?_enter_true, ← h.labelled x]
    split
    . next hx => simp [hx.2]
    . rfl
  within := List.cons_ne_nil _ _

/-! ## Declarations -/

theorem lookup_insert {env : Env} {x : String} {b : Binding} (hw : env.scopes ≠ []) (y : String) :
    (env.insert x b).lookup y = if y = x then .found b else env.lookup y := by
  obtain ⟨d, external, scopes⟩ := env
  cases scopes with
  | nil => contradiction
  | cons scope outer =>
    unfold insert lookup lookupIn
    dsimp only
    rw [List.lookup_cons]
    by_cases hyx : y = x
    . simp [hyx]
    . rw [if_neg hyx, beq_false_of_ne hyx]

theorem meaning?_insert {env : Env} {x : String} {b : Binding} (hw : env.scopes ≠ [])
    (y : String) :
    (env.insert x b).meaning? y = if y = x then some b.meaning else env.meaning? y := by
  unfold meaning?
  rw [lookup_insert hw]
  by_cases hyx : y = x
  . rw [if_pos hyx, if_pos hyx]
  . rw [if_neg hyx, if_neg hyx]

theorem scopes_insert {env : Env} {x : String} {b : Binding} (hw : env.scopes ≠ []) :
    (env.insert x b).scopes ≠ [] := by
  obtain ⟨d, external, scopes⟩ := env
  cases scopes with
  | nil => contradiction
  | cons scope outer => exact List.cons_ne_nil _ _

theorem meaning?_eq_none {env : Env} {x : String} :
    env.meaning? x = none ↔ ∀ b, env.lookup x ≠ .found b := by
  unfold meaning?
  cases env.lookup x <;> simp

theorem Agrees.meaning?_eq_none {env : Env} {c : Context} (h : env.Agrees c) {x : String} :
    env.meaning? x = none ∧ Instruction.isName x = false ↔ c.Declarable x := by
  have hvariable := h.readable x
  have hlabel := h.labelled x
  have hfunction := h.callable
  unfold Context.Readable at hvariable
  unfold Context.Declarable
  constructor
  . intro ⟨hx, hi⟩
    rw [hx] at hvariable hlabel
    simp only [reduceCtorEq, false_iff, not_or] at hvariable hlabel
    refine ⟨hvariable.1, ?_, hlabel, hvariable.2, hi⟩
    intro hmem
    obtain ⟨f, hf, rfl⟩ := List.mem_map.1 hmem
    have := (hfunction f).2 hf
    rw [hx] at this
    contradiction
  . intro ⟨hv, hf, hl, he, hi⟩
    refine ⟨?_, hi⟩
    -- Each meaning that the name could have is one that the context excludes.
    cases hm : env.meaning? x with
    | none => rfl
    | some m =>
      obtain _ | ⟨p, r⟩ | _ := m
      . exact ((hvariable.1 hm).elim hv he).elim
      . have hhead : ⟨x, p, r⟩ ∈ c.functions := (hfunction _).1 hm
        exact (hf (List.mem_map_of_mem hhead)).elim
      . exact (hl (hlabel.1 hm)).elim

theorem clean_declare {env : Env} {x : String} {b : Binding} :
    (env.declare x b).2.Clean ↔ env.meaning? x = none ∧ Instruction.isName x = false := by
  unfold declare meaning?
  cases Instruction.isName x with
  | true => simp
  | false =>
    cases env.lookup x with
    | found previous => simp
    | hidden previous => simp [Report.Clean]
    | missing => simp [Report.Clean]

theorem declare_eq_insert {env : Env} {x : String} {b : Binding}
    (h : (env.declare x b).2.Clean) : (env.declare x b).1 = env.insert x b := by
  rw [clean_declare, meaning?_eq_none] at h
  unfold declare
  rw [h.2]
  simp only [Bool.false_eq_true, if_false]
  split
  . next previous hp => exact (h.1 previous hp).elim
  . rfl

theorem AgreesWithin.host_insert {env : Env} {c : Context} (h : env.AgreesWithin c) {x : String}
    {b : Binding} (hx : c.Declarable x) :
    ∀ y ∈ c.external, lookupIn y (env.insert x b).scopes = .missing := by
  intro y hy
  have hyx : y ≠ x := by
    intro hyx
    rw [hyx] at hy
    exact hx.2.2.2.1 hy
  have hw := h.within
  have hhost := h.host y hy
  obtain ⟨d, external, scopes⟩ := env
  cases scopes with
  | nil => contradiction
  | cons scope outer =>
    unfold insert lookupIn at *
    dsimp only at *
    rw [List.lookup_cons, beq_false_of_ne hyx]
    exact hhost

theorem external_insert (env : Env) (x : String) (b : Binding) :
    (env.insert x b).external = env.external ∧ (env.insert x b).dialect = env.dialect := by
  unfold insert
  split <;> exact ⟨rfl, rfl⟩

theorem AgreesWithin.insert {env : Env} {c : Context} (h : env.AgreesWithin c) {x : String}
    {b : Binding} (hx : c.Declarable x) (c' : Context)
    (hsame : { c' with vars := c.vars, functions := c.functions, labels := c.labels } = c)
    (hreadable : ∀ y, c'.Readable y ↔ if y = x then b.meaning = .variable else c.Readable y)
    (hcallable : ∀ f : Head, f ∈ c'.functions ↔
      if f.name = x then b.meaning = .function f.parameters f.returns else f ∈ c.functions)
    (hlabelled : ∀ y, y ∈ c'.labels ↔ if y = x then b.meaning = .label else y ∈ c.labels) :
    (env.insert x b).AgreesWithin c' where
  stackForms := by
    rw [(external_insert ..).2, h.stackForms, ← hsame]
  targetless := by
    rw [← h.targetless, ← hsame]
  assignable := by
    have := h.assignable
    rwa [← hsame] at this
  external := by
    rw [(external_insert ..).1, h.external, ← hsame]
  host y hy := by
    apply h.host_insert hx
    rwa [← hsame]
  readable y := by
    rw [meaning?_insert h.within, hreadable]
    split
    . exact Option.some_inj
    . exact h.readable y
  callable f := by
    rw [meaning?_insert h.within, hcallable]
    split
    . exact Option.some_inj
    . exact h.callable f
  labelled y := by
    rw [meaning?_insert h.within, hlabelled]
    split
    . exact Option.some_inj
    . exact h.labelled y
  within := scopes_insert h.within

theorem AgreesWithin.insert_variable {env : Env} {c : Context} (h : env.AgreesWithin c) {x : String}
    {span : Span} (hx : c.Declarable x) :
    (env.insert x ⟨.variable, span⟩).AgreesWithin (c.addVariable x) := by
  obtain ⟨hv, hf, hl, _, _⟩ := id hx
  refine h.insert hx (c.addVariable x) rfl ?_ ?_ ?_
  . intro y
    unfold Context.Readable Context.addVariable
    split <;> simp_all
  . intro f
    split
    . next hfx =>
      have hnot : f ∉ c.functions := fun hmem => hf (hfx ▸ List.mem_map_of_mem hmem)
      simpa [Context.addVariable] using hnot
    . rfl
  . intro y
    split
    . next hyx => simpa [Context.addVariable, hyx] using hl
    . rfl

theorem AgreesWithin.insert_function {env : Env} {c : Context} (h : env.AgreesWithin c) {f : Head}
    (span : Span) (hx : c.Declarable f.name) :
    (env.insert f.name ⟨.function f.parameters f.returns, span⟩).AgreesWithin
      (c.addFunction f) := by
  obtain ⟨hv, hf, hl, he, _⟩ := id hx
  refine h.insert hx (c.addFunction f) rfl ?_ ?_ ?_
  . intro y
    split
    . next hyx => simp [Context.Readable, Context.addFunction, hyx, hv, he]
    . rfl
  . intro g
    unfold Context.addFunction
    rw [List.mem_cons]
    split
    . next hgf =>
      have hnot : g ∉ c.functions := fun hmem => hf (hgf ▸ List.mem_map_of_mem hmem)
      obtain ⟨name, p, r⟩ := g
      cases hgf
      simp [hnot, Head.ext_iff, eq_comm]
    . next hgf =>
      have hne : g ≠ f := fun hg => hgf (congrArg Head.name hg)
      simp [hne]
  . intro y
    split
    . next hyx => simpa [Context.addFunction, hyx] using hl
    . rfl

theorem AgreesWithin.insert_label {env : Env} {c : Context} (h : env.AgreesWithin c) {x : String}
    (span : Span) (hx : c.Declarable x) :
    (env.insert x ⟨.label, span⟩).AgreesWithin (c.addLabel x) := by
  obtain ⟨hv, hf, hl, he, _⟩ := id hx
  refine h.insert hx (c.addLabel x) rfl ?_ ?_ ?_
  . intro y
    split
    . next hyx => simp [Context.Readable, Context.addLabel, hyx, hv, he]
    . rfl
  . intro f
    split
    . next hfx =>
      have hnot : f ∉ c.functions := fun hmem => hf (hfx ▸ List.mem_map_of_mem hmem)
      simpa [Context.addLabel] using hnot
    . rfl
  . intro y
    unfold Context.addLabel
    split <;> simp_all

end Env
end Splice
