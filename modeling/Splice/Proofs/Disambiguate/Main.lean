import Splice.Proofs.Analysis.Acceptance
import Splice.Proofs.Disambiguate.Blocks
import Splice.Proofs.Pass.Refusal
import Splice.Proofs.Syntax.RoundTrip
import Splice.Proofs.Text.Order
import Splice.Proofs.Tree.Anonymous

/-!
This module contains the proof that the pass that gives every binding a name of its own renames, and
does nothing else.
-/

namespace Splice
namespace Disambiguation

theorem keepsShape_bindAll (xs : List Binder) :
    Traversal.Keeps (List.map Binder.anonymous) (bindAll xs) xs := by
  induction xs with
  | nil => exact fun s => .pure rfl
  | cons x xs ih =>
    intro s
    unfold bindAll
    apply (Traversal.meets_any _ s).bind
    intro name s' _
    apply (ih s').bind
    intro xs' s'' hxs
    apply Meets.pure
    rw [List.map_cons, hxs]
    rfl

theorem keepsShape (external : List String) : (traversal external).KeepsShape where
  use i s := by
    change Meets (use external i) s _ _
    unfold use
    apply (Traversal.meets_any _ s).bind
    intro s₁ s' _
    split
    . exact .pure rfl
    . split
      . exact .pure rfl
      . exact .throw trivial
  vars := keepsShape_bindAll
  enterFunction f s := by
    change Meets (enterFunction f) s _ _
    unfold enterFunction
    apply (Traversal.meets_any _ s).bind
    intro name s₂ _
    apply (Traversal.meets_any _ s₂).bind
    intro _ s₃ _
    apply (keepsShape_bindAll f.parameters s₃).bind
    intro parameters s₄ hparameters
    apply (keepsShape_bindAll f.returns s₄).bind
    intro returns s₅ hreturns
    apply Meets.pure
    unfold Signature.anonymous
    rw [hparameters, hreturns]
  stackForm form s := .throw trivial

theorem stopsAt_bind (name : String) : Traversal.StopsAt [] (bind name) := fun _ => rfl

theorem stopsAt_get : Traversal.StopsAt [] (get : Pass State) := fun _ => rfl

theorem stopsAt_modify (f : State → State) : Traversal.StopsAt [] (modify f : Pass PUnit) :=
  fun _ => rfl

theorem stopsAt_functionName (name : String) : Traversal.StopsAt [] (functionName name) := by
  apply stopsAt_get.after
  intro s
  split
  . exact .pure _
  . exact stopsAt_bind _

theorem stopsAt_bindAll (xs : List Binder) : Traversal.StopsAt [] (bindAll xs) := by
  induction xs with
  | nil => exact .pure _
  | cons x xs ih => exact (stopsAt_bind x.name).after fun _ => ih.after fun _ => .pure _

theorem stopsAt_bindFunctions (xs : List Stmt) : Traversal.StopsAt [] (bindFunctions xs) := by
  induction xs with
  | nil => exact .pure _
  | cons x xs ih =>
    by_cases hf : ∃ f body, x = .function ⟨f, body⟩
    . obtain ⟨f, body, rfl⟩ := hf
      exact (stopsAt_bind f.name).after fun _ => ih
    . rw [bindFunctions_cons fun f body hx => hf ⟨f, body, hx⟩]
      exact ih

theorem refusesStackForms (external : List String) : (traversal external).RefusesStackForms where
  use i := by
    change Traversal.StopsAt [] (use external i)
    unfold use
    apply stopsAt_get.after
    intro s
    split
    . exact .pure _
    . split
      . exact .pure _
      . exact fun _ => .throw fun form hform => by contradiction
  vars := stopsAt_bindAll
  enterFunction f := by
    apply (stopsAt_functionName f.name).after
    intro name
    apply (stopsAt_modify State.enter).after
    intro _
    exact (stopsAt_bindAll f.parameters).after fun _ =>
      (stopsAt_bindAll f.returns).after fun _ => .pure _
  leaveFunction := stopsAt_modify State.leave
  enterBlock xs := (stopsAt_modify State.enter).after fun _ => stopsAt_bindFunctions xs
  leaveBlock := stopsAt_modify State.leave
  stackForm _ := rfl

theorem tied_initial (info : Info) (b : Block) {c : Context} (hhost : c.external = info.external)
    (hvars : c.vars = []) (hfunctions : c.functions = []) :
    Tied info.external [] (.initial info b) c [] [] where
  state := rfl
  host := hhost
  vars := hvars
  functions := hfunctions
  sites := rfl
  sites' := rfl
  callable := by simp
  apart := .nil
  distinct := .nil
  foreign := by simp
  taken := by simp
  hostTaken := List.Subset.refl _
  used := fun _ hx => Supply.mem_ofNames.2 (List.mem_append_right _ hx)

theorem run_spec (info : Info) {b : Block} {c : Context} (hhost : c.external = info.external)
    (hvars : c.vars = []) (hfunctions : c.functions = []) (hsub : c.assignable ⊆ c.external)
    (hv : b.Valid c) (hd : b.DeclaresNew c) :
    Meets ((traversal info.external).block b) (.initial info b) (fun b' s' =>
      Kept info.external [] (.initial info b) s' c [] [] (b.links info.external [] 0)
        (b'.links info.external [] 0) b.boundNames.length b'.boundNames.length b'.boundNames
        (Block.Valid · b')) Unsupported :=
  block_spec (tied_initial info b hhost hvars hfunctions) hsub 0 b hv hd
    fun _ hx => Supply.mem_ofNames.2 (List.mem_append_left _ hx)

end Disambiguation

open Disambiguation

theorem disambiguate_eq_ok {info : Info} {b b' : Block} (h : disambiguate info b = .ok b') :
    ∃ s, (traversal info.external).block b (.initial info b) = .ok b' s := by
  unfold disambiguate run at h
  split at h
  . next b₁ s hrun =>
    injection h with h
    exact ⟨s, h ▸ hrun⟩
  . contradiction

theorem info_of_analyze {d : Dialect} {external : List String} {b : Block} {info : Info}
    (h : analyze d external b = .ok info) :
    info.dialect = d ∧ info.external = Text.ordered external := by
  unfold analyze at h
  dsimp only at h
  split at h
  . injection h with h
    rw [← h]
    exact ⟨rfl, rfl⟩
  . contradiction

section

variable {info : Info} {b : Block} {c : Context}

theorem exists_disambiguate (hhost : c.external = info.external) (hvars : c.vars = [])
    (hfunctions : c.functions = []) (hsub : c.assignable ⊆ c.external) (hv : b.Valid c)
    (hd : b.DeclaresNew c) (hforms : b.stackForms = []) :
    ∃ b', disambiguate info b = .ok b' ∧ b'.anonymous = b.anonymous ∧
      b'.links info.external [] 0 = b.links info.external [] 0 ∧
      ∀ name, Link.unbound name ∉ b.links info.external [] 0 := by
  have hspec := run_spec info hhost hvars hfunctions hsub hv hd
  have hstops := (refusesStackForms info.external).block b (.initial info b)
  have hshape := (keepsShape info.external).block b (.initial info b)
  unfold disambiguate run
  cases hrun : (traversal info.external).block b (.initial info b) with
  | ok b' s =>
    have hkept := hspec.ok hrun
    exact ⟨b', rfl, hshape.ok hrun, hkept.same.links_eq, hkept.same.bound⟩
  | error e s =>
    obtain ⟨form, rfl⟩ := hspec.error hrun
    obtain ⟨rest, hrest⟩ := hstops.error hrun form rfl
    rw [hforms] at hrest
    contradiction

theorem disambiguate_eq_error (hhost : c.external = info.external) (hvars : c.vars = [])
    (hfunctions : c.functions = []) (hsub : c.assignable ⊆ c.external) (hv : b.Valid c)
    (hd : b.DeclaresNew c) {form : StackForm} {forms : List StackForm}
    (hforms : b.stackForms = form :: forms) :
    disambiguate info b = .error (.unsupported form) := by
  have hspec := run_spec info hhost hvars hfunctions hsub hv hd
  have hstops := (refusesStackForms info.external).block b (.initial info b)
  unfold disambiguate run
  cases hrun : (traversal info.external).block b (.initial info b) with
  | ok b' s =>
    have hnil := hstops.ok hrun
    rw [hforms] at hnil
    contradiction
  | error e s =>
    obtain ⟨form', rfl⟩ := hspec.error hrun
    obtain ⟨rest, hrest⟩ := hstops.error hrun form' rfl
    rw [hforms] at hrest
    cases hrest
    rfl

end

/--
Giving every binding a name of its own is a renaming: on an accepted program without stack forms the
pass succeeds, nothing but names changes, and each use refers to what it referred to before, which
is something in each case. On a program with stack forms it fails at the first one.
-/
theorem disambiguate_renames {d : Dialect} {external : List String} {b : Block} {info : Info}
    (h : analyze d external b = .ok info) :
    match b.stackForms with
    | [] => ∃ b', disambiguate info b = .ok b' ∧ b'.anonymous = b.anonymous ∧
        b'.links info.external [] 0 = b.links info.external [] 0 ∧
        ∀ name, Link.unbound name ∉ b.links info.external [] 0
    | form :: _ => disambiguate info b = .error (.unsupported form) := by
  obtain ⟨hv, hd⟩ := isOk_analyze.1 (congrArg Except.isOk h)
  have hhost : (Context.root d external).external = info.external := (info_of_analyze h).2.symm
  have hsub : (Context.root d external).assignable ⊆ (Context.root d external).external :=
    List.Subset.refl _
  split
  . next hforms => exact exists_disambiguate hhost rfl rfl hsub hv hd hforms
  . next form forms hforms => exact disambiguate_eq_error hhost rfl rfl hsub hv hd hforms

theorem disambiguate_renames_siblings : ∃ b info,
    parseAndAnalyze .loose ["h"] "\x7b \x7b let a := h \x7d \x7b let a \x7d \x7d" = .ok (b, info) ∧
    match b.stackForms with
    | [] => ∃ b', disambiguate info b = .ok b' ∧ b'.anonymous = b.anonymous ∧
        b'.links info.external [] 0 = b.links info.external [] 0 ∧
        ∀ name, Link.unbound name ∉ b.links info.external [] 0
    | form :: _ => disambiguate info b = .error (.unsupported form) := by
  have haccepted : (parseAndAnalyze .loose ["h"]
      "\x7b \x7b let a := h \x7d \x7b let a \x7d \x7d").isOk = true := by decide +kernel
  obtain ⟨⟨b, info⟩, h⟩ := exists_of_isOk haccepted
  exact ⟨b, info, h, disambiguate_renames (parseAndAnalyze_eq_ok.1 h).2⟩

end Splice
