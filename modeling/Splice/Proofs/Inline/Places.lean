import Splice.Pass.Inline
import Splice.Proofs.Analysis.Definitions
import Splice.Proofs.Tree.Functions

/-!
This module contains what the pass that inlines relies on at each place of a program: all names
differ, and the functions that are visible keep to the rules with what is visible.
-/

namespace Splice
namespace Inlining

namespace Setting

variable {s : Setting} {name : String}

theorem target?_eq_some {f : Function} (h : s.target? name = some f) :
    name ∉ s.enclosing ∧ f ∈ s.program.functions ∧ f.name = name := by
  unfold target? at h
  split at h
  . contradiction
  . next hnot =>
    exact ⟨fun hmem => hnot (List.contains_iff_mem.2 hmem), Block.function?_eq_some h⟩

theorem mem_enclosing_of_target? (h : s.target? name = none)
    (hname : name ∈ Function.names s.program.functions) : name ∈ s.enclosing := by
  unfold target? at h
  split at h
  . next henclosing => exact List.contains_iff_mem.1 henclosing
  . obtain ⟨f, hf, rfl⟩ := List.mem_map.1 hname
    have hnone := List.find?_eq_none.1 h f (List.mem_reverse.2 hf)
    exact (hnone (decide_eq_true rfl)).elim

end Setting

structure Place (p : Block) (c : Context) : Prop where
  nodup : p.boundNames.Nodup
  foreign : ∀ x ∈ p.boundNames, x ∉ c.external
  vars : c.vars ⊆ p.boundNames
  assignable : c.assignable ⊆ c.external
  stackForms : c.stackForms = false
  targetless : c.targetless = false
  functions : ∀ f ∈ c.functions, ∃ g ∈ p.functions, g.head = f ∧
    g.body.Valid (c.enterFunction (g.parameters ++ g.returns))

namespace Place

variable {p : Block} {c : Context}

theorem declare (h : Place p c) {xs : List Binder} (hxs : xs.map Binder.name ⊆ p.boundNames) :
    Place p (c.declare xs) := by
  have hvars : (c.declare xs).vars ⊆ p.boundNames := by
    intro x hx
    rw [c.mem_vars_declare] at hx
    exact hx.elim (hxs ·) (h.vars ·)
  have hfunctions : ∀ f ∈ c.functions, ∃ g ∈ p.functions, g.head = f ∧
      g.body.Valid ((c.declare xs).enterFunction (g.parameters ++ g.returns)) := by
    intro f hf
    obtain ⟨g, hg, hhead, hbody⟩ := h.functions f hf
    refine ⟨g, hg, hhead, ?_⟩
    rwa [Context.enterFunction_declare]
  rw [c.declare_eq] at hvars hfunctions ⊢
  exact ⟨h.nodup, h.foreign, hvars, h.assignable, h.stackForms, h.targetless, hfunctions⟩

theorem enter (h : Place p c) {ss : List Stmt} (hv : Stmt.AllValid (c.enter ss) ss)
    (hss : Stmt.allFunctions ss ⊆ p.functions) : Place p (c.enter ss) := by
  have hfunctions : ∀ f ∈ (c.enter ss).functions, ∃ g ∈ p.functions, g.head = f ∧
      g.body.Valid ((c.enter ss).enterFunction (g.parameters ++ g.returns)) := by
    intro f hf
    rcases Context.mem_functions_enter hf with hf | ⟨g, body, hg, rfl⟩
    . obtain ⟨g, hg, hhead, hbody⟩ := h.functions f hf
      refine ⟨g, hg, hhead, Block.Valid.mono ?_ g.body hbody⟩
      apply Context.Extends.enterFunction
      rw [c.enter_eq]
      refine ⟨List.Subset.refl _, List.Subset.refl _, id, id, List.Subset.refl _, ?_⟩
      exact c.functions_subset_enter ss
    . exact ⟨⟨g, body⟩, hss (Stmt.mem_allFunctions hg), rfl, body_valid_of_allValid hv hg⟩
  rw [c.enter_eq] at hfunctions ⊢
  exact ⟨h.nodup, h.foreign, h.vars, h.assignable, h.stackForms, h.targetless, hfunctions⟩

theorem enterFunction (h : Place p c) {xs : List Binder}
    (hxs : xs.map Binder.name ⊆ p.boundNames) : Place p (c.enterFunction xs) := by
  have hempty : Place p { c with vars := [] } :=
    ⟨h.nodup, h.foreign, List.nil_subset _, h.assignable, h.stackForms, h.targetless, h.functions⟩
  exact hempty.declare hxs

theorem pervades (p : Block) : Context.Pervades p (Place p) where
  declare h hxs := h.declare hxs
  enter h hv hss := h.enter hv hss
  enterFunction h hxs := h.enterFunction hxs

theorem after (h : Place p c) {ss : List Stmt} (hss : Stmt.allBoundNames ss ⊆ p.boundNames) :
    Place p (c.after ss) :=
  (pervades p).after h hss

theorem next (h : Place p c) {x : Stmt} {xs : List Stmt}
    (hxs : Stmt.allBoundNames (x :: xs) ⊆ p.boundNames) : Place p (c.after [x]) := by
  apply h.after
  rw [Stmt.allBoundNames_singleton]
  exact (List.append_subset.1 hxs).1

theorem target {s : Setting} (h : Place s.program c) {callee : String} {n m : Nat}
    (hcallee : ⟨callee, n, m⟩ ∈ c.functions) {f : Function} (hf : s.target? callee = some f) :
    f ∈ s.program.functions ∧ f.name = callee ∧ f.parameters.length = n ∧ f.returns.length = m ∧
    f.body.Valid (c.enterFunction (f.parameters ++ f.returns)) := by
  obtain ⟨_, hmem, hname⟩ := Setting.target?_eq_some hf
  obtain ⟨g, hg, hhead, hbody⟩ := h.functions _ hcallee
  injection hhead with hgname hparameters hreturns
  obtain rfl := Block.eq_of_name_eq h.nodup hmem hg (hname.trans hgname.symm)
  exact ⟨hmem, hname, hparameters, hreturns, hbody⟩

theorem mem_enclosing {s : Setting} (h : Place s.program c) {callee : String} {n m : Nat}
    (hcallee : ⟨callee, n, m⟩ ∈ c.functions) (hf : s.target? callee = none) :
    callee ∈ s.enclosing := by
  obtain ⟨g, hg, hhead, _⟩ := h.functions _ hcallee
  exact Setting.mem_enclosing_of_target? hf (List.mem_map.2 ⟨g, hg, congrArg Head.name hhead⟩)

end Place
end Inlining
end Splice
