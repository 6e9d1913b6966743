import Splice.Proofs.Analysis.Contexts

/-!
This module contains what the rules say of the functions that a block defines: where they are
visible, and that their bodies keep to the rules.
-/

namespace Splice

namespace Context

variable {c : Context} {ss : List Stmt}

theorem enterFunction_declare (c : Context) (xs ys : List Binder) :
    (c.declare xs).enterFunction ys = c.enterFunction ys := by
  unfold enterFunction
  rw [c.declare_eq]

theorem mem_functions_enter {h : Head} (hh : h ∈ (c.enter ss).functions) :
    h ∈ c.functions ∨ ∃ f body, .function ⟨f, body⟩ ∈ ss ∧ f.head = h := by
  induction ss generalizing c with
  | nil => exact .inl hh
  | cons s ss ih =>
    rcases ih hh with hh | ⟨f, body, hf, hhead⟩
    . unfold announce at hh
      split at hh
      . next f body _ =>
        rcases List.mem_cons.1 hh with rfl | hh
        . exact .inr ⟨f, body, List.mem_cons_self, rfl⟩
        . exact .inl hh
      . exact .inl hh
      . exact .inl hh
    . exact .inr ⟨f, body, List.mem_cons_of_mem s hf, hhead⟩

theorem functions_subset_enter (c : Context) (ss : List Stmt) :
    c.functions ⊆ (c.enter ss).functions := by
  induction ss generalizing c with
  | nil => exact List.Subset.refl _
  | cons s ss ih =>
    apply List.Subset.trans _ (ih (c.announce s))
    unfold announce
    split
    . exact List.subset_cons_self _ _
    . exact List.Subset.refl _
    . exact List.Subset.refl _

theorem head_mem_functions_enter {f : Signature} {body : Block}
    (hf : .function ⟨f, body⟩ ∈ ss) : f.head ∈ (c.enter ss).functions := by
  induction ss generalizing c with
  | nil => contradiction
  | cons s ss ih =>
    rcases List.mem_cons.1 hf with rfl | hf
    . exact functions_subset_enter _ ss List.mem_cons_self
    . exact ih hf

theorem notMem_functions_of_canEnter (h : c.CanEnter ss) {f : Signature} {body : Block}
    (hf : .function ⟨f, body⟩ ∈ ss) : f.name ∉ c.functions.map Head.name := by
  induction ss generalizing c with
  | nil => contradiction
  | cons s ss ih =>
    rcases List.mem_cons.1 hf with rfl | hf
    . exact h.1.2.1
    . intro hmem
      apply ih h.2 hf
      unfold announce
      split
      . exact List.mem_cons_of_mem _ hmem
      . exact hmem
      . exact hmem

theorem eq_of_canEnter (h : c.CanEnter ss) {f g : Signature} {body body' : Block}
    (hf : .function ⟨f, body⟩ ∈ ss) (hg : .function ⟨g, body'⟩ ∈ ss) (hname : f.name = g.name) :
    f = g ∧ body = body' := by
  induction ss generalizing c with
  | nil => contradiction
  | cons s ss ih =>
    rcases List.mem_cons.1 hf with rfl | hf'
    . rcases List.mem_cons.1 hg with heq | hg'
      . cases heq
        exact ⟨rfl, rfl⟩
      . refine (notMem_functions_of_canEnter h.2 hg' ?_).elim
        rw [← hname]
        exact List.mem_cons_self
    . rcases List.mem_cons.1 hg with rfl | hg'
      . refine (notMem_functions_of_canEnter h.2 hf' ?_).elim
        rw [hname]
        exact List.mem_cons_self
      . exact ih h.2 hf' hg'

end Context

variable {c : Context} {ss : List Stmt} {f : Signature} {body : Block}

theorem body_valid_of_allValid (hv : Stmt.AllValid c ss) (hf : .function ⟨f, body⟩ ∈ ss) :
    body.Valid (c.enterFunction (f.parameters ++ f.returns)) := by
  induction ss generalizing c with
  | nil => contradiction
  | cons s ss ih =>
    rcases List.mem_cons.1 hf with rfl | hf
    . exact hv.1
    . have hbody := ih hv.2 hf
      rwa [Context.enterFunction_declare] at hbody

theorem body_declaresNew_of_allDeclareNew (hd : Stmt.AllDeclareNew c ss)
    (hf : .function ⟨f, body⟩ ∈ ss) :
    body.DeclaresNew (c.enterFunction (f.parameters ++ f.returns)) := by
  induction ss generalizing c with
  | nil => contradiction
  | cons s ss ih =>
    rcases List.mem_cons.1 hf with rfl | hf
    . exact hd.1.2
    . have hbody := ih hd.2 hf
      rwa [Context.enterFunction_declare] at hbody

/-! ## The place of a function -/

/--
What is visible at a place of the program `p` has the property, if what is visible around the place
has it.
-/
structure Context.Pervades (p : Block) (P : Context → Prop) : Prop where
  declare : ∀ {c : Context} {xs : List Binder}, P c → xs.map Binder.name ⊆ p.boundNames →
    P (c.declare xs)
  enter : ∀ {c : Context} {ss : List Stmt}, P c → Stmt.AllValid (c.enter ss) ss →
    Stmt.allFunctions ss ⊆ p.functions → P (c.enter ss)
  enterFunction : ∀ {c : Context} {xs : List Binder}, P c → xs.map Binder.name ⊆ p.boundNames →
    P (c.enterFunction xs)

section

variable {p : Block} {P : Context → Prop} {c : Context}

theorem Context.Pervades.after (hP : Context.Pervades p P) (hc : P c) {ss : List Stmt}
    (hss : Stmt.allBoundNames ss ⊆ p.boundNames) : P (c.after ss) := by
  induction ss generalizing c with
  | nil => exact hc
  | cons s ss ih =>
    obtain ⟨hs, hss⟩ := List.append_subset.1 hss
    rw [s.boundNames_eq] at hs
    refine ih (hP.declare hc ?_) hss
    exact List.Subset.trans s.declared_subset (List.append_subset.1 hs).2

end

mutual

theorem Stmt.Valid.exists_context {p : Block} {P : Context → Prop} (hP : Context.Pervades p P)
    {c : Context} (hc : P c) {f : Function} : (s : Stmt) → s.Valid c →
    s.boundNames ⊆ p.boundNames → s.functions ⊆ p.functions → f ∈ s.functions →
      ∃ c' : Context, P c' ∧ f.body.Valid (c'.enterFunction (f.parameters ++ f.returns))
  | .conditional _ _ body, hv, hn, hs, hf => Block.Valid.exists_context hP hc body hv.2 hn hs hf
  | .switch _ _ arms, hv, hn, hs, hf => Case.AllValid.exists_context hP hc arms hv.2.1 hn hs hf
  | .loop _ ⟨_, pre⟩ _ post body, hv, hn, hs, hf => by
    change Stmt.allBoundNames pre ++ post.boundNames ++ body.boundNames ⊆ _ at hn
    change Stmt.allFunctions pre ++ post.functions ++ body.functions ⊆ _ at hs
    change f ∈ Stmt.allFunctions pre ++ post.functions ++ body.functions at hf
    rw [List.append_subset, List.append_subset] at hn hs
    rw [List.mem_append, List.mem_append] at hf
    have hpre : P (c.enter pre) := hP.enter hc hv.1 hs.1.1
    have hafter : P ((c.enter pre).after pre) := hP.after hpre hn.1.1
    rcases hf with (hf | hf) | hf
    . exact Stmt.AllValid.exists_context hP hpre pre hv.1 hn.1.1 hs.1.1 hf
    . exact Block.Valid.exists_context hP hafter post hv.2.2.1 hn.1.2 hs.1.2 hf
    . exact Block.Valid.exists_context hP hafter body hv.2.2.2 hn.2 hs.2 hf
  | .function ⟨g, body⟩, hv, hn, hs, hf => by
    simp only [Stmt.boundNames, ← List.map_append, List.cons_append, List.cons_subset,
      List.append_subset] at hn
    unfold Stmt.functions at hf
    rcases List.mem_cons.1 hf with rfl | hf
    . exact ⟨c, hc, hv⟩
    . exact Block.Valid.exists_context hP (hP.enterFunction hc hn.2.1) body hv hn.2.2
        (List.cons_subset.1 hs).2 hf
  | .block b, hv, hn, hs, hf => Block.Valid.exists_context hP hc b hv hn hs hf

theorem Stmt.AllValid.exists_context {p : Block} {P : Context → Prop}
    (hP : Context.Pervades p P) {c : Context} (hc : P c) {f : Function} : (ss : List Stmt) →
    Stmt.AllValid c ss → Stmt.allBoundNames ss ⊆ p.boundNames →
    Stmt.allFunctions ss ⊆ p.functions → f ∈ Stmt.allFunctions ss →
      ∃ c' : Context, P c' ∧ f.body.Valid (c'.enterFunction (f.parameters ++ f.returns))
  | s :: ss, hv, hn, hs, hf => by
    obtain ⟨hn, hns⟩ := List.append_subset.1 hn
    obtain ⟨hs, hss⟩ := List.append_subset.1 hs
    rcases List.mem_append.1 hf with hf | hf
    . exact Stmt.Valid.exists_context hP hc s hv.1 hn hs hf
    . have hdeclared : Stmt.allBoundNames [s] ⊆ p.boundNames := by
        rwa [Stmt.allBoundNames, Stmt.allBoundNames, List.append_nil]
      have hafter : P (c.after [s]) := hP.after hc hdeclared
      exact Stmt.AllValid.exists_context hP hafter ss hv.2 hns hss hf

theorem Block.Valid.exists_context {p : Block} {P : Context → Prop} (hP : Context.Pervades p P)
    {c : Context} (hc : P c) {f : Function} : (b : Block) → b.Valid c →
    b.boundNames ⊆ p.boundNames → b.functions ⊆ p.functions → f ∈ b.functions →
      ∃ c' : Context, P c' ∧ f.body.Valid (c'.enterFunction (f.parameters ++ f.returns))
  | ⟨_, ss⟩, hv, hn, hs, hf =>
    Stmt.AllValid.exists_context hP (hP.enter hc hv hs) ss hv hn hs hf

theorem Case.AllValid.exists_context {p : Block} {P : Context → Prop}
    (hP : Context.Pervades p P) {c : Context} (hc : P c) {f : Function} : (cs : List Case) →
    Case.AllValid c cs → Case.allBoundNames cs ⊆ p.boundNames →
    Case.allFunctions cs ⊆ p.functions → f ∈ Case.allFunctions cs →
      ∃ c' : Context, P c' ∧ f.body.Valid (c'.enterFunction (f.parameters ++ f.returns))
  | ⟨_, _, body⟩ :: cs, hv, hn, hs, hf => by
    obtain ⟨hn, hns⟩ := List.append_subset.1 hn
    obtain ⟨hs, hss⟩ := List.append_subset.1 hs
    rcases List.mem_append.1 hf with hf | hf
    . exact Block.Valid.exists_context hP hc body hv.1 hn hs hf
    . exact Case.AllValid.exists_context hP hc cs hv.2 hns hss hf

end

theorem Context.pervades_assignable (p : Block) (assignable : List String) :
    Context.Pervades p fun c => c.assignable = assignable where
  declare hc _ := (Context.assignable_declare _ _).trans hc
  enter hc _ _ := (Context.assignable_enter _ _).trans hc
  enterFunction hc _ := (Context.assignable_enterFunction _ _).trans hc

theorem Block.Valid.exists_body {c : Context} {f : Function} (b : Block) (hv : b.Valid c)
    (hf : f ∈ b.functions) : ∃ c' : Context, c'.assignable = c.assignable ∧
      f.body.Valid (c'.enterFunction (f.parameters ++ f.returns)) :=
  Block.Valid.exists_context (Context.pervades_assignable b c.assignable) rfl b hv
    (List.Subset.refl _) (List.Subset.refl _) hf

end Splice
