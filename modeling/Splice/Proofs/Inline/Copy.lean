import Splice.Pass.BodyCopy
import Splice.Proofs.Inline.Rename
import Splice.Proofs.Names.Sequence
import Splice.Proofs.Pass.Success

/-!
This module contains the proof that the copying of the body of a function renames its variables, all
uses of a variable alike.
-/

namespace Splice
namespace BodyCopy

def Agrees (ρ : String → String) (replacements : List (String × String)) : Prop :=
  ∀ r ∈ replacements, ρ r.1 = r.2

structure Fixes (ρ : String → String) (c : Context) : Prop where
  external : ∀ x ∈ c.external, ρ x = x
  functions : ∀ f ∈ c.functions, ρ f.name = f.name

structure Renews (label : String) (s s' : State) (names : List String) : Prop where
  supply : s'.supply = s.supply.afterFresh (names.map (label ++ ·))
  replacements : s'.replacements =
    (names.zip (s.supply.freshNames (names.map (label ++ ·)))).reverse ++ s.replacements

def Covers (s : State) (c : Context) : Prop :=
  c.vars ⊆ s.replacements.map Prod.fst

theorem Agrees.of_append {ρ : String → String} {as bs : List (String × String)}
    (h : Agrees ρ (as ++ bs)) : Agrees ρ bs :=
  fun r hr => h r (List.mem_append_right as hr)

theorem Fixes.congr {ρ : String → String} {c c' : Context} (h : Fixes ρ c)
    (hexternal : c'.external = c.external) (hfunctions : c'.functions = c.functions) :
    Fixes ρ c' where
  external := hexternal ▸ h.external
  functions := hfunctions ▸ h.functions

namespace Renews

variable {label : String} {s s' s'' : State} {names names' : List String}

theorem refl (label : String) (s : State) : Renews label s s [] :=
  ⟨rfl, rfl⟩

theorem length_fresh (supply : Supply) (label : String) (names : List String) :
    (supply.freshNames (names.map (label ++ ·))).length = names.length := by
  rw [Supply.length_freshNames, List.length_map]

theorem trans (h : Renews label s s' names) (h' : Renews label s' s'' names') :
    Renews label s s'' (names ++ names') := by
  constructor
  . rw [h'.supply, h.supply, List.map_append, Supply.afterFresh_append]
  . have hlength := (length_fresh s.supply label names).symm
    rw [h'.replacements, h.replacements, h.supply, List.map_append, Supply.freshNames_append,
      List.zip_append hlength, List.reverse_append, List.append_assoc]

theorem agrees (h : Renews label s s' names) {ρ : String → String}
    (hρ : Agrees ρ s'.replacements) : Agrees ρ s.replacements := by
  rw [h.replacements] at hρ
  exact hρ.of_append

theorem map_fst (h : Renews label s s' names) :
    s'.replacements.map Prod.fst = names.reverse ++ s.replacements.map Prod.fst := by
  rw [h.replacements, List.map_append, List.map_reverse, List.map_fst_zip]
  exact Nat.le_of_eq (length_fresh s.supply label names).symm

theorem map_eq (h : Renews label s s' names) {ρ : String → String}
    (hρ : Agrees ρ s'.replacements) :
    names.map ρ = s.supply.freshNames (names.map (label ++ ·)) := by
  rw [h.replacements] at hρ
  have hlength := length_fresh s.supply label names
  conv_lhs => rw [← List.map_fst_zip (Nat.le_of_eq hlength.symm), List.map_map]
  conv_rhs => rw [← List.map_snd_zip (Nat.le_of_eq hlength)]
  refine List.map_congr_left fun r hr => hρ r ?_
  exact List.mem_append_left _ (List.mem_reverse.2 hr)

theorem covers (h : Renews label s s' names) {c : Context} (hc : Covers s c) {c' : Context}
    (hvars : ∀ x ∈ c'.vars, x ∈ names ∨ x ∈ c.vars) : Covers s' c' := by
  intro x hx
  rw [h.map_fst, List.mem_append, List.mem_reverse]
  exact (hvars x hx).imp_right (hc ·)

end Renews

/-! ## Uses -/

theorem lookup_eq {ρ : String → String} {replacements : List (String × String)}
    (h : Agrees ρ replacements) {x : String} (hx : x ∈ replacements.map Prod.fst ∨ ρ x = x) :
    (replacements.lookup x).getD x = ρ x := by
  cases hlookup : replacements.lookup x with
  | none =>
    rw [List.lookup_eq_none_iff] at hlookup
    refine hx.elim (fun hmem => ?_) Eq.symm
    obtain ⟨r, hr, rfl⟩ := List.mem_map.1 hmem
    exact (bne_iff_ne.1 (hlookup r hr) rfl).elim
  | some y =>
    rw [List.lookup_eq_some_iff] at hlookup
    obtain ⟨as, bs, rfl, _⟩ := hlookup
    exact (h (x, y) (List.mem_append_right _ List.mem_cons_self)).symm

section

variable {label : String} {s s' : State} {c : Context}

theorem use_eq_ok {i i' : Identifier} (h : use i s = .ok i' s') :
    s = s' ∧ i' = { i with name := (s.replacements.lookup i.name).getD i.name } := by
  unfold use at h
  simp only [bind_eq_ok, get_eq_ok, pure_eq_ok] at h
  obtain ⟨_, _, ⟨rfl, rfl⟩, rfl, rfl⟩ := h
  exact ⟨rfl, rfl⟩

theorem use_variable {i i' : Identifier} (hc : Covers s c) (hi : c.Readable i.name)
    (h : use i s = .ok i' s') :
    s = s' ∧ ∀ ρ, Agrees ρ s.replacements → Fixes ρ c → i' = i.rename ρ := by
  obtain ⟨rfl, rfl⟩ := use_eq_ok h
  refine ⟨rfl, fun ρ hρ hfix => ?_⟩
  rw [lookup_eq hρ (hi.imp (hc ·) (hfix.external i.name))]
  rfl

theorem use_function {i i' : Identifier} {f : Head} (hf : f ∈ c.functions) (hi : f.name = i.name)
    (h : use i s = .ok i' s') :
    s = s' ∧ ∀ ρ, Agrees ρ s.replacements → Fixes ρ c → i' = i := by
  obtain ⟨rfl, rfl⟩ := use_eq_ok h
  refine ⟨rfl, fun ρ hρ hfix => ?_⟩
  have hname : ρ i.name = i.name := hi ▸ hfix.functions f hf
  rw [lookup_eq hρ (.inr hname), hname]

mutual

theorem expr_eq_ok {label : String} {s : State} {c : Context} (hc : Covers s c) :
    (e : Expr) → {n : Nat} → e.Yields c n → {e' : Expr} → {s' : State} →
    (traversal label).expr e s = .ok e' s' →
    s = s' ∧ ∀ ρ, Agrees ρ s.replacements → Fixes ρ c → e' = e.rename ρ
  | .literal _, _, _, _, _, h => by
    simp only [Traversal.expr, pure_eq_ok] at h
    obtain ⟨rfl, rfl⟩ := h
    exact ⟨rfl, fun _ _ _ => rfl⟩
  | .identifier i, _, hy, _, _, h => by
    simp only [Traversal.expr, bind_eq_ok, pure_eq_ok] at h
    obtain ⟨i', _, hi, rfl, rfl⟩ := h
    obtain ⟨rfl, hi'⟩ := use_variable hc hy.1 hi
    refine ⟨rfl, fun ρ hρ hfix => ?_⟩
    rw [hi' ρ hρ hfix]
    rfl
  | .call _ callee arguments, _, hy, _, _, h => by
    simp only [Traversal.expr, bind_eq_ok, pure_eq_ok] at h
    obtain ⟨callee', _, hcallee, arguments', _, harguments, rfl, rfl⟩ := h
    obtain ⟨rfl, hcallee'⟩ := use_function hy.1 rfl hcallee
    obtain ⟨rfl, harguments'⟩ := exprs_eq_ok hc arguments hy.2 harguments
    refine ⟨rfl, fun ρ hρ hfix => ?_⟩
    rw [hcallee' ρ hρ hfix, harguments' ρ hρ hfix]
    rfl
  | .instruction _ _ arguments, _, hy, _, _, h => by
    simp only [Traversal.expr, bind_eq_ok, pure_eq_ok] at h
    obtain ⟨arguments', _, harguments, rfl, rfl⟩ := h
    obtain ⟨rfl, harguments'⟩ := exprs_eq_ok hc arguments hy.2 harguments
    refine ⟨rfl, fun ρ hρ hfix => ?_⟩
    rw [harguments' ρ hρ hfix]
    rfl

theorem exprs_eq_ok {label : String} {s : State} {c : Context} (hc : Covers s c) :
    (es : List Expr) → Expr.AllSingle c es → {es' : List Expr} → {s' : State} →
    (traversal label).exprs es s = .ok es' s' →
    s = s' ∧ ∀ ρ, Agrees ρ s.replacements → Fixes ρ c → es' = Expr.allRename ρ es
  | [], _, _, _, h => by
    simp only [Traversal.exprs, pure_eq_ok] at h
    obtain ⟨rfl, rfl⟩ := h
    exact ⟨rfl, fun _ _ _ => rfl⟩
  | e :: es, hy, _, _, h => by
    simp only [Traversal.exprs, bind_eq_ok, pure_eq_ok] at h
    obtain ⟨e', _, he, es', _, hes, rfl, rfl⟩ := h
    obtain ⟨rfl, he'⟩ := expr_eq_ok hc e hy.1 he
    obtain ⟨rfl, hes'⟩ := exprs_eq_ok hc es hy.2 hes
    refine ⟨rfl, fun ρ hρ hfix => ?_⟩
    rw [he' ρ hρ hfix, hes' ρ hρ hfix]
    rfl

end

theorem uses_eq_ok (hc : Covers s c) {is is' : List Identifier}
    (hi : ∀ i ∈ is, c.Readable i.name) (h : (traversal label).uses is s = .ok is' s') :
    s = s' ∧ ∀ ρ, Agrees ρ s.replacements → Fixes ρ c → is' = is.map (Identifier.rename ρ) := by
  induction is generalizing is' s' with
  | nil =>
    simp only [Traversal.uses, pure_eq_ok] at h
    obtain ⟨rfl, rfl⟩ := h
    exact ⟨rfl, fun _ _ _ => rfl⟩
  | cons i is ih =>
    simp only [Traversal.uses, bind_eq_ok, pure_eq_ok] at h
    obtain ⟨i', _, hfirst, is', _, hothers, rfl, rfl⟩ := h
    rw [List.forall_mem_cons] at hi
    obtain ⟨rfl, hfirst'⟩ := use_variable hc hi.1 hfirst
    obtain ⟨rfl, hothers'⟩ := ih hi.2 hothers
    refine ⟨rfl, fun ρ hρ hfix => ?_⟩
    rw [hfirst' ρ hρ hfix, hothers' ρ hρ hfix]
    rfl

/-! ## The steps of the copying -/

theorem enterBlock_eq (label : String) (xs : List Stmt) :
    (traversal label).enterBlock xs = pure () := rfl

theorem leaveBlock_eq (label : String) : (traversal label).leaveBlock = pure () := rfl

theorem enterFunction_eq (label : String) (f : Signature) :
    (traversal label).enterFunction f = throw (.nestedFunction f) := rfl

theorem stackForm_eq (label : String) (form : StackForm) :
    (traversal label).stackForm form = throw (.unsupported form) := rfl

theorem declare_eq_ok {xs xs' : List Binder} (h : declare label xs s = .ok xs' s') :
    Renews label s s' (xs.map Binder.name) ∧
    ∀ ρ, Agrees ρ s'.replacements → xs' = xs.map (Binder.rename ρ) := by
  induction xs generalizing s xs' with
  | nil =>
    simp only [declare, pure_eq_ok] at h
    obtain ⟨rfl, rfl⟩ := h
    exact ⟨.refl label s, fun _ _ => rfl⟩
  | cons x xs ih =>
    simp only [declare, bind_eq_ok, get_eq_ok, set_eq_ok, pure_eq_ok] at h
    obtain ⟨_, _, ⟨rfl, rfl⟩, _, _, rfl, xs', _, hothers, rfl, rfl⟩ := h
    obtain ⟨hrenews, hxs⟩ := ih hothers
    have hfirst : Renews label s ⟨(s.supply.fresh (label ++ x.name)).2,
        (x.name, (s.supply.fresh (label ++ x.name)).1) :: s.replacements⟩ [x.name] :=
      ⟨rfl, rfl⟩
    refine ⟨hfirst.trans hrenews, fun ρ hρ => ?_⟩
    have hname : ρ x.name = (s.supply.fresh (label ++ x.name)).1 :=
      hrenews.agrees hρ (x.name, _) List.mem_cons_self
    rw [hxs ρ hρ, List.map_cons, ← hname]
    rfl

end

/-! ## Statements -/

/--
From `s` to `s'`, a part of a body was copied that binds the given names and has no functions and no
stack forms. What a renaming that agrees with the replacements makes of it is the copy.
-/
structure Copies (label : String) (c : Context) (s s' : State) (names : List String)
    (functions : List Function) (forms : List StackForm) (same : (String → String) → Prop) :
    Prop where
  renews : Renews label s s' names
  functions : functions = []
  stackForms : forms = []
  same : ∀ ρ, Agrees ρ s'.replacements → Fixes ρ c → same ρ

theorem Copies.of_use {label : String} {c : Context} {s : State} {same : (String → String) → Prop}
    (h : ∀ ρ, Agrees ρ s.replacements → Fixes ρ c → same ρ) : Copies label c s s [] [] [] same :=
  ⟨.refl label s, rfl, rfl, h⟩

namespace Copies

variable {label : String} {c c₁ : Context} {s s₁ s' : State} {names names₁ : List String}
  {functions functions₁ : List Function} {forms forms₁ : List StackForm}
  {same same₁ : (String → String) → Prop}

theorem imp (h : Copies label c s s' names functions forms same)
    (himp : ∀ ρ, Agrees ρ s.replacements → Fixes ρ c → same ρ → same₁ ρ) :
    Copies label c s s' names functions forms same₁ where
  renews := h.renews
  functions := h.functions
  stackForms := h.stackForms
  same ρ hρ hfix := himp ρ (h.renews.agrees hρ) hfix (h.same ρ hρ hfix)

theorem within (h : Copies label c₁ s s' names functions forms same)
    (hfix : ∀ ρ, Fixes ρ c → Fixes ρ c₁) : Copies label c s s' names functions forms same :=
  ⟨h.renews, h.functions, h.stackForms, fun ρ hρ hc => h.same ρ hρ (hfix ρ hc)⟩

theorem append (h : Copies label c s s₁ names functions forms same)
    (h₁ : Copies label c s₁ s' names₁ functions₁ forms₁ same₁) :
    Copies label c s s' (names ++ names₁) (functions ++ functions₁) (forms ++ forms₁)
      fun ρ => same ρ ∧ same₁ ρ where
  renews := h.renews.trans h₁.renews
  functions := by rw [h.functions, h₁.functions, List.append_nil]
  stackForms := by rw [h.stackForms, h₁.stackForms, List.append_nil]
  same ρ hρ hfix := ⟨h.same ρ (h₁.renews.agrees hρ) hfix, h₁.same ρ hρ hfix⟩

end Copies

section

variable {label : String} {s s' : State} {c : Context}

theorem Covers.enter (hc : Covers s c) (xs : List Stmt) : Covers s (c.enter xs) := by
  rw [c.enter_eq]
  exact hc

theorem declared_subset_otherNames (x : Stmt) : x.declared.map Binder.name ⊆ x.otherNames := by
  cases x with
  | declaration => exact List.Subset.refl _
  | _ => exact List.nil_subset _

theorem allDeclared_subset_otherNames (xs : List Stmt) :
    (xs.flatMap Stmt.declared).map Binder.name ⊆ Stmt.allOtherNames xs := by
  induction xs with
  | nil => exact List.nil_subset _
  | cons x xs ih =>
    rw [List.flatMap_cons, List.map_append]
    exact List.append_subset.2
      ⟨fun _ hy => List.mem_append_left _ (declared_subset_otherNames x hy),
        fun _ hy => List.mem_append_right _ (ih hy)⟩

theorem Renews.covers_declare {x : Stmt} (h : Renews label s s' x.otherNames) (hc : Covers s c) :
    Covers s' (c.declare x.declared) := by
  apply h.covers hc
  intro y hy
  rw [c.mem_vars_declare] at hy
  exact hy.imp_left (declared_subset_otherNames x ·)

theorem Renews.covers_after {xs : List Stmt}
    (h : Renews label s s' (Stmt.allOtherNames xs)) (hc : Covers s c) : Covers s' (c.after xs) := by
  apply h.covers hc
  intro y hy
  rw [c.mem_vars_after] at hy
  exact hy.imp_left (allDeclared_subset_otherNames xs ·)

theorem Renews.covers_same {names : List String} (h : Renews label s s' names)
    (hc : Covers s c) : Covers s' c :=
  h.covers hc fun _ => .inr

theorem Fixes.declare {ρ : String → String} (h : Fixes ρ c) (xs : List Binder) :
    Fixes ρ (c.declare xs) := by
  rw [c.declare_eq]
  exact ⟨h.external, h.functions⟩

theorem Fixes.after {ρ : String → String} (h : Fixes ρ c) (xs : List Stmt) :
    Fixes ρ (c.after xs) := by
  rw [c.after_eq]
  exact ⟨h.external, h.functions⟩

theorem Fixes.enter {ρ : String → String} (h : Fixes ρ c) {xs : List Stmt}
    (hf : Stmt.allFunctions xs = []) : Fixes ρ (c.enter xs) := by
  apply h.congr
  . rw [c.enter_eq]
  . exact c.functions_enter hf

theorem assignable_enter (hsub : c.assignable ⊆ c.external) (xs : List Stmt) :
    (c.enter xs).assignable ⊆ (c.enter xs).external := by
  rw [c.enter_eq]
  exact hsub

theorem assignable_after (hsub : c.assignable ⊆ c.external) (xs : List Stmt) :
    (c.after xs).assignable ⊆ (c.after xs).external := by
  rw [c.after_eq]
  exact hsub

theorem Copies.loop {s₁ s₂ : State} {pre pre' : List Stmt} {condition condition' : Expr}
    {post post' body body' : Block} (span preSpan : Span)
    (hpre : Copies label (c.enter pre) s s₁ (Stmt.allOtherNames pre) (Stmt.allFunctions pre)
      (Stmt.allStackForms pre) fun ρ => pre' = Stmt.allRename ρ pre)
    (hcondition : ∀ ρ, Agrees ρ s₁.replacements → Fixes ρ ((c.enter pre).after pre) →
      condition' = condition.rename ρ)
    (hpost : Copies label ((c.enter pre).after pre) s₁ s₂ post.otherNames post.functions
      post.stackForms fun ρ => post' = post.rename ρ)
    (hbody : Copies label ((c.enter pre).after pre) s₂ s' body.otherNames body.functions
      body.stackForms fun ρ => body' = body.rename ρ) :
    Copies label c s s' (Stmt.loop span ⟨preSpan, pre⟩ condition post body).otherNames
      (Stmt.loop span ⟨preSpan, pre⟩ condition post body).functions
      (Stmt.loop span ⟨preSpan, pre⟩ condition post body).stackForms
      fun ρ => .loop span ⟨preSpan, pre'⟩ condition' post' body' =
        (Stmt.loop span ⟨preSpan, pre⟩ condition post body).rename ρ := by
  have hfix (ρ) (hρ : Fixes ρ c) : Fixes ρ (c.enter pre) := hρ.enter hpre.functions
  have hfix₁ (ρ) (hρ : Fixes ρ c) : Fixes ρ ((c.enter pre).after pre) := (hfix ρ hρ).after pre
  -- The condition is read with the replacements that are there in front of the post block.
  have hpost₁ := hpost.imp fun ρ hρ hfix heq => And.intro (hcondition ρ hρ hfix) heq
  have hparts := ((hpre.within hfix).append (hpost₁.within hfix₁)).append (hbody.within hfix₁)
  refine hparts.imp fun ρ _ _ heq => ?_
  obtain ⟨⟨heq, heq₁, heq₂⟩, heq₃⟩ := heq
  rw [heq, heq₁, heq₂, heq₃]
  rfl

end

mutual

theorem stmt_eq_ok {label : String} {s : State} {c : Context} (hc : Covers s c)
    (hsub : c.assignable ⊆ c.external) : (x : Stmt) → x.Valid c → {x' : Stmt} →
    {s' : State} → (traversal label).stmt x s = .ok x' s' →
    Copies label c s s' x.otherNames x.functions x.stackForms fun ρ => x' = x.rename ρ
  | .expression e, hv, _, _, h => by
    simp only [Traversal.stmt, bind_eq_ok, pure_eq_ok] at h
    obtain ⟨e', _, he, rfl, rfl⟩ := h
    obtain ⟨rfl, he'⟩ := expr_eq_ok hc e hv he
    refine .of_use fun ρ hρ hfix => ?_
    rw [he' ρ hρ hfix]
    rfl
  | .declaration span vars none, _, _, _, h => by
    simp only [Traversal.stmt, Traversal.optionalExpr, bind_eq_ok, pure_eq_ok] at h
    obtain ⟨_, _, ⟨rfl, rfl⟩, vars', _, hvars, rfl, rfl⟩ := h
    obtain ⟨hrenews, hvars'⟩ := declare_eq_ok hvars
    refine ⟨hrenews, rfl, rfl, fun ρ hρ _ => ?_⟩
    rw [hvars' ρ hρ]
    rfl
  | .declaration span vars (some value), hv, _, _, h => by
    simp only [Traversal.stmt, Traversal.optionalExpr, bind_eq_ok, pure_eq_ok] at h
    obtain ⟨_, _, ⟨value', _, hvalue, rfl, rfl⟩, vars', _, hvars, rfl, rfl⟩ := h
    obtain ⟨rfl, hvalue'⟩ := expr_eq_ok hc value hv hvalue
    obtain ⟨hrenews, hvars'⟩ := declare_eq_ok hvars
    refine ⟨hrenews, rfl, rfl, fun ρ hρ hfix => ?_⟩
    rw [hvars' ρ hρ, hvalue' ρ (hrenews.agrees hρ) hfix]
    rfl
  | .assignment span targets value, hv, _, _, h => by
    simp only [Traversal.stmt, bind_eq_ok, pure_eq_ok] at h
    obtain ⟨targets', _, htargets, value', _, hvalue, rfl, rfl⟩ := h
    have hreadable : ∀ i ∈ targets, c.Readable i.name :=
      fun i hi => (hv.2.1 i hi).imp_right (hsub ·)
    obtain ⟨rfl, htargets'⟩ := uses_eq_ok hc hreadable htargets
    obtain ⟨rfl, hvalue'⟩ := expr_eq_ok hc value hv.1 hvalue
    refine .of_use fun ρ hρ hfix => ?_
    rw [htargets' ρ hρ hfix, hvalue' ρ hρ hfix]
    rfl
  | .conditional span condition body, hv, _, _, h => by
    simp only [Traversal.stmt, bind_eq_ok, pure_eq_ok] at h
    obtain ⟨condition', _, hcondition, body', _, hbody, rfl, rfl⟩ := h
    obtain ⟨rfl, hcondition'⟩ := expr_eq_ok hc condition hv.1 hcondition
    refine (block_eq_ok hc hsub body hv.2 hbody).imp fun ρ hρ hfix heq => ?_
    rw [hcondition' ρ hρ hfix, heq]
    rfl
  | .switch span subject arms, hv, _, _, h => by
    simp only [Traversal.stmt, bind_eq_ok, pure_eq_ok] at h
    obtain ⟨subject', _, hsubject, arms', _, harms, rfl, rfl⟩ := h
    obtain ⟨rfl, hsubject'⟩ := expr_eq_ok hc subject hv.1 hsubject
    refine (cases_eq_ok hc hsub arms hv.2.1 harms).imp fun ρ hρ hfix heq => ?_
    rw [hsubject' ρ hρ hfix, heq]
    rfl
  | .loop span ⟨preSpan, pre⟩ condition post body, hv, _, _, h => by
    simp only [Traversal.stmt, enterBlock_eq, leaveBlock_eq, bind_eq_ok, pure_eq_ok] at h
    obtain ⟨_, _, ⟨_, rfl⟩, pre', _, hpre, condition', _, hcondition, post', _, hpost, body', _,
      hbody, _, _, ⟨_, rfl⟩, rfl, rfl⟩ := h
    have hpre' := stmts_eq_ok (hc.enter pre) (assignable_enter hsub pre) pre hv.1 hpre
    have hc₁ := hpre'.renews.covers_after (hc.enter pre)
    have hsub₁ := assignable_after (assignable_enter hsub pre) pre
    obtain ⟨rfl, hcondition'⟩ := expr_eq_ok hc₁ condition hv.2.1 hcondition
    have hpost' := block_eq_ok hc₁ hsub₁ post hv.2.2.1 hpost
    have hbody' := block_eq_ok (hpost'.renews.covers_same hc₁) hsub₁ body hv.2.2.2 hbody
    exact .loop span preSpan hpre' hcondition' hpost' hbody'
  | .function ⟨f, body⟩, _, _, _, h => by
    simp only [Traversal.stmt, enterFunction_eq, bind_eq_ok] at h
    -- The body of a function that is to be copied has no functions.
    obtain ⟨_, _, hthrow, _⟩ := h
    exact (throw_ne_ok hthrow).elim
  | .block b, hv, _, _, h => by
    simp only [Traversal.stmt, bind_eq_ok, pure_eq_ok] at h
    obtain ⟨b', _, hb, rfl, rfl⟩ := h
    refine (block_eq_ok hc hsub b hv hb).imp fun ρ _ _ heq => ?_
    rw [heq]
    rfl
  | .stack form, _, _, _, h => by
    simp only [Traversal.stmt, stackForm_eq, bind_eq_ok] at h
    obtain ⟨_, _, hthrow, _⟩ := h
    exact (throw_ne_ok hthrow).elim

theorem stmts_eq_ok {label : String} {s : State} {c : Context} (hc : Covers s c)
    (hsub : c.assignable ⊆ c.external) : (xs : List Stmt) → Stmt.AllValid c xs →
    {xs' : List Stmt} → {s' : State} → (traversal label).stmts xs s = .ok xs' s' →
    Copies label c s s' (Stmt.allOtherNames xs) (Stmt.allFunctions xs) (Stmt.allStackForms xs)
      fun ρ => xs' = Stmt.allRename ρ xs
  | [], _, _, _, h => by
    simp only [Traversal.stmts, pure_eq_ok] at h
    obtain ⟨rfl, rfl⟩ := h
    exact .of_use fun _ _ _ => rfl
  | x :: xs, hv, _, _, h => by
    simp only [Traversal.stmts, bind_eq_ok, pure_eq_ok] at h
    obtain ⟨x', _, hx, xs', _, hxs, rfl, rfl⟩ := h
    have hcopies := stmt_eq_ok hc hsub x hv.1 hx
    have hsub₁ : (c.declare x.declared).assignable ⊆ (c.declare x.declared).external :=
      assignable_after hsub [x]
    have hcopies₁ := stmts_eq_ok (hcopies.renews.covers_declare hc) hsub₁ xs hv.2 hxs
    have hparts := hcopies.append (hcopies₁.within fun _ hfix => hfix.declare x.declared)
    refine hparts.imp fun ρ _ _ heq => ?_
    rw [heq.1, heq.2]
    rfl

theorem block_eq_ok {label : String} {s : State} {c : Context} (hc : Covers s c)
    (hsub : c.assignable ⊆ c.external) : (b : Block) → b.Valid c → {b' : Block} →
    {s' : State} → (traversal label).block b s = .ok b' s' →
    Copies label c s s' b.otherNames b.functions b.stackForms fun ρ => b' = b.rename ρ
  | ⟨_, xs⟩, hv, _, _, h => by
    simp only [Traversal.block, enterBlock_eq, leaveBlock_eq, bind_eq_ok, pure_eq_ok] at h
    obtain ⟨_, _, ⟨_, rfl⟩, xs', _, hxs, _, _, ⟨_, rfl⟩, rfl, rfl⟩ := h
    have hcopies := stmts_eq_ok (hc.enter xs) (assignable_enter hsub xs) xs hv hxs
    refine (hcopies.within fun _ hfix => hfix.enter hcopies.functions).imp fun ρ _ _ heq => ?_
    rw [heq]
    rfl

theorem cases_eq_ok {label : String} {s : State} {c : Context} (hc : Covers s c)
    (hsub : c.assignable ⊆ c.external) : (cs : List Case) → Case.AllValid c cs →
    {cs' : List Case} → {s' : State} → (traversal label).cases cs s = .ok cs' s' →
    Copies label c s s' (Case.allOtherNames cs) (Case.allFunctions cs) (Case.allStackForms cs)
      fun ρ => cs' = Case.allRename ρ cs
  | [], _, _, _, h => by
    simp only [Traversal.cases, pure_eq_ok] at h
    obtain ⟨rfl, rfl⟩ := h
    exact .of_use fun _ _ _ => rfl
  | ⟨span, value, body⟩ :: cs, hv, _, _, h => by
    simp only [Traversal.cases, bind_eq_ok, pure_eq_ok] at h
    obtain ⟨body', _, hbody, cs', _, hcs, rfl, rfl⟩ := h
    have hcopies := block_eq_ok hc hsub body hv.1 hbody
    have hcopies₁ := cases_eq_ok (hcopies.renews.covers_same hc) hsub cs hv.2 hcs
    refine (hcopies.append hcopies₁).imp fun ρ _ _ heq => ?_
    rw [heq.1, heq.2]
    rfl

end

/-! ## The renaming -/

theorem agrees_lookup {replacements : List (String × String)}
    (h : (replacements.map Prod.fst).Nodup) :
    Agrees (fun x => (replacements.lookup x).getD x) replacements := by
  intro r hr
  obtain ⟨as, bs, rfl⟩ := List.append_of_mem hr
  rw [List.map_append, List.nodup_append] at h
  have hlookup : (as ++ r :: bs).lookup r.1 = some r.2 := by
    rw [List.lookup_eq_some_iff]
    refine ⟨as, bs, rfl, fun a ha => ?_⟩
    rw [bne_iff_ne]
    exact (h.2.2 a.1 (List.mem_map.2 ⟨a, ha, rfl⟩) r.1 List.mem_cons_self).symm
  dsimp only
  rw [hlookup]
  rfl

end BodyCopy

open BodyCopy

theorem copyBody_eq_ok {label : String} {replacements : List (String × String)}
    {body body' : Block} {supply supply' : Supply} {c : Context} (hv : body.Valid c)
    (hsub : c.assignable ⊆ c.external) (hvars : c.vars ⊆ replacements.map Prod.fst)
    (hn : (replacements.map Prod.fst ++ body.otherNames).Nodup)
    (hexternal : ∀ x ∈ c.external, x ∉ replacements.map Prod.fst ++ body.otherNames)
    (hfunctions : ∀ f ∈ c.functions, f.name ∉ replacements.map Prod.fst ++ body.otherNames)
    (h : copyBody label replacements body supply = .ok body' supply') :
    body.functions = [] ∧ body.stackForms = [] ∧ ∃ ρ : String → String, body' = body.rename ρ ∧
      Agrees ρ replacements ∧
      (∀ x, x ∉ replacements.map Prod.fst ++ body.otherNames → ρ x = x) ∧
      body.boundNames.map ρ = supply.freshNames (body.boundNames.map (label ++ ·)) ∧
      supply' = supply.afterFresh (body.boundNames.map (label ++ ·)) := by
  unfold copyBody at h
  cases hrun : (traversal label).block body ⟨supply, replacements⟩ with
  | error e s =>
    rw [hrun] at h
    cases h
  | ok b s =>
    rw [hrun] at h
    cases h
    have hcovers : Covers ⟨supply, replacements⟩ c := hvars
    have hcopies := block_eq_ok hcovers hsub body hv hrun
    have hrenews := hcopies.renews
    -- The renaming is the list of replacements that the copying ended with. No name is in it twice,
    -- so that the ones that were given are still found.
    have hkeys : (s.replacements.map Prod.fst).Perm
        (replacements.map Prod.fst ++ body.otherNames) := by
      rw [hrenews.map_fst]
      exact ((List.reverse_perm _).append_right _).trans List.perm_append_comm
    have hagrees := agrees_lookup (hkeys.nodup_iff.2 hn)
    have hother : ∀ x, x ∉ replacements.map Prod.fst ++ body.otherNames →
        (s.replacements.lookup x).getD x = x := by
      intro x hx
      have hnone : s.replacements.lookup x = none := by
        rw [List.lookup_eq_none_iff]
        intro r hr
        rw [bne_iff_ne]
        rintro rfl
        exact hx (hkeys.mem_iff.1 (List.mem_map.2 ⟨r, hr, rfl⟩))
      rw [hnone]
      rfl
    have hfix : Fixes (fun x => (s.replacements.lookup x).getD x) c :=
      ⟨fun x hx => hother x (hexternal x hx), fun f hf => hother f.name (hfunctions f hf)⟩
    rw [body.boundNames_of_functions hcopies.functions]
    exact ⟨hcopies.functions, hcopies.stackForms, _, hcopies.same _ hagrees hfix,
      hrenews.agrees hagrees, hother, hrenews.map_eq hagrees, hrenews.supply⟩

end Splice
