import Splice.Proofs.Analysis.Rules
import Splice.Proofs.Tree.Parts

/-!
This module contains how the rules depend on what is visible: uses stay right where more is visible,
and declarations are right where all names differ.
-/

namespace Splice

namespace Context

variable {c c' : Context}

/-! ## What is visible -/

section

variable (c : Context)

theorem mem_vars_declare {x : String} (xs : List Binder) :
    x ∈ (c.declare xs).vars ↔ x ∈ xs.map Binder.name ∨ x ∈ c.vars := by
  induction xs generalizing c with
  | nil => simp [declare]
  | cons y ys ih =>
    simp only [declare, ih, addVariable, List.map_cons, List.mem_cons]
    grind

theorem declare_append (xs ys : List Binder) :
    c.declare (xs ++ ys) = (c.declare xs).declare ys := by
  induction xs generalizing c with
  | nil => rfl
  | cons x xs ih => exact ih (c.addVariable x.name)

theorem allDeclarable_append {xs ys : List Binder} :
    c.AllDeclarable (xs ++ ys) ↔ c.AllDeclarable xs ∧ (c.declare xs).AllDeclarable ys := by
  induction xs generalizing c with
  | nil => simp [AllDeclarable, declare]
  | cons x xs ih =>
    simp only [List.cons_append, AllDeclarable, declare, ih, and_assoc]

theorem declare_eq (xs : List Binder) :
    c.declare xs = { c with vars := (c.declare xs).vars } := by
  induction xs generalizing c with
  | nil => rfl
  | cons y ys ih =>
    unfold declare
    rw [ih]
    rfl

theorem after_eq_declare (ss : List Stmt) : c.after ss = c.declare (ss.flatMap Stmt.declared) := by
  induction ss generalizing c with
  | nil => rfl
  | cons s ss ih => rw [after, ih, List.flatMap_cons, declare_append]

theorem after_eq (ss : List Stmt) :
    c.after ss = { c with vars := (c.after ss).vars } := by
  rw [after_eq_declare, declare_eq]

theorem mem_vars_after {x : String} (ss : List Stmt) :
    x ∈ (c.after ss).vars ↔
      x ∈ (ss.flatMap Stmt.declared).map Binder.name ∨ x ∈ c.vars := by
  rw [after_eq_declare, mem_vars_declare]

theorem functions_declare (xs : List Binder) : (c.declare xs).functions = c.functions := by
  rw [declare_eq]

theorem functions_after (ss : List Stmt) : (c.after ss).functions = c.functions := by
  rw [after_eq]

theorem after_append (ss ts : List Stmt) : c.after (ss ++ ts) = (c.after ss).after ts := by
  induction ss generalizing c with
  | nil => rfl
  | cons s ss ih => exact ih (c.declare s.declared)

theorem announce_eq (s : Stmt) :
    c.announce s =
      { c with functions := (c.announce s).functions, labels := (c.announce s).labels } := by
  unfold announce
  split <;> rfl

theorem enter_append (ss ts : List Stmt) : c.enter (ss ++ ts) = (c.enter ss).enter ts := by
  induction ss generalizing c with
  | nil => rfl
  | cons s ss ih => exact ih (c.announce s)

theorem enter_eq (ss : List Stmt) :
    c.enter ss = { c with functions := (c.enter ss).functions, labels := (c.enter ss).labels } := by
  induction ss generalizing c with
  | nil => rfl
  | cons s ss ih =>
    unfold enter
    rw [ih, announce_eq]

theorem vars_subset_after_enter (ss : List Stmt) : c.vars ⊆ ((c.enter ss).after ss).vars := by
  intro x hx
  rw [mem_vars_after, enter_eq]
  exact .inr hx

end

/-! ## More is visible -/

/--
All that is visible in `c` is visible in `c'`, and the same forms are allowed.
-/
structure Extends (c c' : Context) : Prop where
  external : c.external ⊆ c'.external
  assignable : c.assignable ⊆ c'.assignable
  stackForms : c.stackForms = true → c'.stackForms = true
  targetless : c.targetless = true → c'.targetless = true
  vars : c.vars ⊆ c'.vars
  functions : c.functions ⊆ c'.functions

namespace Extends

theorem refl (c : Context) : c.Extends c :=
  ⟨List.Subset.refl _, List.Subset.refl _, id, id, List.Subset.refl _, List.Subset.refl _⟩

theorem readable (h : c.Extends c') {x : String} (hx : c.Readable x) : c'.Readable x :=
  hx.imp (h.vars ·) (h.external ·)

theorem assigns (h : c.Extends c') {x : String} (hx : c.Assignable x) : c'.Assignable x :=
  hx.imp (h.vars ·) (h.assignable ·)

theorem declare (h : c.Extends c') (xs : List Binder) : (c.declare xs).Extends (c'.declare xs) := by
  induction xs generalizing c c' with
  | nil => exact h
  | cons x xs ih =>
    apply ih
    exact ⟨h.external, h.assignable, h.stackForms, h.targetless,
      List.cons_subset_cons _ h.vars, h.functions⟩

theorem enterFunction (h : c.Extends c') (xs : List Binder) :
    (c.enterFunction xs).Extends (c'.enterFunction xs) := by
  apply declare
  exact ⟨h.external, h.assignable, h.stackForms, h.targetless, List.Subset.refl _, h.functions⟩

theorem announce (h : c.Extends c') (s : Stmt) : (c.announce s).Extends (c'.announce s) := by
  unfold Context.announce
  split
  . exact ⟨h.external, h.assignable, h.stackForms, h.targetless, h.vars,
      List.cons_subset_cons _ h.functions⟩
  . exact ⟨h.external, h.assignable, h.stackForms, h.targetless, h.vars, h.functions⟩
  . exact h

theorem enter (h : c.Extends c') (ss : List Stmt) : (c.enter ss).Extends (c'.enter ss) := by
  induction ss generalizing c c' with
  | nil => exact h
  | cons s ss ih => exact ih (h.announce s)

theorem after (h : c.Extends c') (ss : List Stmt) : (c.after ss).Extends (c'.after ss) := by
  induction ss generalizing c c' with
  | nil => exact h
  | cons s ss ih => exact ih (h.declare s.declared)

theorem trans {c'' : Context} (h : c.Extends c') (h' : c'.Extends c'') : c.Extends c'' where
  external := List.Subset.trans h.external h'.external
  assignable := List.Subset.trans h.assignable h'.assignable
  stackForms := h'.stackForms ∘ h.stackForms
  targetless := h'.targetless ∘ h.targetless
  vars := List.Subset.trans h.vars h'.vars
  functions := List.Subset.trans h.functions h'.functions

theorem behind (h : c.Extends c') (ss : List Stmt) : c.Extends (c'.after ss) := by
  apply h.trans
  rw [c'.after_eq]
  exact ⟨List.Subset.refl _, List.Subset.refl _, id, id,
    fun x hx => (c'.mem_vars_after ss).2 (.inr hx), List.Subset.refl _⟩

end Extends
end Context

mutual

theorem Expr.Yields.mono {c c' : Context} (h : c.Extends c') :
    (e : Expr) → {n : Nat} → e.Yields c n → e.Yields c' n
  | .literal _, _, hy => hy
  | .identifier _, _, hy => ⟨h.readable hy.1, hy.2⟩
  | .call _ _ arguments, _, hy => ⟨h.functions hy.1, Expr.AllSingle.mono h arguments hy.2⟩
  | .instruction _ _ arguments, _, hy => ⟨hy.1, Expr.AllSingle.mono h arguments hy.2⟩

theorem Expr.AllSingle.mono {c c' : Context} (h : c.Extends c') :
    (es : List Expr) → Expr.AllSingle c es → Expr.AllSingle c' es
  | [], _ => trivial
  | e :: es, hy => ⟨Expr.Yields.mono h e hy.1, Expr.AllSingle.mono h es hy.2⟩

end

theorem StackForm.Valid.mono {c c' : Context} (h : c.Extends c') :
    {form : StackForm} → form.Valid c → form.Valid c'
  | .label .., _ => trivial
  | .assignment .., hv => h.assigns hv
  | .instruction .., hv => hv

mutual

theorem Stmt.Valid.mono {c c' : Context} (h : c.Extends c') : (s : Stmt) → s.Valid c → s.Valid c'
  | .expression e, hv => Expr.Yields.mono h e hv
  | .declaration _ _ none, _ => trivial
  | .declaration _ _ (some value), hv => Expr.Yields.mono h value hv
  | .assignment _ _ value, hv =>
    ⟨Expr.Yields.mono h value hv.1, fun i hi => h.assigns (hv.2.1 i hi),
      fun hempty => h.targetless (hv.2.2 hempty)⟩
  | .conditional _ condition body, hv =>
    ⟨Expr.Yields.mono h condition hv.1, Block.Valid.mono h body hv.2⟩
  | .switch _ subject arms, hv =>
    ⟨Expr.Yields.mono h subject hv.1, Case.AllValid.mono h arms hv.2.1, hv.2.2⟩
  | .loop _ ⟨_, pre⟩ condition post body, hv =>
    have hafter := (h.enter pre).after pre
    ⟨Stmt.AllValid.mono (h.enter pre) pre hv.1, Expr.Yields.mono hafter condition hv.2.1,
      Block.Valid.mono hafter post hv.2.2.1, Block.Valid.mono hafter body hv.2.2.2⟩
  | .function ⟨_, body⟩, hv => Block.Valid.mono (h.enterFunction _) body hv
  | .block b, hv => Block.Valid.mono h b hv
  | .stack _, hv => ⟨h.stackForms hv.1, hv.2.mono h⟩

theorem Stmt.AllValid.mono {c c' : Context} (h : c.Extends c') :
    (ss : List Stmt) → Stmt.AllValid c ss → Stmt.AllValid c' ss
  | [], _ => trivial
  | s :: ss, hv => ⟨Stmt.Valid.mono h s hv.1, Stmt.AllValid.mono (h.declare _) ss hv.2⟩

theorem Block.Valid.mono {c c' : Context} (h : c.Extends c') :
    (b : Block) → b.Valid c → b.Valid c'
  | ⟨_, ss⟩, hv => Stmt.AllValid.mono (h.enter ss) ss hv

theorem Case.AllValid.mono {c c' : Context} (h : c.Extends c') :
    (cs : List Case) → Case.AllValid c cs → Case.AllValid c' cs
  | [], _ => trivial
  | ⟨_, _, body⟩ :: cs, hv => ⟨Block.Valid.mono h body hv.1, Case.AllValid.mono h cs hv.2⟩

end

theorem Stmt.allValid_append {c : Context} {ss ts : List Stmt} :
    Stmt.AllValid c (ss ++ ts) ↔ Stmt.AllValid c ss ∧ Stmt.AllValid (c.after ss) ts := by
  induction ss generalizing c with
  | nil => exact ⟨fun h => ⟨trivial, h⟩, And.right⟩
  | cons s ss ih =>
    change s.Valid c ∧ Stmt.AllValid (c.declare s.declared) (ss ++ ts) ↔
      (s.Valid c ∧ Stmt.AllValid (c.declare s.declared) ss) ∧ _
    rw [ih, and_assoc]
    rfl

/-! ## Fewer forms -/

namespace Context

variable (c : Context) (assignable : List String)

def restrict : Context :=
  { c with assignable := assignable, stackForms := false, targetless := false }

def Permits (assignments : List (List Identifier)) : Prop :=
  ∀ targets ∈ assignments, targets ≠ [] ∧
    ∀ i ∈ targets, i.name ∈ c.assignable → i.name ∈ assignable

theorem permits_append {a b : List (List Identifier)} :
    c.Permits assignable (a ++ b) ↔ c.Permits assignable a ∧ c.Permits assignable b :=
  List.forall_mem_append

theorem restrict_declare (xs : List Binder) :
    (c.restrict assignable).declare xs = (c.declare xs).restrict assignable := by
  induction xs generalizing c with
  | nil => rfl
  | cons x xs ih => exact ih (c.addVariable x.name)

theorem restrict_enterFunction (xs : List Binder) :
    (c.restrict assignable).enterFunction xs = (c.enterFunction xs).restrict assignable :=
  restrict_declare { c with vars := [] } assignable xs

theorem restrict_announce (s : Stmt) :
    (c.restrict assignable).announce s = (c.announce s).restrict assignable := by
  unfold announce
  split <;> rfl

theorem restrict_enter (ss : List Stmt) :
    (c.restrict assignable).enter ss = (c.enter ss).restrict assignable := by
  induction ss generalizing c with
  | nil => rfl
  | cons s ss ih =>
    unfold enter
    rw [restrict_announce, ih]

theorem restrict_after (ss : List Stmt) :
    (c.restrict assignable).after ss = (c.after ss).restrict assignable := by
  induction ss generalizing c with
  | nil => rfl
  | cons s ss ih =>
    unfold after
    rw [restrict_declare, ih]

theorem permits_congr {c' : Context} (h : c'.assignable = c.assignable)
    {assignments : List (List Identifier)} :
    c'.Permits assignable assignments ↔ c.Permits assignable assignments := by
  unfold Permits
  rw [h]

theorem assignable_declare (xs : List Binder) : (c.declare xs).assignable = c.assignable := by
  rw [declare_eq]

theorem assignable_enterFunction (xs : List Binder) :
    (c.enterFunction xs).assignable = c.assignable := by
  unfold enterFunction
  rw [declare_eq]

theorem assignable_enter (ss : List Stmt) : (c.enter ss).assignable = c.assignable := by
  rw [enter_eq]

theorem assignable_after (ss : List Stmt) : (c.after ss).assignable = c.assignable := by
  rw [after_eq]

end Context

mutual

theorem Expr.Yields.restrict {c : Context} {assignable : List String} :
    (e : Expr) → {n : Nat} → e.Yields c n → e.Yields (c.restrict assignable) n
  | .literal _, _, hy => hy
  | .identifier _, _, hy => hy
  | .call _ _ arguments, _, hy => ⟨hy.1, Expr.AllSingle.restrict arguments hy.2⟩
  | .instruction _ _ arguments, _, hy => ⟨hy.1, Expr.AllSingle.restrict arguments hy.2⟩

theorem Expr.AllSingle.restrict {c : Context} {assignable : List String} :
    (es : List Expr) → Expr.AllSingle c es → Expr.AllSingle (c.restrict assignable) es
  | [], _ => trivial
  | e :: es, hy => ⟨Expr.Yields.restrict e hy.1, Expr.AllSingle.restrict es hy.2⟩

end

mutual

theorem Stmt.Valid.restrict {c : Context} {assignable : List String} :
    (s : Stmt) → s.stackForms = [] → c.Permits assignable s.assignments → s.Valid c →
      s.Valid (c.restrict assignable)
  | .expression e, _, _, hv => Expr.Yields.restrict e hv
  | .declaration _ _ none, _, _, _ => trivial
  | .declaration _ _ (some value), _, _, hv => Expr.Yields.restrict value hv
  | .assignment _ targets value, _, ha, hv => by
    obtain ⟨hne, ha⟩ := ha targets (List.mem_singleton.2 rfl)
    refine ⟨Expr.Yields.restrict value hv.1, ?_, fun hempty => (hne hempty).elim⟩
    intro i hi
    exact (hv.2.1 i hi).imp_right (ha i hi)
  | .conditional _ condition body, hf, ha, hv =>
    ⟨Expr.Yields.restrict condition hv.1, Block.Valid.restrict body hf ha hv.2⟩
  | .switch _ subject arms, hf, ha, hv =>
    ⟨Expr.Yields.restrict subject hv.1, Case.AllValid.restrict arms hf ha hv.2.1, hv.2.2⟩
  | .loop _ ⟨_, pre⟩ condition post body, hf, ha, hv => by
    unfold Stmt.Valid at hv ⊢
    unfold Stmt.stackForms at hf
    unfold Stmt.assignments at ha
    rw [List.append_eq_nil_iff, List.append_eq_nil_iff] at hf
    rw [Context.permits_append, Context.permits_append] at ha
    have hin : ((c.enter pre).after pre).assignable = c.assignable := by
      rw [Context.assignable_after, Context.assignable_enter]
    rw [Context.restrict_enter, Context.restrict_after]
    refine ⟨?_, ?_, ?_, ?_⟩
    . apply Stmt.AllValid.restrict pre hf.1.1 _ hv.1
      exact (Context.permits_congr _ _ (Context.assignable_enter ..)).2 ha.1.1
    . exact Expr.Yields.restrict condition hv.2.1
    . apply Block.Valid.restrict post hf.1.2 _ hv.2.2.1
      exact (Context.permits_congr _ _ hin).2 ha.1.2
    . apply Block.Valid.restrict body hf.2 _ hv.2.2.2
      exact (Context.permits_congr _ _ hin).2 ha.2
  | .function ⟨f, body⟩, hf, ha, hv => by
    unfold Stmt.Valid at hv ⊢
    rw [Context.restrict_enterFunction]
    apply Block.Valid.restrict body hf _ hv
    exact (Context.permits_congr _ _ (Context.assignable_enterFunction ..)).2 ha
  | .block b, hf, ha, hv => Block.Valid.restrict b hf ha hv

theorem Stmt.AllValid.restrict {c : Context} {assignable : List String} :
    (ss : List Stmt) → Stmt.allStackForms ss = [] → c.Permits assignable (Stmt.allAssignments ss) →
      Stmt.AllValid c ss → Stmt.AllValid (c.restrict assignable) ss
  | [], _, _, _ => trivial
  | s :: ss, hf, ha, hv => by
    unfold Stmt.AllValid at hv ⊢
    unfold Stmt.allStackForms at hf
    unfold Stmt.allAssignments at ha
    rw [List.append_eq_nil_iff] at hf
    rw [Context.permits_append] at ha
    rw [Context.restrict_declare]
    refine ⟨Stmt.Valid.restrict s hf.1 ha.1 hv.1, Stmt.AllValid.restrict ss hf.2 ?_ hv.2⟩
    exact (Context.permits_congr _ _ (Context.assignable_declare ..)).2 ha.2

theorem Block.Valid.restrict {c : Context} {assignable : List String} :
    (b : Block) → b.stackForms = [] → c.Permits assignable b.assignments → b.Valid c →
      b.Valid (c.restrict assignable)
  | ⟨_, ss⟩, hf, ha, hv => by
    unfold Block.Valid at hv ⊢
    rw [Context.restrict_enter]
    apply Stmt.AllValid.restrict ss hf _ hv
    exact (Context.permits_congr _ _ (Context.assignable_enter ..)).2 ha

theorem Case.AllValid.restrict {c : Context} {assignable : List String} :
    (cs : List Case) → Case.allStackForms cs = [] → c.Permits assignable (Case.allAssignments cs) →
      Case.AllValid c cs → Case.AllValid (c.restrict assignable) cs
  | [], _, _, _ => trivial
  | ⟨_, _, body⟩ :: cs, hf, ha, hv => by
    unfold Case.allStackForms at hf
    unfold Case.allAssignments at ha
    rw [List.append_eq_nil_iff] at hf
    rw [Context.permits_append] at ha
    exact ⟨Block.Valid.restrict body hf.1 ha.1 hv.1, Case.AllValid.restrict cs hf.2 ha.2 hv.2⟩

end

namespace Context

theorem AllDeclarable.restrict {c : Context} {assignable : List String} {xs : List Binder}
    (h : c.AllDeclarable xs) : (c.restrict assignable).AllDeclarable xs := by
  induction xs generalizing c with
  | nil => trivial
  | cons x xs ih => exact ⟨h.1, ih h.2⟩

theorem CanEnter.restrict {c : Context} {assignable : List String} {ss : List Stmt}
    (h : c.CanEnter ss) : (c.restrict assignable).CanEnter ss := by
  induction ss generalizing c with
  | nil => trivial
  | cons s ss ih =>
    refine ⟨h.1, ?_⟩
    rw [restrict_announce]
    exact ih h.2

end Context

mutual

theorem Stmt.DeclaresNew.restrict {c : Context} {assignable : List String} :
    (s : Stmt) → s.DeclaresNew c → s.DeclaresNew (c.restrict assignable)
  | .expression _, _ => trivial
  | .declaration .., hd => Context.AllDeclarable.restrict hd
  | .assignment .., _ => trivial
  | .conditional _ _ body, hd => Block.DeclaresNew.restrict body hd
  | .switch _ _ arms, hd => Case.AllDeclareNew.restrict arms hd
  | .loop _ ⟨_, pre⟩ _ post body, hd => by
    unfold Stmt.DeclaresNew at hd ⊢
    rw [Context.restrict_enter, Context.restrict_after]
    exact ⟨hd.1.restrict, Stmt.AllDeclareNew.restrict pre hd.2.1,
      Block.DeclaresNew.restrict post hd.2.2.1, Block.DeclaresNew.restrict body hd.2.2.2⟩
  | .function ⟨f, body⟩, hd => by
    unfold Stmt.DeclaresNew at hd ⊢
    rw [Context.restrict_enterFunction]
    exact ⟨hd.1.restrict, Block.DeclaresNew.restrict body hd.2⟩
  | .block b, hd => Block.DeclaresNew.restrict b hd
  | .stack _, _ => trivial

theorem Stmt.AllDeclareNew.restrict {c : Context} {assignable : List String} :
    (ss : List Stmt) → Stmt.AllDeclareNew c ss → Stmt.AllDeclareNew (c.restrict assignable) ss
  | [], _ => trivial
  | s :: ss, hd => by
    unfold Stmt.AllDeclareNew at hd ⊢
    rw [Context.restrict_declare]
    exact ⟨Stmt.DeclaresNew.restrict s hd.1, Stmt.AllDeclareNew.restrict ss hd.2⟩

theorem Block.DeclaresNew.restrict {c : Context} {assignable : List String} :
    (b : Block) → b.DeclaresNew c → b.DeclaresNew (c.restrict assignable)
  | ⟨_, ss⟩, hd => by
    unfold Block.DeclaresNew at hd ⊢
    rw [Context.restrict_enter]
    exact ⟨hd.1.restrict, Stmt.AllDeclareNew.restrict ss hd.2⟩

theorem Case.AllDeclareNew.restrict {c : Context} {assignable : List String} :
    (cs : List Case) → Case.AllDeclareNew c cs → Case.AllDeclareNew (c.restrict assignable) cs
  | [], _ => trivial
  | ⟨_, _, body⟩ :: cs, hd =>
    ⟨Block.DeclaresNew.restrict body hd.1, Case.AllDeclareNew.restrict cs hd.2⟩

end

end Splice
