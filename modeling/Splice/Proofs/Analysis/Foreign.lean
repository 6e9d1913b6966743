import Splice.Proofs.Analysis.Unique

/-!
This module contains what the rules on declarations say of all names that a program binds: none of
them is a name of the host, and what a block makes visible in all of it has different names.
-/

namespace Splice

namespace Context

variable {c : Context}

theorem AllDeclarable.declarable {xs : List Binder} (h : c.AllDeclarable xs) :
    ∀ x ∈ xs.map Binder.name, c.Declarable x := by
  induction xs generalizing c with
  | nil => exact List.forall_mem_nil _
  | cons x xs ih =>
    rw [List.map_cons, List.forall_mem_cons]
    exact ⟨h.1, fun y hy => ((c.declarable_declare [x]).1 (ih h.2 y hy)).1⟩

theorem CanAnnounce.declarable {s : Stmt} (h : c.CanAnnounce s) :
    ∀ x ∈ s.announced, c.Declarable x := by
  unfold Stmt.announced
  split
  . exact List.forall_mem_singleton.2 h
  . exact List.forall_mem_singleton.2 h
  . exact List.forall_mem_nil _

theorem CanEnter.declarable {ss : List Stmt} (h : c.CanEnter ss) :
    ∀ x ∈ ss.flatMap Stmt.announced, c.Declarable x := by
  induction ss generalizing c with
  | nil => exact List.forall_mem_nil _
  | cons s ss ih =>
    rw [List.flatMap_cons, List.forall_mem_append]
    exact ⟨h.1.declarable, fun x hx => ((c.declarable_announce s).1 (ih h.2 x hx)).1⟩

theorem CanEnter.nodup {ss : List Stmt} (h : c.CanEnter ss) :
    (ss.flatMap Stmt.announced).Nodup := by
  induction ss generalizing c with
  | nil => exact .nil
  | cons s ss ih =>
    rw [List.flatMap_cons, List.nodup_append]
    have hone : s.announced.Nodup := by
      unfold Stmt.announced
      split <;> simp
    refine ⟨hone, ih h.2, ?_⟩
    rintro x hx _ hmem rfl
    exact ((c.declarable_announce s).1 (h.2.declarable x hmem)).2 hx

end Context

mutual

theorem Stmt.DeclaresNew.foreign {c : Context} : (s : Stmt) → s.DeclaresNew c →
    ∀ x ∈ s.innerNames, x ∉ c.external
  | .expression _, _ => List.forall_mem_nil _
  | .declaration _ _ _, h => fun x hx => (h.declarable x hx).2.2.2.1
  | .assignment .., _ => List.forall_mem_nil _
  | .conditional _ _ body, h => Block.DeclaresNew.foreign body h
  | .switch _ _ arms, h => Case.AllDeclareNew.foreign arms h
  | .loop _ ⟨span, pre⟩ _ post body, h => by
    have hpre := Block.DeclaresNew.foreign ⟨span, pre⟩ ⟨h.1, h.2.1⟩
    have hpost := Block.DeclaresNew.foreign post h.2.2.1
    have hbody := Block.DeclaresNew.foreign body h.2.2.2
    rw [Context.after_eq, Context.enter_eq] at hpost hbody
    exact List.forall_mem_append.2 ⟨List.forall_mem_append.2 ⟨hpre, hpost⟩, hbody⟩
  | .function ⟨f, body⟩, h => by
    have hvars := h.1.declarable
    have hbody := Block.DeclaresNew.foreign body h.2
    unfold Context.enterFunction at hbody
    rw [Context.declare_eq] at hbody
    simp only [Stmt.innerNames, ← List.map_append]
    exact List.forall_mem_append.2 ⟨fun x hx => (hvars x hx).2.2.2.1, hbody⟩
  | .block b, h => Block.DeclaresNew.foreign b h
  | .stack _, _ => List.forall_mem_nil _

theorem Stmt.AllDeclareNew.foreign {c : Context} : (ss : List Stmt) → Stmt.AllDeclareNew c ss →
    ∀ x ∈ ss.flatMap Stmt.innerNames, x ∉ c.external
  | [], _ => List.forall_mem_nil _
  | s :: ss, h => by
    have hrest := Stmt.AllDeclareNew.foreign ss h.2
    rw [Context.declare_eq] at hrest
    rw [List.flatMap_cons]
    exact List.forall_mem_append.2 ⟨Stmt.DeclaresNew.foreign s h.1, hrest⟩

theorem Block.DeclaresNew.foreign {c : Context} : (b : Block) → b.DeclaresNew c →
    ∀ x ∈ b.boundNames, x ∉ c.external
  | ⟨_, ss⟩, h => by
    have hinner := Stmt.AllDeclareNew.foreign ss h.2
    rw [Context.enter_eq] at hinner
    intro x hx
    rcases List.mem_append.1 ((Stmt.allBoundNames_perm ss).subset hx) with hx | hx
    . exact (h.1.declarable x hx).2.2.2.1
    . exact hinner x hx

theorem Case.AllDeclareNew.foreign {c : Context} : (cs : List Case) → Case.AllDeclareNew c cs →
    ∀ x ∈ Case.allBoundNames cs, x ∉ c.external
  | [], _ => List.forall_mem_nil _
  | ⟨_, _, body⟩ :: cs, h =>
    List.forall_mem_append.2
      ⟨Block.DeclaresNew.foreign body h.1, Case.AllDeclareNew.foreign cs h.2⟩

end

end Splice
