import Splice.Proofs.Analysis.Contexts

/-!
This module contains the proof that a block whose names all differ, and differ from all that is
visible around it, declares nothing that has a visible meaning.
-/

namespace Splice

namespace Context

variable (c : Context)

theorem declarable_declare {x : String} (xs : List Binder) :
    (c.declare xs).Declarable x ↔ c.Declarable x ∧ x ∉ xs.map Binder.name := by
  have hvars := c.mem_vars_declare (x := x) xs
  unfold Declarable
  rw [hvars, declare_eq]
  grind

theorem declarable_after {x : String} (ss : List Stmt) :
    (c.after ss).Declarable x ↔
      c.Declarable x ∧ x ∉ (ss.flatMap Stmt.declared).map Binder.name := by
  have hvars := c.mem_vars_after (x := x) ss
  unfold Declarable
  rw [hvars, after_eq]
  grind

theorem declarable_announce {x : String} (s : Stmt) :
    (c.announce s).Declarable x ↔ c.Declarable x ∧ x ∉ s.announced := by
  unfold Declarable announce Stmt.announced
  split <;> simp [addFunction, addLabel, Signature.head] <;> grind

theorem declarable_enter {x : String} (ss : List Stmt) :
    (c.enter ss).Declarable x ↔ c.Declarable x ∧ x ∉ ss.flatMap Stmt.announced := by
  induction ss generalizing c with
  | nil => simp [enter]
  | cons s ss ih =>
    unfold enter
    rw [ih, declarable_announce, List.flatMap_cons, List.mem_append]
    grind

theorem declarable_enterFunction {x : String} {xs : List Binder} (h : c.Declarable x)
    (hx : x ∉ xs.map Binder.name) : (c.enterFunction xs).Declarable x := by
  unfold enterFunction
  rw [declarable_declare]
  exact ⟨⟨List.not_mem_nil, h.2⟩, hx⟩

theorem allDeclarable_of_nodup {xs : List Binder} (h : ∀ x ∈ xs.map Binder.name, c.Declarable x)
    (hn : (xs.map Binder.name).Nodup) : c.AllDeclarable xs := by
  induction xs generalizing c with
  | nil => trivial
  | cons x xs ih =>
    rw [List.map_cons, List.nodup_cons] at hn
    rw [List.map_cons, List.forall_mem_cons] at h
    refine ⟨h.1, ih _ ?_ hn.2⟩
    intro y hy
    refine (c.declarable_declare [x]).2 ⟨h.2 y hy, ?_⟩
    intro hyx
    rw [List.map_singleton, List.mem_singleton] at hyx
    exact hn.1 (hyx ▸ hy)

theorem canAnnounce_of_declarable {s : Stmt} (h : ∀ x ∈ s.announced, c.Declarable x) :
    c.CanAnnounce s := by
  unfold CanAnnounce
  split
  . exact h _ (List.mem_singleton.2 rfl)
  . exact h _ (List.mem_singleton.2 rfl)
  . trivial

theorem canEnter_of_nodup {ss : List Stmt}
    (h : ∀ x ∈ ss.flatMap Stmt.announced, c.Declarable x)
    (hn : (ss.flatMap Stmt.announced).Nodup) : c.CanEnter ss := by
  induction ss generalizing c with
  | nil => trivial
  | cons s ss ih =>
    rw [List.flatMap_cons, List.forall_mem_append] at h
    rw [List.flatMap_cons, List.nodup_append] at hn
    refine ⟨c.canAnnounce_of_declarable h.1, ih _ ?_ hn.2.1⟩
    intro x hx
    exact (c.declarable_announce s).2 ⟨h.2 x hx, fun hs => hn.2.2 x hs x hx rfl⟩

end Context

theorem Context.enter_of_nodup {c : Context} {ss : List Stmt}
    (h : ∀ x ∈ Stmt.allBoundNames ss, c.Declarable x) (hn : (Stmt.allBoundNames ss).Nodup) :
    c.CanEnter ss ∧ (∀ x ∈ ss.flatMap Stmt.innerNames, (c.enter ss).Declarable x) ∧
    (ss.flatMap Stmt.innerNames).Nodup := by
  have hperm := Stmt.allBoundNames_perm ss
  rw [hperm.nodup_iff, List.nodup_append] at hn
  have hmem := fun x => (hperm.mem_iff (a := x)).trans List.mem_append
  refine ⟨c.canEnter_of_nodup ?_ hn.1, ?_, hn.2.1⟩
  . intro x hx
    exact h x ((hmem x).2 (.inl hx))
  . intro x hx
    rw [c.declarable_enter]
    exact ⟨h x ((hmem x).2 (.inr hx)), fun ha => hn.2.2 x ha x hx rfl⟩

mutual

theorem Stmt.declaresNew_of_nodup {c : Context} :
    (s : Stmt) → (∀ x ∈ s.innerNames, c.Declarable x) → s.innerNames.Nodup → s.DeclaresNew c
  | .expression _, _, _ => trivial
  | .declaration _ _ _, h, hn => c.allDeclarable_of_nodup h hn
  | .assignment .., _, _ => trivial
  | .conditional _ _ body, h, hn => Block.declaresNew_of_nodup body h hn
  | .switch _ _ arms, h, hn => Case.allDeclareNew_of_nodup arms h hn
  | .loop _ ⟨_, pre⟩ _ post body, h, hn => by
    change ∀ x ∈ Stmt.allBoundNames pre ++ post.boundNames ++ body.boundNames, _ at h
    change (Stmt.allBoundNames pre ++ post.boundNames ++ body.boundNames).Nodup at hn
    rw [List.forall_mem_append, List.forall_mem_append] at h
    rw [List.nodup_append, List.nodup_append] at hn
    obtain ⟨⟨hpre, hpost⟩, hbody⟩ := h
    obtain ⟨⟨npre, npost, hap⟩, nbody, hab⟩ := hn
    obtain ⟨henter, hinner, ninner⟩ := Context.enter_of_nodup hpre npre
    have hperm := Stmt.allBoundNames_perm pre
    -- A name that is not bound in the first block can still be declared behind it.
    have hafter : ∀ x, c.Declarable x → x ∉ Stmt.allBoundNames pre →
        ((c.enter pre).after pre).Declarable x := by
      intro x hx hnot
      rw [hperm.mem_iff, List.mem_append, not_or] at hnot
      rw [Context.declarable_after, Context.declarable_enter]
      exact ⟨⟨hx, hnot.1⟩, fun hd => hnot.2 (Stmt.allDeclared_subset pre hd)⟩
    refine ⟨henter, Stmt.allDeclareNew_of_nodup pre hinner ninner, ?_, ?_⟩
    . apply Block.declaresNew_of_nodup post _ npost
      exact fun x hx => hafter x (hpost x hx) fun hp => hap x hp x hx rfl
    . apply Block.declaresNew_of_nodup body _ nbody
      exact fun x hx => hafter x (hbody x hx) fun hp => hab x (List.mem_append_left _ hp) x hx rfl
  | .function ⟨f, body⟩, h, hn => by
    simp only [Stmt.innerNames, ← List.map_append] at h hn
    rw [List.forall_mem_append] at h
    rw [List.nodup_append] at hn
    constructor
    . apply Context.allDeclarable_of_nodup _ _ hn.1
      exact fun x hx => ⟨List.not_mem_nil, (h.1 x hx).2⟩
    . apply Block.declaresNew_of_nodup body _ hn.2.1
      intro x hx
      exact c.declarable_enterFunction (h.2 x hx) fun hp => hn.2.2 x hp x hx rfl
  | .block b, h, hn => Block.declaresNew_of_nodup b h hn
  | .stack _, _, _ => trivial

theorem Stmt.allDeclareNew_of_nodup {c : Context} : (ss : List Stmt) →
    (∀ x ∈ ss.flatMap Stmt.innerNames, c.Declarable x) → (ss.flatMap Stmt.innerNames).Nodup →
      Stmt.AllDeclareNew c ss
  | [], _, _ => trivial
  | s :: ss, h, hn => by
    rw [List.flatMap_cons, List.forall_mem_append] at h
    rw [List.flatMap_cons, List.nodup_append] at hn
    refine ⟨Stmt.declaresNew_of_nodup s h.1 hn.1, Stmt.allDeclareNew_of_nodup ss ?_ hn.2.1⟩
    intro x hx
    rw [Context.declarable_declare]
    exact ⟨h.2 x hx, fun hd => hn.2.2 x (s.declared_subset hd) x hx rfl⟩

theorem Block.declaresNew_of_nodup {c : Context} :
    (b : Block) → (∀ x ∈ b.boundNames, c.Declarable x) → b.boundNames.Nodup → b.DeclaresNew c
  | ⟨_, ss⟩, h, hn =>
    have hin := Context.enter_of_nodup h hn
    ⟨hin.1, Stmt.allDeclareNew_of_nodup ss hin.2.1 hin.2.2⟩

theorem Case.allDeclareNew_of_nodup {c : Context} : (cs : List Case) →
    (∀ x ∈ Case.allBoundNames cs, c.Declarable x) → (Case.allBoundNames cs).Nodup →
      Case.AllDeclareNew c cs
  | [], _, _ => trivial
  | ⟨_, _, body⟩ :: cs, h, hn => by
    unfold Case.allBoundNames at h hn
    rw [List.forall_mem_append] at h
    rw [List.nodup_append] at hn
    exact ⟨Block.declaresNew_of_nodup body h.1 hn.1, Case.allDeclareNew_of_nodup cs h.2 hn.2.1⟩

end

end Splice
