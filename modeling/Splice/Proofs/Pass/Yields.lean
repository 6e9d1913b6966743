import Splice.Pass.BodyCopy
import Splice.Proofs.Names.Bindable
import Splice.Proofs.Pass.Success

/-!
This module contains computations that keep an invariant of their state and only return what has a
property, and the proof that the copying of a tree keeps it legible if the names in it become names
that can be bound.
-/

namespace Splice

variable {ε σ α β : Type}

/--
Where `x` is started with the invariant, it only returns what has the property, and leaves the
invariant behind.
-/
def Yields (inv : σ → Prop) (x : EStateM ε σ α) (property : α → Prop) : Prop :=
  ∀ s a s', inv s → x s = .ok a s' → property a ∧ inv s'

namespace Yields

variable {inv : σ → Prop} {x : EStateM ε σ α} {f : α → EStateM ε σ β} {P : α → Prop} {Q : β → Prop}

theorem bind (hx : Yields inv x P) (hf : ∀ a, P a → Yields inv (f a) Q) :
    Yields inv (x >>= f) Q := by
  intro s b s' hs h
  rw [bind_eq_ok] at h
  obtain ⟨a, mid, ha, hb⟩ := h
  obtain ⟨hP, hmid⟩ := hx s a mid hs ha
  exact hf a hP mid b s' hmid hb

theorem pure {a : α} (h : P a) : Yields inv (Pure.pure a : EStateM ε σ α) P := by
  intro s b s' hs hrun
  rw [pure_eq_ok] at hrun
  obtain ⟨rfl, rfl⟩ := hrun
  exact ⟨h, hs⟩

theorem throw {e : ε} : Yields inv (MonadExcept.throw e : EStateM ε σ α) P :=
  fun _ _ _ _ h => (throw_ne_ok h).elim

theorem imp {P' : α → Prop} (hx : Yields inv x P) (h : ∀ a, P a → P' a) : Yields inv x P' :=
  fun s a s' hs hrun => (hx s a s' hs hrun).imp_left (h a)

theorem of_modify {f : σ → σ} (h : ∀ s, inv s → inv (f s)) :
    Yields inv (modify f : EStateM ε σ PUnit) fun _ => True := by
  intro s a s' hs hrun
  rw [modify_eq_ok] at hrun
  rw [← hrun]
  exact ⟨trivial, h s hs⟩

end Yields

theorem snd_of_lookup {P : String → Prop} {l : List (String × String)} (hl : ∀ r ∈ l, P r.2)
    {x y : String} (h : l.lookup x = some y) : P y := by
  obtain ⟨l₁, l₂, rfl, _⟩ := List.lookup_eq_some_iff.1 h
  exact hl (x, y) (List.mem_append_right _ List.mem_cons_self)

namespace Traversal

structure KeepsLegible (d : Dialect) (inv : σ → Prop) (t : Traversal (EStateM Failure σ)) :
    Prop where
  use : ∀ i, Yields inv (t.use i) fun j => j.name = i.name ∨ Bindable j.name
  vars : ∀ xs, (∀ x ∈ xs, x.Legible d) →
    Yields inv (t.vars xs) fun ys => ys.length = xs.length ∧ ∀ y ∈ ys, y.Legible d
  enterFunction : ∀ f, f.Legible d → Yields inv (t.enterFunction f) fun f' => f'.Legible d
  leaveFunction : Yields inv t.leaveFunction fun _ => True
  enterBlock : ∀ ss, Stmt.AllLegible d ss → Yields inv (t.enterBlock ss) fun _ => True
  leaveBlock : Yields inv t.leaveBlock fun _ => True
  stackForm : ∀ form, form.Legible → Yields inv (t.stackForm form) StackForm.Legible

namespace KeepsLegible

variable {d : Dialect} {inv : σ → Prop} {t : Traversal (EStateM Failure σ)}

theorem bindable (h : t.KeepsLegible d inv) {i : Identifier} (hi : Bindable i.name) :
    Yields inv (t.use i) fun j => Bindable j.name :=
  (h.use i).imp fun _ hj => hj.elim (fun heq => heq ▸ hi) id

theorem usable (h : t.KeepsLegible d inv) {i : Identifier} (hi : Usable i.name) :
    Yields inv (t.use i) fun j => Usable j.name ∧
      ((Expr.identifier i).Leads d → (Expr.identifier j).Leads d) := by
  refine (h.use i).imp fun j hj => ?_
  rcases hj with heq | hj
  . have hleads : (Expr.identifier j).Leads d = (Expr.identifier i).Leads d := by
      simp only [Expr.Leads, heq]
    exact ⟨heq ▸ hi, fun h => hleads ▸ h⟩
  . exact ⟨hj.toUsable, fun _ => hj.leads⟩

mutual

theorem expr (h : t.KeepsLegible d inv) : (e : Expr) → e.Legible d →
    Yields inv (t.expr e) fun e' => e'.Legible d ∧ (e.Leads d → e'.Leads d)
  | .literal _, he => .pure ⟨he, id⟩
  | .identifier _, he => (h.usable he).bind fun _ hj => .pure hj
  | .call _ _ arguments, he =>
    (h.bindable he.1).bind fun _ hcallee => (h.exprs arguments he.2).bind fun _ hes =>
      .pure ⟨⟨hcallee, hes⟩, id⟩
  | .instruction _ _ arguments, he =>
    (h.exprs arguments he.2).bind fun _ hes => .pure ⟨⟨he.1, hes⟩, id⟩

theorem exprs (h : t.KeepsLegible d inv) : (es : List Expr) → Expr.AllLegible d es →
    Yields inv (t.exprs es) (Expr.AllLegible d)
  | [], _ => .pure trivial
  | e :: es, hes =>
    (h.expr e hes.1).bind fun _ he => (h.exprs es hes.2).bind fun _ hes => .pure ⟨he.1, hes⟩

end

theorem optionalExpr (h : t.KeepsLegible d inv) (e? : Option Expr) (he : ∀ e ∈ e?, e.Legible d) :
    Yields inv (t.optionalExpr e?) fun e? => ∀ e ∈ e?, e.Legible d := by
  cases e? with
  | none => exact .pure nofun
  | some e =>
    refine (h.expr e (he e rfl)).bind fun e' he' => .pure fun e₁ he₁ => ?_
    cases he₁
    exact he'.1

theorem others (h : t.KeepsLegible d inv) (is : List Identifier) (his : ∀ i ∈ is, Bindable i.name) :
    Yields inv (t.uses is) fun js => ∀ j ∈ js, Bindable j.name := by
  induction is with
  | nil => exact .pure (List.forall_mem_nil _)
  | cons i is ih =>
    rw [List.forall_mem_cons] at his
    refine (h.bindable his.1).bind fun j hj => (ih his.2).bind fun js hjs => .pure ?_
    exact List.forall_mem_cons.2 ⟨hj, hjs⟩

theorem uses (h : t.KeepsLegible d inv) (is : List Identifier) (his : Identifier.AllTargets d is) :
    Yields inv (t.uses is) (Identifier.AllTargets d) := by
  cases is with
  | nil => contradiction
  | cons i is =>
    obtain ⟨husable, hleads, hothers⟩ := his
    refine (h.usable husable).bind fun j hj => (h.others is hothers).bind fun js hjs => .pure ?_
    exact ⟨hj.1, hj.2 hleads, hjs⟩

mutual

theorem stmt (h : t.KeepsLegible d inv) : (s : Stmt) → s.Legible d →
    Yields inv (t.stmt s) (Stmt.Legible d)
  | .expression e, hs => (h.expr e hs.1).bind fun _ he => .pure ⟨he.1, he.2 hs.2⟩
  | .declaration _ vars value, hs =>
    (h.optionalExpr value hs.2.2).bind fun _ hvalue => (h.vars vars hs.2.1).bind fun _ hys =>
      .pure ⟨fun hnil => hs.1 (List.length_eq_zero_iff.1 (hys.1 ▸ List.length_eq_zero_iff.2 hnil)),
        hys.2, hvalue⟩
  | .assignment _ targets value, hs =>
    (h.uses targets hs.1).bind fun _ htargets => (h.expr value hs.2).bind fun _ hvalue =>
      .pure ⟨htargets, hvalue.1⟩
  | .conditional _ condition body, hs =>
    (h.expr condition hs.1).bind fun _ hcondition => (h.block body hs.2).bind fun _ hbody =>
      .pure ⟨hcondition.1, hbody⟩
  | .switch _ subject arms, hs =>
    (h.expr subject hs.1).bind fun _ hsubject => (h.cases arms hs.2.1).bind fun _ harms =>
      .pure ⟨hsubject.1, harms.1, harms.2 ▸ hs.2.2⟩
  | .loop _ ⟨_, pre⟩ condition post body, hs =>
    (h.enterBlock pre hs.1).bind fun _ _ => (h.stmts pre hs.1).bind fun _ hpre =>
      (h.expr condition hs.2.1).bind fun _ hcondition => (h.block post hs.2.2.1).bind fun _ hpost =>
        (h.block body hs.2.2.2).bind fun _ hbody => h.leaveBlock.bind fun _ _ =>
          .pure ⟨hpre, hcondition.1, hpost, hbody⟩
  | .function ⟨f, body⟩, hs =>
    (h.enterFunction f hs.1).bind fun _ hf => (h.block body hs.2).bind fun _ hbody =>
      h.leaveFunction.bind fun _ _ => .pure ⟨hf, hbody⟩
  | .block b, hs => (h.block b hs).bind fun _ hb => .pure hb
  | .stack form, hs => (h.stackForm form hs.2).bind fun _ hform => .pure ⟨hs.1, hform⟩

theorem stmts (h : t.KeepsLegible d inv) : (ss : List Stmt) → Stmt.AllLegible d ss →
    Yields inv (t.stmts ss) (Stmt.AllLegible d)
  | [], _ => .pure trivial
  | s :: ss, hss =>
    (h.stmt s hss.1).bind fun _ hs => (h.stmts ss hss.2).bind fun _ hss => .pure ⟨hs, hss⟩

theorem block (h : t.KeepsLegible d inv) : (b : Block) → b.Legible d →
    Yields inv (t.block b) (Block.Legible d)
  | ⟨_, ss⟩, hss =>
    (h.enterBlock ss hss).bind fun _ _ => (h.stmts ss hss).bind fun _ hss' =>
      h.leaveBlock.bind fun _ _ => .pure hss'

theorem cases (h : t.KeepsLegible d inv) : (cs : List Case) → Case.AllLegible d cs →
    Yields inv (t.cases cs) fun cs' =>
      Case.AllLegible d cs' ∧ cs'.map Case.value = cs.map Case.value
  | [], _ => .pure ⟨trivial, rfl⟩
  | ⟨_, _, body⟩ :: cs, hcs =>
    (h.block body hcs.2.1).bind fun _ hbody => (h.cases cs hcs.2.2).bind fun _ hcs' =>
      .pure ⟨⟨hcs.1, hbody, hcs'.1⟩, List.cons_eq_cons.2 ⟨rfl, hcs'.2⟩⟩

end

end KeepsLegible
end Traversal
end Splice
