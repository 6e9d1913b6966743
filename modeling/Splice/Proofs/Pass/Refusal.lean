import Splice.Proofs.Pass.Meets
import Splice.Proofs.Tree.Parts
import Splice.Tree.Traversal

/-!
This module contains the proof that a pass that does not support stack forms fails at the first of
them.
-/

namespace Splice
namespace Traversal

variable {σ α β : Type}

/--
If `x` returns then there are no stack forms, and if it fails because of one then it is the first.
-/
def StopsAt (forms : List StackForm) (x : EStateM Failure σ α) : Prop :=
  ∀ s, Meets x s (fun _ _ => forms = []) fun e => ∀ form, e = .unsupported form →
    ∃ rest, forms = form :: rest

namespace StopsAt

theorem bind {forms forms' : List StackForm} {x : EStateM Failure σ α}
    {f : α → EStateM Failure σ β} (hx : StopsAt forms x) (hf : ∀ a, StopsAt forms' (f a)) :
    StopsAt (forms ++ forms') (x >>= f) := by
  intro s
  have hx' : Meets x s (fun _ _ => forms = []) fun e => ∀ form, e = .unsupported form →
      ∃ rest, forms ++ forms' = form :: rest := by
    refine (hx s).imp (fun _ _ h => h) ?_
    intro e he form hform
    obtain ⟨rest, hrest⟩ := he form hform
    exact ⟨rest ++ forms', by rw [hrest, List.cons_append]⟩
  apply hx'.bind
  intro a s' hnil
  rw [hnil, List.nil_append]
  exact hf a s'

theorem pure (a : α) : StopsAt [] (Pure.pure a : EStateM Failure σ α) := fun _ => rfl

theorem after {forms : List StackForm} {x : EStateM Failure σ α} {f : α → EStateM Failure σ β}
    (hx : StopsAt [] x) (hf : ∀ a, StopsAt forms (f a)) : StopsAt forms (x >>= f) :=
  hx.bind hf

theorem before {forms : List StackForm} {x : EStateM Failure σ α} {f : α → EStateM Failure σ β}
    (hx : StopsAt forms x) (hf : ∀ a, StopsAt [] (f a)) : StopsAt forms (x >>= f) := by
  have := hx.bind hf
  rwa [List.append_nil] at this

end StopsAt

structure RefusesStackForms (t : Traversal (EStateM Failure σ)) : Prop where
  use : ∀ i, StopsAt [] (t.use i)
  vars : ∀ xs, StopsAt [] (t.vars xs)
  enterFunction : ∀ f, StopsAt [] (t.enterFunction f)
  leaveFunction : StopsAt [] t.leaveFunction
  enterBlock : ∀ ss, StopsAt [] (t.enterBlock ss)
  leaveBlock : StopsAt [] t.leaveBlock
  stackForm : ∀ form, t.stackForm form = throw (.unsupported form)

namespace RefusesStackForms

variable {t : Traversal (EStateM Failure σ)}

mutual

theorem expr (h : t.RefusesStackForms) : (e : Expr) → StopsAt [] (t.expr e)
  | .literal _ => .pure _
  | .identifier i => (h.use i).after fun _ => .pure _
  | .call _ callee arguments =>
    (h.use callee).after fun _ => (h.exprs arguments).after fun _ => .pure _
  | .instruction _ _ arguments => (h.exprs arguments).after fun _ => .pure _

theorem exprs (h : t.RefusesStackForms) : (es : List Expr) → StopsAt [] (t.exprs es)
  | [] => .pure _
  | e :: es => (h.expr e).after fun _ => (h.exprs es).after fun _ => .pure _

end

theorem optionalExpr (h : t.RefusesStackForms) : (e? : Option Expr) → StopsAt [] (t.optionalExpr e?)
  | none => .pure _
  | some e => (h.expr e).after fun _ => .pure _

theorem uses (h : t.RefusesStackForms) : (is : List Identifier) → StopsAt [] (t.uses is)
  | [] => .pure _
  | i :: is => (h.use i).after fun _ => (h.uses is).after fun _ => .pure _

mutual

theorem stmt (h : t.RefusesStackForms) : (x : Stmt) → StopsAt x.stackForms (t.stmt x)
  | .expression e => (h.expr e).after fun _ => .pure _
  | .declaration _ vars value =>
    (h.optionalExpr value).after fun _ => (h.vars vars).after fun _ => .pure _
  | .assignment _ targets value =>
    (h.uses targets).after fun _ => (h.expr value).after fun _ => .pure _
  | .conditional _ condition body =>
    (h.expr condition).after fun _ => (h.block body).before fun _ => .pure _
  | .switch _ subject arms =>
    (h.expr subject).after fun _ => (h.cases arms).before fun _ => .pure _
  | .loop _ ⟨_, pre⟩ condition post body => by
    change StopsAt (Stmt.allStackForms pre ++ post.stackForms ++ body.stackForms) _
    rw [List.append_assoc]
    apply (h.enterBlock pre).after
    intro _
    apply (h.stmts pre).bind
    intro _
    apply (h.expr condition).after
    intro _
    apply (h.block post).bind
    intro _
    apply (h.block body).before
    intro _
    exact h.leaveBlock.after fun _ => .pure _
  | .function ⟨f, body⟩ =>
    (h.enterFunction f).after fun _ => (h.block body).before fun _ =>
      h.leaveFunction.after fun _ => .pure _
  | .block b => (h.block b).before fun _ => .pure _
  | .stack form => by
    unfold Traversal.stmt Stmt.stackForms
    rw [h.stackForm]
    intro s
    apply Meets.throw_bind
    intro form' hform
    injection hform with hform
    exact ⟨[], by rw [hform]⟩

theorem stmts (h : t.RefusesStackForms) :
    (xs : List Stmt) → StopsAt (Stmt.allStackForms xs) (t.stmts xs)
  | [] => .pure _
  | x :: xs => (h.stmt x).bind fun _ => (h.stmts xs).before fun _ => .pure _

theorem block (h : t.RefusesStackForms) : (b : Block) → StopsAt b.stackForms (t.block b)
  | ⟨_, xs⟩ => (h.enterBlock xs).after fun _ => (h.stmts xs).before fun _ =>
    h.leaveBlock.after fun _ => .pure _

theorem cases (h : t.RefusesStackForms) :
    (cs : List Case) → StopsAt (Case.allStackForms cs) (t.cases cs)
  | [] => .pure _
  | ⟨_, _, body⟩ :: cs => (h.block body).bind fun _ => (h.cases cs).before fun _ => .pure _

end

end RefusesStackForms
end Traversal
end Splice
