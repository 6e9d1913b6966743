import Splice.Tree.Basic

/-!
This module contains the parts of the source that the nodes of a tree were read from.
-/

namespace Splice

def Position.Bounded (p : Position) : Prop :=
  p.line < Nat.pow 2 64 ∧ p.column < Nat.pow 2 64

def Span.Bounded (s : Span) : Prop :=
  s.start.Bounded ∧ s.stop.Bounded

instance (p : Position) : Decidable p.Bounded :=
  inferInstanceAs (Decidable (_ ∧ _))

instance (s : Span) : Decidable s.Bounded :=
  inferInstanceAs (Decidable (_ ∧ _))

mutual

def Expr.spans : Expr → List Span
  | .literal l => [l.span]
  | .identifier i => [i.span]
  | .call span callee arguments => span :: callee.span :: Expr.allSpans arguments
  | .instruction span _ arguments => span :: Expr.allSpans arguments

def Expr.allSpans : List Expr → List Span
  | [] => []
  | e :: es => e.spans ++ Expr.allSpans es

end

def StackForm.spans : StackForm → List Span
  | .label span _ => [span]
  | .assignment span target => [span, target.span]
  | .instruction span _ => [span]

def Signature.spans (f : Signature) : List Span :=
  f.span :: f.parameters.map Binder.span ++ f.returns.map Binder.span

mutual

def Stmt.spans : Stmt → List Span
  | .expression e => e.spans
  | .declaration span vars value => span :: vars.map Binder.span ++ value.elim [] Expr.spans
  | .assignment span targets value => span :: targets.map Identifier.span ++ value.spans
  | .conditional span condition body => span :: condition.spans ++ body.spans
  | .switch span subject arms => span :: subject.spans ++ Case.allSpans arms
  | .loop span pre condition post body =>
    span :: pre.spans ++ condition.spans ++ post.spans ++ body.spans
  | .function ⟨f, body⟩ => f.spans ++ body.spans
  | .block b => b.spans
  | .stack form => form.spans

def Stmt.allSpans : List Stmt → List Span
  | [] => []
  | s :: ss => s.spans ++ Stmt.allSpans ss

def Block.spans : Block → List Span
  | ⟨span, ss⟩ => span :: Stmt.allSpans ss

def Case.spans : Case → List Span
  | ⟨span, value, body⟩ => span :: value.elim [] (fun l => [l.span]) ++ body.spans

def Case.allSpans : List Case → List Span
  | [] => []
  | c :: cs => c.spans ++ Case.allSpans cs

end

theorem Expr.spans_subset_allSpans {e : Expr} {es : List Expr} (h : e ∈ es) :
    e.spans ⊆ Expr.allSpans es := by
  induction es with
  | nil => contradiction
  | cons first es ih =>
    intro s hs
    rw [allSpans, List.mem_append]
    rcases List.mem_cons.1 h with rfl | h
    . exact .inl hs
    . exact .inr (ih h hs)

theorem Stmt.spans_subset_allSpans {s : Stmt} {ss : List Stmt} (h : s ∈ ss) :
    s.spans ⊆ Stmt.allSpans ss := by
  induction ss with
  | nil => contradiction
  | cons first ss ih =>
    intro span hspan
    rw [allSpans, List.mem_append]
    rcases List.mem_cons.1 h with rfl | h
    . exact .inl hspan
    . exact .inr (ih h hspan)

theorem Case.spans_subset_allSpans {c : Case} {cs : List Case} (h : c ∈ cs) :
    c.spans ⊆ Case.allSpans cs := by
  induction cs with
  | nil => contradiction
  | cons first cs ih =>
    intro span hspan
    rw [allSpans, List.mem_append]
    rcases List.mem_cons.1 h with rfl | h
    . exact .inl hspan
    . exact .inr (ih h hspan)

end Splice
