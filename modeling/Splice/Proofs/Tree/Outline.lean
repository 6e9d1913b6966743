import Mathlib.Logic.Basic
import Splice.Proofs.Tree.Spans

/-!
This module contains the outline of a tree, which has all of its nodes with where they are in the
source, and nothing else of them.
-/

namespace Splice

/--
A node with the nodes in it, in the order of the source. Behind some nodes, a type is written that
their spans leave out.
-/
inductive Outline where
  | mk (span : Span) (annotated : Bool) (parts : List Outline)

namespace Outline

def span : Outline → Span
  | mk span _ _ => span

def annotated : Outline → Bool
  | mk _ annotated _ => annotated

mutual

def spans : Outline → List Span
  | mk span _ parts => span :: allSpans parts

def allSpans : List Outline → List Span
  | [] => []
  | o :: os => o.spans ++ allSpans os

end

theorem allSpans_eq_flatMap (os : List Outline) : allSpans os = os.flatMap spans := by
  induction os with
  | nil => rfl
  | cons o os ih => rw [allSpans, ih, List.flatMap_cons]

end Outline

def Binder.outline (x : Binder) : Outline := .mk x.span x.type.isSome []

def Identifier.outline (i : Identifier) : Outline := .mk i.span false []

def Literal.outline (l : Literal) : Outline := .mk l.span l.type.isSome []

mutual

def Expr.outline : Expr → Outline
  | .literal l => l.outline
  | .identifier i => i.outline
  | .call span callee arguments => .mk span false (callee.outline :: Expr.outlines arguments)
  | .instruction span _ arguments => .mk span false (Expr.outlines arguments)

def Expr.outlines : List Expr → List Outline
  | [] => []
  | e :: es => e.outline :: Expr.outlines es

end

def StackForm.outline : StackForm → Outline
  | .label span _ => .mk span false []
  | .assignment span target => .mk span false [target.outline]
  | .instruction span _ => .mk span false []

mutual

def Stmt.outline : Stmt → Outline
  | .expression e => e.outline
  | .declaration span vars none =>
    .mk span ((vars.getLast?.map Binder.outline).any Outline.annotated) (vars.map Binder.outline)
  | .declaration span vars (some value) =>
    .mk span value.outline.annotated (vars.map Binder.outline ++ [value.outline])
  | .assignment span targets value =>
    .mk span value.outline.annotated (targets.map Identifier.outline ++ [value.outline])
  | .conditional span condition body => .mk span false [condition.outline, body.outline]
  | .switch span subject arms => .mk span false (subject.outline :: Case.outlines arms)
  | .loop span pre condition post body =>
    .mk span false [pre.outline, condition.outline, post.outline, body.outline]
  | .function ⟨f, body⟩ =>
    .mk f.span false
      (f.parameters.map Binder.outline ++ f.returns.map Binder.outline ++ [body.outline])
  | .block b => b.outline
  | .stack form => form.outline

def Stmt.outlines : List Stmt → List Outline
  | [] => []
  | s :: ss => s.outline :: Stmt.outlines ss

def Block.outline : Block → Outline
  | ⟨span, ss⟩ => .mk span false (Stmt.outlines ss)

def Case.outline : Case → Outline
  | ⟨span, value, body⟩ => .mk span false (value.toList.map Literal.outline ++ [body.outline])

def Case.outlines : List Case → List Outline
  | [] => []
  | c :: cs => c.outline :: Case.outlines cs

end

theorem Expr.outlines_eq_map (es : List Expr) : outlines es = es.map outline := by
  induction es with
  | nil => rfl
  | cons e es ih => rw [outlines, ih, List.map_cons]

theorem Case.outlines_eq_map (cs : List Case) : outlines cs = cs.map outline := by
  induction cs with
  | nil => rfl
  | cons c cs ih => rw [outlines, ih, List.map_cons]

theorem Expr.span_outline (e : Expr) : e.outline.span = e.span := by
  cases e <;> rfl

/-! ## The nodes of an outline -/

theorem Outline.allSpans_append (os ps : List Outline) :
    allSpans (os ++ ps) = allSpans os ++ allSpans ps := by
  rw [allSpans_eq_flatMap, allSpans_eq_flatMap, allSpans_eq_flatMap, List.flatMap_append]

theorem allSpans_binders (xs : List Binder) :
    Outline.allSpans (xs.map Binder.outline) = xs.map Binder.span := by
  induction xs with
  | nil => rfl
  | cons x xs ih =>
    rw [List.map_cons, Outline.allSpans, ih]
    rfl

theorem allSpans_identifiers (is : List Identifier) :
    Outline.allSpans (is.map Identifier.outline) = is.map Identifier.span := by
  induction is with
  | nil => rfl
  | cons i is ih =>
    rw [List.map_cons, Outline.allSpans, ih]
    rfl

mutual

theorem Expr.spans_outline : (e : Expr) → e.outline.spans = e.spans
  | .literal _ => rfl
  | .identifier _ => rfl
  | .call span callee arguments =>
    congrArg (span :: callee.span :: ·) (Expr.allSpans_outlines arguments)
  | .instruction span _ arguments => congrArg (span :: ·) (Expr.allSpans_outlines arguments)

theorem Expr.allSpans_outlines :
    (es : List Expr) → Outline.allSpans (Expr.outlines es) = Expr.allSpans es
  | [] => rfl
  | e :: es => congrArg₂ (· ++ ·) e.spans_outline (Expr.allSpans_outlines es)

end

mutual

theorem Stmt.spans_outline : (s : Stmt) → s.outline.spans = s.spans
  | .expression e => e.spans_outline
  | .declaration _ vars none => by
    simp [Stmt.outline, Stmt.spans, Outline.spans, allSpans_binders]
  | .declaration _ vars (some value) => by
    simp [Stmt.outline, Stmt.spans, Outline.spans, Outline.allSpans, Outline.allSpans_append,
      allSpans_binders, value.spans_outline]
  | .assignment _ targets value => by
    simp [Stmt.outline, Stmt.spans, Outline.spans, Outline.allSpans, Outline.allSpans_append,
      allSpans_identifiers, value.spans_outline]
  | .conditional _ condition body => by
    simp [Stmt.outline, Stmt.spans, Outline.spans, Outline.allSpans, condition.spans_outline,
      body.spans_outline]
  | .switch _ subject arms => by
    simp [Stmt.outline, Stmt.spans, Outline.spans, Outline.allSpans, subject.spans_outline,
      Case.allSpans_outlines arms]
  | .loop _ pre condition post body => by
    simp [Stmt.outline, Stmt.spans, Outline.spans, Outline.allSpans, condition.spans_outline,
      pre.spans_outline, post.spans_outline, body.spans_outline]
  | .function ⟨f, body⟩ => by
    simp [Stmt.outline, Stmt.spans, Signature.spans, Outline.spans, Outline.allSpans,
      Outline.allSpans_append, allSpans_binders, body.spans_outline]
  | .block b => b.spans_outline
  | .stack form => by cases form <;> rfl

theorem Stmt.allSpans_outlines :
    (ss : List Stmt) → Outline.allSpans (Stmt.outlines ss) = Stmt.allSpans ss
  | [] => rfl
  | s :: ss => congrArg₂ (· ++ ·) s.spans_outline (Stmt.allSpans_outlines ss)

theorem Block.spans_outline : (b : Block) → b.outline.spans = b.spans
  | ⟨span, ss⟩ => congrArg (span :: ·) (Stmt.allSpans_outlines ss)

theorem Case.allSpans_outlines :
    (cs : List Case) → Outline.allSpans (Case.outlines cs) = Case.allSpans cs
  | [] => rfl
  | ⟨_, value, body⟩ :: cs => by
    cases value <;> simp [Case.outlines, Case.outline, Case.allSpans, Case.spans, Outline.spans,
      Outline.allSpans, Literal.outline, body.spans_outline, Case.allSpans_outlines cs]

end

end Splice
