import Splice.Proofs.Pass.Meets
import Splice.Tree.Traversal

/-!
This module contains what is left of a tree without the names that it binds and uses: its shape, its
spans, types and literals, and the names of instructions.
-/

namespace Splice

def Binder.anonymous (x : Binder) : Binder := { x with name := "" }

def Identifier.anonymous (i : Identifier) : Identifier := { i with name := "" }

def Signature.anonymous (f : Signature) : Signature :=
  { f with
    name := ""
    parameters := f.parameters.map Binder.anonymous
    returns := f.returns.map Binder.anonymous }

def StackForm.anonymous : StackForm → StackForm
  | .label span _ => .label span ""
  | .assignment span target => .assignment span target.anonymous
  | .instruction span name => .instruction span name

mutual

def Expr.anonymous : Expr → Expr
  | .literal l => .literal l
  | .identifier i => .identifier i.anonymous
  | .call span callee arguments => .call span callee.anonymous (Expr.allAnonymous arguments)
  | .instruction span name arguments => .instruction span name (Expr.allAnonymous arguments)

def Expr.allAnonymous : List Expr → List Expr
  | [] => []
  | e :: es => e.anonymous :: Expr.allAnonymous es

end

mutual

def Stmt.anonymous : Stmt → Stmt
  | .expression e => .expression e.anonymous
  | .declaration span vars value =>
    .declaration span (vars.map Binder.anonymous) (value.map Expr.anonymous)
  | .assignment span targets value =>
    .assignment span (targets.map Identifier.anonymous) value.anonymous
  | .conditional span condition body => .conditional span condition.anonymous body.anonymous
  | .switch span subject arms => .switch span subject.anonymous (Case.allAnonymous arms)
  | .loop span pre condition post body =>
    .loop span pre.anonymous condition.anonymous post.anonymous body.anonymous
  | .function ⟨f, body⟩ => .function ⟨f.anonymous, body.anonymous⟩
  | .block b => .block b.anonymous
  | .stack form => .stack form.anonymous

def Stmt.allAnonymous : List Stmt → List Stmt
  | [] => []
  | s :: ss => s.anonymous :: Stmt.allAnonymous ss

/--
The block with all names erased, but for those of instructions.
-/
def Block.anonymous : Block → Block
  | ⟨span, ss⟩ => ⟨span, Stmt.allAnonymous ss⟩

def Case.allAnonymous : List Case → List Case
  | [] => []
  | ⟨span, value, body⟩ :: cs => ⟨span, value, body.anonymous⟩ :: Case.allAnonymous cs

end

namespace Traversal

variable {ε σ α β : Type}

def Keeps (key : α → β) (x : EStateM ε σ α) (a : α) : Prop :=
  ∀ s, Meets x s (fun a' _ => key a' = key a) fun _ => True

structure KeepsShape (t : Traversal (EStateM ε σ)) : Prop where
  use : ∀ i, Keeps Identifier.anonymous (t.use i) i
  vars : ∀ xs, Keeps (List.map Binder.anonymous) (t.vars xs) xs
  enterFunction : ∀ f, Keeps Signature.anonymous (t.enterFunction f) f
  stackForm : ∀ form, Keeps StackForm.anonymous (t.stackForm form) form

variable {t : Traversal (EStateM ε σ)}

theorem meets_any (x : EStateM ε σ α) (s : σ) :
    Meets x s (fun _ _ => True) fun _ => True := by
  unfold Meets
  split <;> trivial

mutual

theorem KeepsShape.expr (h : t.KeepsShape) : (e : Expr) → Keeps Expr.anonymous (t.expr e) e
  | .literal l => fun s => .pure rfl
  | .identifier i => fun s => by
    unfold Traversal.expr
    apply (h.use i s).bind
    intro i' s' hi
    apply Meets.pure
    simp only [Expr.anonymous, hi]
  | .call span callee arguments => fun s => by
    unfold Traversal.expr
    apply (h.use callee s).bind
    intro callee' s' hcallee
    apply (h.exprs arguments s').bind
    intro arguments' s'' harguments
    apply Meets.pure
    simp only [Expr.anonymous, hcallee, harguments]
  | .instruction span name arguments => fun s => by
    unfold Traversal.expr
    apply (h.exprs arguments s).bind
    intro arguments' s' harguments
    apply Meets.pure
    simp only [Expr.anonymous, harguments]

theorem KeepsShape.exprs (h : t.KeepsShape) :
    (es : List Expr) → Keeps Expr.allAnonymous (t.exprs es) es
  | [] => fun s => .pure rfl
  | e :: es => fun s => by
    unfold Traversal.exprs
    apply (h.expr e s).bind
    intro e' s' he
    apply (h.exprs es s').bind
    intro es' s'' hes
    apply Meets.pure
    simp only [Expr.allAnonymous, he, hes]

end

theorem KeepsShape.optionalExpr (h : t.KeepsShape) :
    (e? : Option Expr) → Keeps (Option.map Expr.anonymous) (t.optionalExpr e?) e?
  | none => fun s => .pure rfl
  | some e => fun s => by
    unfold Traversal.optionalExpr
    apply (h.expr e s).bind
    intro e' s' he
    apply Meets.pure
    simp only [Option.map_some, he]

theorem KeepsShape.uses (h : t.KeepsShape) :
    (is : List Identifier) → Keeps (List.map Identifier.anonymous) (t.uses is) is
  | [] => fun s => .pure rfl
  | i :: is => fun s => by
    unfold Traversal.uses
    apply (h.use i s).bind
    intro i' s' hi
    apply (h.uses is s').bind
    intro is' s'' his
    apply Meets.pure
    simp only [List.map_cons, hi, his]

mutual

theorem KeepsShape.stmt (h : t.KeepsShape) : (x : Stmt) → Keeps Stmt.anonymous (t.stmt x) x
  | .expression e => fun s => by
    unfold Traversal.stmt
    apply (h.expr e s).bind
    intro e' s' he
    apply Meets.pure
    simp only [Stmt.anonymous, he]
  | .declaration span vars value => fun s => by
    unfold Traversal.stmt
    apply (h.optionalExpr value s).bind
    intro value' s' hvalue
    apply (h.vars vars s').bind
    intro vars' s'' hvars
    apply Meets.pure
    simp only [Stmt.anonymous, hvalue, hvars]
  | .assignment span targets value => fun s => by
    unfold Traversal.stmt
    apply (h.uses targets s).bind
    intro targets' s' htargets
    apply (h.expr value s').bind
    intro value' s'' hvalue
    apply Meets.pure
    simp only [Stmt.anonymous, htargets, hvalue]
  | .conditional span condition body => fun s => by
    unfold Traversal.stmt
    apply (h.expr condition s).bind
    intro condition' s' hcondition
    apply (h.block body s').bind
    intro body' s'' hbody
    apply Meets.pure
    simp only [Stmt.anonymous, hcondition, hbody]
  | .switch span subject arms => fun s => by
    unfold Traversal.stmt
    apply (h.expr subject s).bind
    intro subject' s' hsubject
    apply (h.cases arms s').bind
    intro arms' s'' harms
    apply Meets.pure
    simp only [Stmt.anonymous, hsubject, harms]
  | .loop span ⟨preSpan, pre⟩ condition post body => fun s => by
    unfold Traversal.stmt
    apply (meets_any _ s).bind
    intro _ s₁ _
    apply (h.stmts pre s₁).bind
    intro pre' s₂ hpre
    apply (h.expr condition s₂).bind
    intro condition' s₃ hcondition
    apply (h.block post s₃).bind
    intro post' s₄ hpost
    apply (h.block body s₄).bind
    intro body' s₅ hbody
    apply (meets_any _ s₅).bind
    intro _ s₆ _
    apply Meets.pure
    simp only [Stmt.anonymous, Block.anonymous, hpre, hcondition, hpost, hbody]
  | .function ⟨f, body⟩ => fun s => by
    unfold Traversal.stmt
    apply (h.enterFunction f s).bind
    intro f' s₁ hf
    apply (h.block body s₁).bind
    intro body' s₂ hbody
    apply (meets_any _ s₂).bind
    intro _ s₃ _
    apply Meets.pure
    simp only [Stmt.anonymous, hf, hbody]
  | .block b => fun s => by
    unfold Traversal.stmt
    apply (h.block b s).bind
    intro b' s' hb
    apply Meets.pure
    simp only [Stmt.anonymous, hb]
  | .stack form => fun s => by
    unfold Traversal.stmt
    apply (h.stackForm form s).bind
    intro form' s' hform
    apply Meets.pure
    simp only [Stmt.anonymous, hform]

theorem KeepsShape.stmts (h : t.KeepsShape) :
    (xs : List Stmt) → Keeps Stmt.allAnonymous (t.stmts xs) xs
  | [] => fun s => .pure rfl
  | x :: xs => fun s => by
    unfold Traversal.stmts
    apply (h.stmt x s).bind
    intro x' s' hx
    apply (h.stmts xs s').bind
    intro xs' s'' hxs
    apply Meets.pure
    simp only [Stmt.allAnonymous, hx, hxs]

theorem KeepsShape.block (h : t.KeepsShape) : (b : Block) → Keeps Block.anonymous (t.block b) b
  | ⟨span, xs⟩ => fun s => by
    unfold Traversal.block
    apply (meets_any _ s).bind
    intro _ s₁ _
    apply (h.stmts xs s₁).bind
    intro xs' s₂ hxs
    apply (meets_any _ s₂).bind
    intro _ s₃ _
    apply Meets.pure
    simp only [Block.anonymous, hxs]

theorem KeepsShape.cases (h : t.KeepsShape) :
    (cs : List Case) → Keeps Case.allAnonymous (t.cases cs) cs
  | [] => fun s => .pure rfl
  | ⟨span, value, body⟩ :: cs => fun s => by
    unfold Traversal.cases
    apply (h.block body s).bind
    intro body' s' hbody
    apply (h.cases cs s').bind
    intro cs' s'' hcs
    apply Meets.pure
    simp only [Case.allAnonymous, hbody, hcs]

end

end Traversal
end Splice
