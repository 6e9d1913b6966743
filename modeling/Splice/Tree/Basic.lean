import Splice.Span

/-!
This module contains the tree of a program. Every node knows the part of the source it was read
from. A node that a pass adds has the span of what it stands for.
-/

namespace Splice

structure Binder where
  span : Span
  name : String
  type : Option String
deriving DecidableEq, Repr

structure Identifier where
  span : Span
  name : String
deriving DecidableEq, Repr

inductive LiteralKind where
  | number
  | boolean
  | string
deriving DecidableEq, Repr

/--
A literal. The text of a string is what it stands for, without quotes and escapes.
-/
structure Literal where
  span : Span
  kind : LiteralKind
  text : String
  type : Option String
deriving DecidableEq, Repr

inductive Expr where
  | literal (l : Literal)
  | identifier (i : Identifier)
  | call (span : Span) (callee : Identifier) (arguments : List Expr)
  | instruction (span : Span) (name : String) (arguments : List Expr)
deriving Inhabited

namespace Expr

def span : Expr → Span
  | literal l => l.span
  | identifier i => i.span
  | call span _ _ => span
  | instruction span _ _ => span

end Expr

/--
The statements that work on the stack of the host machine. Only the loose dialect has them, and no
pass supports them.
-/
inductive StackForm where
  | label (span : Span) (name : String)
  | assignment (span : Span) (target : Identifier)
  | instruction (span : Span) (name : String)
deriving DecidableEq, Repr

namespace StackForm

def span : StackForm → Span
  | label span _ => span
  | assignment span _ => span
  | instruction span _ => span

def kind : StackForm → String
  | label .. => "label"
  | assignment .. => "stack assignment"
  | instruction .. => "bare instruction"

end StackForm

structure Signature where
  span : Span
  name : String
  parameters : List Binder
  returns : List Binder
deriving DecidableEq, Repr

mutual

inductive Stmt where
  | expression (e : Expr)
  | declaration (span : Span) (vars : List Binder) (value : Option Expr)
  | assignment (span : Span) (targets : List Identifier) (value : Expr)
  | conditional (span : Span) (condition : Expr) (body : Block)
  | switch (span : Span) (subject : Expr) (cases : List Case)
  /--
  A loop. What `pre` declares stays visible in the condition, in `post` and in `body`.
  -/
  | loop (span : Span) (pre : Block) (condition : Expr) (post : Block) (body : Block)
  | function (definition : Function)
  | block (b : Block)
  | stack (form : StackForm)

structure Block where
  span : Span
  statements : List Stmt

/--
An arm of a switch. The arm without a value is the default.
-/
structure Case where
  span : Span
  value : Option Literal
  body : Block

structure Function extends Signature where
  body : Block

end

namespace Stmt

def span : Stmt → Span
  | expression e => e.span
  | declaration span _ _ => span
  | assignment span _ _ => span
  | conditional span _ _ => span
  | switch span _ _ => span
  | loop span _ _ _ _ => span
  | function definition => definition.span
  | block b => b.span
  | stack form => form.span

def kind : Stmt → String
  | expression _ => "expression statement"
  | declaration .. => "variable declaration"
  | assignment .. => "assignment"
  | conditional .. => "if statement"
  | switch .. => "switch statement"
  | loop .. => "for loop"
  | function _ => "function definition"
  | block _ => "block"
  | stack form => form.kind

end Stmt
end Splice
