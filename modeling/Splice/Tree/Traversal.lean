import Splice.Tree.Basic

/-!
This module contains the one way in which a tree is copied. A `Traversal` says what happens at the
names and scopes that the copy comes across, everything else is copied as it is. The order is that
of the source, except that the variables of a declaration come after its value.
-/

namespace Splice

structure Traversal (m : Type → Type) where
  use : Identifier → m Identifier
  /--
  The variables of a declaration, after its value was copied.
  -/
  vars : List Binder → m (List Binder)
  /--
  The head of a function, before its body is copied.
  -/
  enterFunction : Signature → m Signature
  leaveFunction : m Unit
  /--
  Before the statements of a block are copied. The first block of a loop stays entered until the
  whole loop was copied.
  -/
  enterBlock : List Stmt → m Unit
  leaveBlock : m Unit
  stackForm : StackForm → m StackForm

namespace Traversal

variable {m : Type → Type} [Monad m]

def useInStackForm (use : Identifier → m Identifier) : StackForm → m StackForm
  | .assignment span target => return .assignment span (← use target)
  | form => pure form

def ofUse (use : Identifier → m Identifier) : Traversal m where
  use := use
  vars := pure
  enterFunction := pure
  leaveFunction := pure ()
  enterBlock _ := pure ()
  leaveBlock := pure ()
  stackForm := useInStackForm use

mutual

def expr (t : Traversal m) : Expr → m Expr
  | .literal l => pure (.literal l)
  | .identifier i => return .identifier (← t.use i)
  | .call span callee arguments => do
    let callee ← t.use callee
    let arguments ← t.exprs arguments
    return .call span callee arguments
  | .instruction span name arguments => do
    let arguments ← t.exprs arguments
    return .instruction span name arguments

def exprs (t : Traversal m) : List Expr → m (List Expr)
  | [] => pure []
  | e :: es => do
    let e ← t.expr e
    let es ← t.exprs es
    return e :: es

end

def optionalExpr (t : Traversal m) : Option Expr → m (Option Expr)
  | none => pure none
  | some e => return some (← t.expr e)

def uses (t : Traversal m) : List Identifier → m (List Identifier)
  | [] => pure []
  | i :: is => do
    let i ← t.use i
    let is ← t.uses is
    return i :: is

mutual

def stmt (t : Traversal m) : Stmt → m Stmt
  | .expression e => return .expression (← t.expr e)
  | .declaration span vars value => do
    let value ← t.optionalExpr value
    let vars ← t.vars vars
    return .declaration span vars value
  | .assignment span targets value => do
    let targets ← t.uses targets
    let value ← t.expr value
    return .assignment span targets value
  | .conditional span condition body => do
    let condition ← t.expr condition
    let body ← t.block body
    return .conditional span condition body
  | .switch span subject cases => do
    let subject ← t.expr subject
    let cases ← t.cases cases
    return .switch span subject cases
  | .loop span ⟨preSpan, preStatements⟩ condition post body => do
    t.enterBlock preStatements
    let preStatements ← t.stmts preStatements
    let condition ← t.expr condition
    let post ← t.block post
    let body ← t.block body
    t.leaveBlock
    return .loop span ⟨preSpan, preStatements⟩ condition post body
  | .function ⟨signature, body⟩ => do
    let signature ← t.enterFunction signature
    let body ← t.block body
    t.leaveFunction
    return .function ⟨signature, body⟩
  | .block b => return .block (← t.block b)
  | .stack form => return .stack (← t.stackForm form)

def stmts (t : Traversal m) : List Stmt → m (List Stmt)
  | [] => pure []
  | s :: ss => do
    let s ← t.stmt s
    let ss ← t.stmts ss
    return s :: ss

def block (t : Traversal m) : Block → m Block
  | ⟨span, statements⟩ => do
    t.enterBlock statements
    let statements ← t.stmts statements
    t.leaveBlock
    return ⟨span, statements⟩

def cases (t : Traversal m) : List Case → m (List Case)
  | [] => pure []
  | ⟨span, value, body⟩ :: cs => do
    let body ← t.block body
    let cs ← t.cases cs
    return ⟨span, value, body⟩ :: cs

end

end Traversal

namespace Block

def mapUses (f : String → String) (b : Block) : Block :=
  Id.run <| (Traversal.ofUse fun i => pure { i with name := f i.name }).block b

inductive Visit where
  | use (name : String) (place : Position)
  | enter (statements : Nat)
  | leave
deriving DecidableEq, Repr

def recorder (f : String → String) : Traversal (StateM (List Visit)) :=
  { Traversal.ofUse (note f) with
    enterBlock := fun statements => modify (· ++ [.enter statements.length])
    leaveBlock := modify (· ++ [.leave]) }
where
  note (f : String → String) (i : Identifier) : StateM (List Visit) Identifier := do
    modify (· ++ [.use i.name i.span.start])
    return { i with name := f i.name }

def visits (f : String → String) (b : Block) : Block × List Visit :=
  ((recorder f).block b).run []

end Block
end Splice
