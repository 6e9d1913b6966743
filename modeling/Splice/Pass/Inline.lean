import Splice.Analysis
import Splice.Pass.BodyCopy
import Splice.Pass.Event
import Splice.Pass.Movable
import Splice.Tree.Functions
import Splice.Tree.Names

/-!
This module contains the pass that replaces calls of functions by the bodies of those functions. It
relies on every binding having a name of its own. Arguments are evaluated from right to left.

The bodies are those of the program in front of the pass, so that a copied body is not looked at
again in the same run. A call stays where it is in the condition of a loop, which is evaluated more
than once, and in the body of the function that it calls.
-/

namespace Splice

namespace Inlining

structure Setting where
  dialect : Dialect
  program : Block
  enclosing : List String

structure State where
  supply : Supply
  inlined : List (String × Nat)
  hoisted : Nat

abbrev Pass := EStateM Failure State

namespace Setting

def target? (s : Setting) (name : String) : Option Function :=
  if s.enclosing.contains name then none else s.program.function? name

def within (s : Setting) (name : String) : Setting :=
  { s with enclosing := name :: s.enclosing }

end Setting

structure Staged where
  before : List Stmt
  expr : Expr

def fresh (label : String) : Pass String :=
  modifyGet fun s =>
    let (name, supply) := s.supply.fresh label
    (name, { s with supply := supply })

def zeroDeclaration (span : Span) (x : Binder) : Stmt :=
  .declaration span [x] (some (.literal ⟨x.span, .number, "0", x.type⟩))

def checkReturns (f : Function) (expected : Nat) (span : Span) : Pass Unit :=
  if f.returns.length = expected then
    return
  else
    throw (.arityMismatch f.name expected f.returns.length span)

def checkArguments (f : Function) (found : Nat) (span : Span) : Pass Unit :=
  if f.parameters.length = found then
    return
  else
    throw (.arityMismatch f.name f.parameters.length found span)

def slots (callee : String) (span : Span) : List Binder → Pass (List Binder)
  | [] => return []
  | x :: xs => do
    let name ← fresh (callee ++ "_" ++ x.name)
    let others ← slots callee span xs
    return ⟨span, name, x.type⟩ :: others

/--
Moves the arguments of a call of `callee` into fresh variables, from right to left. Returns the
statements that do it, and what the parameters become.
-/
def bindArguments (callee : String) (span : Span) :
    List (Binder × Staged) → Pass (List Stmt × List (String × String))
  | [] => return ([], [])
  | (parameter, argument) :: rest => do
    let (statements, replacements) ← bindArguments callee span rest
    let name ← fresh (callee ++ "_" ++ parameter.name)
    let x : Binder := ⟨argument.expr.span, name, parameter.type⟩
    let moved := Stmt.declaration span [x] (some argument.expr)
    return (statements ++ argument.before ++ [moved], (parameter.name, name) :: replacements)

def instantiate (f : Function) (replacements : List (String × String)) (targets : List String) :
    Pass Block := fun s =>
  let returns := (f.returns.map Binder.name).zip targets
  match copyBody (f.name ++ "_") (returns.reverse ++ replacements) f.body s.supply with
  | .ok body supply => .ok body { s with supply := supply }
  | .error e supply => .error e { s with supply := supply }

/--
Replaces a call of `f` with `count` arguments, which `staged` goes through. The values returned go
to `targets`. Returns the statements that move the arguments, and the body.
-/
def expandCall (f : Function) (span : Span) (count : Nat) (staged : Pass (List Staged))
    (targets : List String) : Pass (List Stmt × Block) := do
  checkArguments f count span
  let arguments ← staged
  let (before, replacements) ← bindArguments f.name span (f.parameters.zip arguments)
  let body ← instantiate f replacements targets
  modify fun s => { s with inlined := s.inlined ++ [(f.name, span.start.line)] }
  return (before, ⟨span, body.statements⟩)

/--
Puts together what has to run before the arguments of a call of `callee` that stays. Where something
has to run before an argument further left (`earlier`), an argument that is not movable is evaluated
in front of that, in a variable.
-/
def hoistArguments (dialect : Dialect) (callee : String) :
    (earlier : Bool) → List Staged → Pass (List Stmt × List Expr)
  | _, [] => return ([], [])
  | earlier, r :: rs => do
    let (statements, es) ← hoistArguments dialect callee (earlier || !r.before.isEmpty) rs
    if earlier && !r.expr.isMovable then
      let span := r.expr.span
      let name ← fresh (callee ++ "_arg")
      modify fun s => { s with hoisted := s.hoisted + 1 }
      let moved := Stmt.declaration span [⟨span, name, dialect.defaultType⟩] (some r.expr)
      return (statements ++ r.before ++ [moved], .identifier ⟨span, name⟩ :: es)
    else
      return (statements ++ r.before, r.expr :: es)

mutual

def expr (s : Setting) : Expr → Pass Staged
  | .literal l => return ⟨[], .literal l⟩
  | .identifier i => return ⟨[], .identifier i⟩
  | .instruction span name arguments => do
    let staged ← exprs s arguments
    let (before, arguments) ← hoistArguments s.dialect name false staged
    return ⟨before, .instruction span name arguments⟩
  | .call span callee arguments => do
    match s.target? callee.name with
    | none =>
      let staged ← exprs s arguments
      let (before, arguments) ← hoistArguments s.dialect callee.name false staged
      return ⟨before, .call span callee arguments⟩
    | some f =>
      checkReturns f 1 span
      let xs ← slots f.name span f.returns
      let (before, body) ←
        expandCall f span arguments.length (exprs s arguments) (xs.map Binder.name)
      let before := before ++ xs.map (zeroDeclaration span) ++ [.block body]
      match xs with
      | x :: _ => return ⟨before, .identifier ⟨span, x.name⟩⟩
      | [] => return ⟨before, .call span callee []⟩

def exprs (s : Setting) : List Expr → Pass (List Staged)
  | [] => return []
  | e :: es => do
    let others ← exprs s es
    let first ← expr s e
    return first :: others

end

structure Target where
  f : Function
  span : Span
  callee : Identifier
  arguments : List Expr

def Setting.call? (s : Setting) : Expr → Option Target
  | .call span callee arguments => (s.target? callee.name).map fun f => ⟨f, span, callee, arguments⟩
  | _ => none

def expand (s : Setting) (c : Target) (targets : List String) : Pass (List Stmt × Block) :=
  expandCall c.f c.span c.arguments.length (exprs s c.arguments) targets

abbrev StagedStmt := List Stmt × Stmt

def expressionStmt (s : Setting) (e : Expr) : Pass StagedStmt := do
  match s.call? e with
  | none =>
    let r ← expr s e
    return (r.before, .expression r.expr)
  | some c =>
    let xs ← slots c.f.name c.span c.f.returns
    let (before, body) ← expand s c (xs.map Binder.name)
    return (before ++ xs.map (zeroDeclaration c.span), .block body)

def declarationStmt (s : Setting) (span : Span) (vars : List Binder) (value : Expr) :
    Pass StagedStmt := do
  match s.call? value with
  | none =>
    let r ← expr s value
    return (r.before, .declaration span vars (some r.expr))
  | some c =>
    checkReturns c.f vars.length c.span
    let (before, body) ← expand s c (vars.map Binder.name)
    return (before ++ vars.map (zeroDeclaration span), .block body)

/--
The targets of an assignment keep their values until the body is done, so the values go through
variables of their own.
-/
def assignmentStmt (s : Setting) (span : Span) (targets : List Identifier) (value : Expr) :
    Pass StagedStmt := do
  match s.call? value with
  | none =>
    let r ← expr s value
    return (r.before, .assignment span targets r.expr)
  | some c =>
    checkReturns c.f targets.length c.span
    let xs ← slots c.f.name c.span c.f.returns
    let (before, body) ← expand s c (xs.map Binder.name)
    let before := before ++ xs.map (zeroDeclaration c.span) ++ [.block body]
    let copies := (targets.zip xs).map fun (target, x) =>
      Stmt.assignment span [target] (.identifier ⟨c.span, x.name⟩)
    match copies.getLast? with
    | some last => return (before ++ copies.dropLast, last)
    | none => return (before, .assignment span targets (.call c.span c.callee []))

mutual

def stmt (s : Setting) : Stmt → Pass StagedStmt
  | .expression e => expressionStmt s e
  | .declaration span vars none => return ([], .declaration span vars none)
  | .declaration span vars (some value) => declarationStmt s span vars value
  | .assignment span targets value => assignmentStmt s span targets value
  | .conditional span condition body => do
    let r ← expr s condition
    let body ← block s body
    return (r.before, .conditional span r.expr body)
  | .switch span subject arms => do
    let r ← expr s subject
    let arms ← cases s arms
    return (r.before, .switch span r.expr arms)
  | .loop span pre condition post body => do
    let pre ← block s pre
    let post ← block s post
    let body ← block s body
    return ([], .loop span pre condition post body)
  | .function ⟨f, body⟩ => do
    let body ← block (s.within f.name) body
    return ([], .function ⟨f, body⟩)
  | .block b => return ([], .block (← block s b))
  | .stack form => throw (.unsupported form)

def stmts (s : Setting) : List Stmt → Pass (List Stmt)
  | [] => return []
  | x :: xs => do
    let (before, first) ← stmt s x
    let others ← stmts s xs
    return before ++ first :: others

def block (s : Setting) : Block → Pass Block
  | ⟨span, ss⟩ => return ⟨span, ← stmts s ss⟩

def cases (s : Setting) : List Case → Pass (List Case)
  | [] => return []
  | ⟨span, value, body⟩ :: cs => do
    let body ← block s body
    let others ← cases s cs
    return ⟨span, value, body⟩ :: others

end

namespace State

def initial (info : Info) (b : Block) : State where
  supply := .ofNames (b.boundNames ++ info.external)
  inlined := []
  hoisted := 0

def events (s : State) : List Event :=
  s.inlined.map fun c => .callInlined c.1 c.2

end State

def run (info : Info) (b : Block) : EStateM.Result Failure State Block :=
  block ⟨info.dialect, b, []⟩ b (.initial info b)

end Inlining

def fullInline (info : Info) (b : Block) : Except Failure (Block × Nat) :=
  match Inlining.run info b with
  | .ok b s => .ok (b, s.inlined.length)
  | .error e _ => .error e

def fullInlineTraced (info : Info) (b : Block) : Traced (Block × Nat) :=
  match Inlining.run info b with
  | .ok b s =>
    ⟨s.events ++ [.inliningFinished s.inlined.length s.hoisted], .ok (b, s.inlined.length)⟩
  | .error e s => ⟨s.events, .error e⟩

end Splice
