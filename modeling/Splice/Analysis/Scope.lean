import Splice.Analysis.Fault
import Splice.Dialect
import Splice.Tree.Basic

/-!
This module contains the scopes of a program: what is declared where, and what a name means. A
function sees the functions around it, but not the variables around it.
-/

namespace Splice

inductive Meaning where
  | variable
  | function (parameters returns : Nat)
  | label
deriving DecidableEq, Repr

structure Binding where
  meaning : Meaning
  span : Span
deriving DecidableEq, Repr

/--
The names of one scope. If it is the one of the parameters of a function, it hides the variables of
the scopes around it.
-/
structure Scope where
  bindings : List (String × Binding)
  ofFunction : Bool

inductive Lookup where
  | found (b : Binding)
  | hidden (b : Binding)
  | missing

namespace Lookup

def fromFunction : Lookup → Lookup
  | found ⟨.variable, span⟩ => hidden ⟨.variable, span⟩
  | l => l

end Lookup

structure Env where
  dialect : Dialect
  external : List String
  scopes : List Scope

namespace Env

def lookupIn (name : String) : List Scope → Lookup
  | [] => .missing
  | scope :: outer =>
    match scope.bindings.lookup name with
    | some b => .found b
    | none => if scope.ofFunction then (lookupIn name outer).fromFunction else lookupIn name outer

def lookup (env : Env) (name : String) : Lookup :=
  match lookupIn name env.scopes with
  | .missing => if env.external.contains name then .found ⟨.variable, .none⟩ else .missing
  | l => l

def enter (env : Env) (ofFunction : Bool) : Env :=
  { env with scopes := ⟨[], ofFunction⟩ :: env.scopes }

def insert (env : Env) (name : String) (b : Binding) : Env :=
  match env.scopes with
  | [] => env
  | scope :: outer =>
    { env with scopes := { scope with bindings := (name, b) :: scope.bindings } :: outer }

end Env

/--
What the analysis has to say of a part of a program: what is wrong with it, and how many names it
declares.
-/
structure Report where
  diagnostics : List Diagnostic
  declarations : Nat

namespace Report

def empty : Report := ⟨[], 0⟩

def append (r s : Report) : Report :=
  ⟨r.diagnostics ++ s.diagnostics, r.declarations + s.declarations⟩

instance : Append Report := ⟨append⟩

def ofDiagnostic (d : Diagnostic) : Report := ⟨[d], 0⟩

def fault (f : AnalysisFault) (span : Span) : Report := ofDiagnostic (f.diagnostic span)

def onlyIf (condition : Bool) (r : Report) : Report := if condition then r else empty

end Report

namespace Env

/--
Declares `name`. The name of an instruction cannot be declared, and neither can a name with a
visible meaning.
-/
def declare (env : Env) (name : String) (b : Binding) : Env × Report :=
  if Instruction.isName name then
    (env, .fault (.instructionDeclared name) b.span)
  else
    match env.lookup name with
    | .found previous =>
      let d := (AnalysisFault.alreadyDeclared name).diagnostic b.span
      (env, .ofDiagnostic (d.withNote "previous declaration" previous.span))
    | _ => (env.insert name b, ⟨[], 1⟩)

def declareAll (env : Env) : List Binder → Env × Report
  | [] => (env, .empty)
  | x :: xs =>
    let (env, first) := env.declare x.name ⟨.variable, x.span⟩
    let (env, others) := env.declareAll xs
    (env, first ++ others)

def declareTogether (env : Env) (seen : List String) : List Binder → Env × Report
  | [] => (env, .empty)
  | x :: xs =>
    if seen.contains x.name then
      let (env, others) := env.declareTogether seen xs
      (env, .fault (.declaredTwice x.name) x.span ++ others)
    else
      let (env, first) := env.declare x.name ⟨.variable, x.span⟩
      let (env, others) := env.declareTogether (x.name :: seen) xs
      (env, first ++ others)

def hoist (env : Env) : List Stmt → Env × Report
  | [] => (env, .empty)
  | s :: ss =>
    let (env, first) :=
      match s with
      | .function ⟨f, _⟩ =>
        env.declare f.name ⟨.function f.parameters.length f.returns.length, f.span⟩
      | .stack (.label span name) => env.declare name ⟨.label, span⟩
      | _ => (env, .empty)
    let (env, others) := env.hoist ss
    (env, first ++ others)

end Env
end Splice
