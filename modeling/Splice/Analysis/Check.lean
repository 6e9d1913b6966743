import Splice.Analysis.Scope
import Splice.Analysis.Word

/-!
This module contains the analysis of a tree. It checks that every name has a visible meaning that
fits its use, that every call has the right number of arguments and every place the right number of
values, and that the literals fit into a machine word.
-/

namespace Splice

namespace Env

def literal (l : Literal) : Report :=
  match l.kind with
  | .number =>
    match Literal.number? l.text with
    | some n => .onlyIf (wordCount ≤ n) (.fault (.numberTooLarge l.text) l.span)
    | none => .fault (.invalidNumber l.text) l.span
  | .string =>
    .onlyIf (wordBytes < (Literal.bytes l.text).length) (.fault (.stringTooLong wordBytes) l.span)
  | .boolean => .empty

def unknown (i : Identifier) : Report :=
  .fault (.unknownIdentifier i.name) i.span

def hidden (i : Identifier) (b : Binding) : Report :=
  .ofDiagnostic (((AnalysisFault.hiddenVariable i.name).diagnostic i.span).withNote
    "declared here" b.span)

def value (env : Env) (i : Identifier) : Option Nat × Report :=
  match env.lookup i.name with
  | .found ⟨.variable, _⟩ => (some 1, .empty)
  | .found _ => (none, .fault (.notAValue i.name) i.span)
  | .hidden b => (none, hidden i b)
  | .missing => (none, unknown i)

def target (env : Env) (i : Identifier) : Report :=
  match env.lookup i.name with
  | .found ⟨.variable, _⟩ => .empty
  | .found _ => .fault (.notAssignable i.name) i.span
  | .hidden b => hidden i b
  | .missing => unknown i

def targets (env : Env) : List Identifier → Report
  | [] => .empty
  | i :: is => env.target i ++ env.targets is

def argumentCount (name : String) (span : Span) (expected found : Nat) : Report :=
  .onlyIf (expected ≠ found) (.fault (.argumentCount name expected found) span)

def callee (env : Env) (span : Span) (i : Identifier) (arguments : Nat) : Option Nat × Report :=
  match env.lookup i.name with
  | .found ⟨.function parameters returns, _⟩ =>
    (some returns, argumentCount i.name span parameters arguments)
  | .missing => (none, unknown i)
  | _ => (none, .fault (.notAFunction i.name) i.span)

def instruction (span : Span) (name : String) (arguments : Nat) : Option Nat × Report :=
  match Instruction.find? name with
  | some i => (some i.returns, argumentCount name span i.arguments arguments)
  | none => (none, .fault (.unknownInstruction name) span)

/--
Checks that an expression yields as many values as are expected. Where an error left their number
unknown there is nothing to check.
-/
def valueCount (span : Span) (expected : Nat) (found? : Option Nat) : Report :=
  match found? with
  | some found => .onlyIf (found ≠ expected) (.fault (.valueCount expected found) span)
  | none => .empty

mutual

def expr (env : Env) : Expr → Option Nat × Report
  | .literal l => (some 1, literal l)
  | .identifier i => env.value i
  | .call span i arguments =>
    let (found?, r) := env.callee span i arguments.length
    (found?, env.arguments arguments ++ r)
  | .instruction span name arguments =>
    let (found?, r) := instruction span name arguments.length
    (found?, env.arguments arguments ++ r)

def arguments (env : Env) : List Expr → Report
  | [] => .empty
  | e :: es =>
    let (found?, r) := env.expr e
    r ++ valueCount e.span 1 found? ++ env.arguments es

end

def expect (env : Env) (e : Expr) (expected : Nat) : Report :=
  let (found?, r) := env.expr e
  r ++ valueCount e.span expected found?

def unused (env : Env) (e : Expr) : Report :=
  let (found?, r) := env.expr e
  match found? with
  | some found => r ++ .onlyIf (found ≠ 0) (.fault (.unusedValues found) e.span)
  | none => r

def initialiser (env : Env) (expected : Nat) : Option Expr → Report
  | some e => env.expect e expected
  | none => .empty

def stackForm (env : Env) (form : StackForm) : Report :=
  if env.dialect.stackForms then
    match form with
    | .label .. => .empty
    | .assignment _ i => env.target i
    | .instruction span name =>
      .onlyIf (!Instruction.isName name) (.fault (.unknownInstruction name) span)
  else
    .fault (.unsupportedForm form.kind) form.span

abbrev SeenCases := List (Nat × Span)

def caseValue (seen : SeenCases) (l : Literal) : SeenCases × Report :=
  match l.value? with
  | none => (seen, .empty)
  | some n =>
    match seen.lookup n with
    | none => ((n, l.span) :: seen, .empty)
    | some previous =>
      let d := (AnalysisFault.duplicateCase l.text).diagnostic l.span
      ((n, l.span) :: seen, .ofDiagnostic (d.withNote "first used here" previous))

def caseHead (seen : SeenCases) : Option Literal → SeenCases × Report
  | none => (seen, .empty)
  | some l =>
    let (seen, r) := caseValue seen l
    (seen, literal l ++ r)

def defaults (span : Span) (cases : List Case) : Report :=
  .onlyIf (1 < cases.countP fun c => c.value.isNone) (.fault .severalDefaults span)

mutual

def stmt (env : Env) : Stmt → Env × Report
  | .expression e => (env, env.unused e)
  | .declaration _ vars value =>
    let first := env.initialiser vars.length value
    let (env, others) := env.declareTogether [] vars
    (env, first ++ others)
  | .assignment _ is value => (env, env.expect value is.length ++ env.targets is)
  | .conditional _ condition body => (env, env.expect condition 1 ++ env.block body)
  | .switch span subject arms =>
    (env, env.expect subject 1 ++ env.cases [] arms ++ defaults span arms)
  | .loop _ ⟨_, pre⟩ condition post body =>
    let (inner, first) := (env.enter false).hoist pre
    let (inner, second) := inner.stmts pre
    (env, first ++ second ++ inner.expect condition 1 ++ inner.block post ++ inner.block body)
  | .function ⟨f, body⟩ =>
    let (inner, first) := (env.enter true).declareAll (f.parameters ++ f.returns)
    (env, first ++ inner.block body)
  | .block b => (env, env.block b)
  | .stack form => (env, env.stackForm form)

def stmts (env : Env) : List Stmt → Env × Report
  | [] => (env, .empty)
  | s :: ss =>
    let (env, first) := env.stmt s
    let (env, others) := env.stmts ss
    (env, first ++ others)

def block (env : Env) : Block → Report
  | ⟨_, ss⟩ =>
    let (inner, first) := (env.enter false).hoist ss
    let (_, others) := inner.stmts ss
    first ++ others

def cases (env : Env) (seen : SeenCases) : List Case → Report
  | [] => .empty
  | ⟨_, value, body⟩ :: cs =>
    let (seen, head) := caseHead seen value
    head ++ env.block body ++ env.cases seen cs

end

end Env

end Splice
