import Splice.Analysis.Check
import Splice.Proofs.Tree.Parts

/-!
This module contains the rules of the language, apart from the analysis that checks them and from
the messages that it gives. They are in two parts: what a use of a name or a value has to fulfil
(`Valid`), and what the declaration of a name has to fulfil (`DeclaresNew`). The first part stays
true where more names are visible, the second one does not.
-/

namespace Splice

@[ext]
structure Head where
  name : String
  parameters : Nat
  returns : Nat
deriving DecidableEq, Repr

def Signature.head (f : Signature) : Head :=
  ⟨f.name, f.parameters.length, f.returns.length⟩

structure Context where
  external : List String
  /--
  The names of the host that may be assigned.
  -/
  assignable : List String
  stackForms : Bool
  /--
  Whether there may be assignments without a target. No source text has one.
  -/
  targetless : Bool
  vars : List String
  functions : List Head
  labels : List String

namespace Context

variable (c : Context)

def Readable (x : String) : Prop := x ∈ c.vars ∨ x ∈ c.external

def Assignable (x : String) : Prop := x ∈ c.vars ∨ x ∈ c.assignable

def Declarable (x : String) : Prop :=
  x ∉ c.vars ∧ x ∉ c.functions.map Head.name ∧ x ∉ c.labels ∧ x ∉ c.external ∧
  Instruction.isName x = false

def addVariable (x : String) : Context := { c with vars := x :: c.vars }

def addFunction (f : Head) : Context := { c with functions := f :: c.functions }

def addLabel (name : String) : Context := { c with labels := name :: c.labels }

def declare (c : Context) : List Binder → Context
  | [] => c
  | x :: xs => (c.addVariable x.name).declare xs

/--
At the body of a function with the given parameters and return variables. The variables around the
function are not visible there.
-/
def enterFunction (xs : List Binder) : Context := { c with vars := [] }.declare xs

def announce : Stmt → Context
  | .function ⟨f, _⟩ => c.addFunction f.head
  | .stack (.label _ name) => c.addLabel name
  | _ => c

def enter (c : Context) : List Stmt → Context
  | [] => c
  | s :: ss => (c.announce s).enter ss

end Context

def Context.after (c : Context) : List Stmt → Context
  | [] => c
  | s :: ss => (c.declare s.declared).after ss

def Literal.Valid (l : Literal) : Prop := (Env.literal l).diagnostics = []

def Case.HeadsValid (heads : List (Option Literal)) : Prop :=
  (∀ l, some l ∈ heads → l.Valid) ∧ ((heads.filterMap id).filterMap Literal.value?).Nodup ∧
  heads.countP Option.isNone ≤ 1

/-! ## Uses -/

mutual

/--
The expression keeps to the rules and yields the given number of values.
-/
def Expr.Yields (c : Context) : Expr → Nat → Prop
  | .literal l, n => l.Valid ∧ n = 1
  | .identifier i, n => c.Readable i.name ∧ n = 1
  | .call _ callee arguments, n =>
    ⟨callee.name, arguments.length, n⟩ ∈ c.functions ∧ Expr.AllSingle c arguments
  | .instruction _ name arguments, n =>
    (∃ i, Instruction.find? name = some i ∧ i.arguments = arguments.length ∧ i.returns = n) ∧
    Expr.AllSingle c arguments

def Expr.AllSingle (c : Context) : List Expr → Prop
  | [] => True
  | e :: es => e.Yields c 1 ∧ Expr.AllSingle c es

end

def StackForm.Valid (c : Context) : StackForm → Prop
  | .label .. => True
  | .assignment _ i => c.Assignable i.name
  | .instruction _ name => Instruction.isName name = true

mutual

/--
What the statement uses is visible, fits, and yields as many values as its place takes.
-/
def Stmt.Valid (c : Context) : Stmt → Prop
  | .expression e => e.Yields c 0
  | .declaration _ _ none => True
  | .declaration _ vars (some value) => value.Yields c vars.length
  | .assignment _ targets value =>
    value.Yields c targets.length ∧ (∀ i ∈ targets, c.Assignable i.name) ∧
    (targets = [] → c.targetless = true)
  | .conditional _ condition body => condition.Yields c 1 ∧ body.Valid c
  | .switch _ subject arms =>
    subject.Yields c 1 ∧ Case.AllValid c arms ∧ Case.HeadsValid (arms.map Case.value)
  | .loop _ ⟨_, pre⟩ condition post body =>
    Stmt.AllValid (c.enter pre) pre ∧ condition.Yields ((c.enter pre).after pre) 1 ∧
    post.Valid ((c.enter pre).after pre) ∧ body.Valid ((c.enter pre).after pre)
  | .function ⟨f, body⟩ => body.Valid (c.enterFunction (f.parameters ++ f.returns))
  | .block b => b.Valid c
  | .stack form => c.stackForms = true ∧ form.Valid c

def Stmt.AllValid (c : Context) : List Stmt → Prop
  | [] => True
  | s :: ss => s.Valid c ∧ Stmt.AllValid (c.declare s.declared) ss

def Block.Valid (c : Context) : Block → Prop
  | ⟨_, ss⟩ => Stmt.AllValid (c.enter ss) ss

def Case.AllValid (c : Context) : List Case → Prop
  | [] => True
  | ⟨_, _, body⟩ :: cs => body.Valid c ∧ Case.AllValid c cs

end

/-! ## Declarations -/

namespace Context

def AllDeclarable (c : Context) : List Binder → Prop
  | [] => True
  | x :: xs => c.Declarable x.name ∧ (c.addVariable x.name).AllDeclarable xs

def CanAnnounce (c : Context) : Stmt → Prop
  | .function ⟨f, _⟩ => c.Declarable f.name
  | .stack (.label _ name) => c.Declarable name
  | _ => True

def CanEnter (c : Context) : List Stmt → Prop
  | [] => True
  | s :: ss => c.CanAnnounce s ∧ (c.announce s).CanEnter ss

end Context

mutual

/--
No name that the statement declares has a visible meaning where it is declared.
-/
def Stmt.DeclaresNew (c : Context) : Stmt → Prop
  | .expression _ => True
  | .declaration _ vars _ => c.AllDeclarable vars
  | .assignment .. => True
  | .conditional _ _ body => body.DeclaresNew c
  | .switch _ _ arms => Case.AllDeclareNew c arms
  | .loop _ ⟨_, pre⟩ _ post body =>
    c.CanEnter pre ∧ Stmt.AllDeclareNew (c.enter pre) pre ∧
    post.DeclaresNew ((c.enter pre).after pre) ∧ body.DeclaresNew ((c.enter pre).after pre)
  | .function ⟨f, body⟩ =>
    { c with vars := [] }.AllDeclarable (f.parameters ++ f.returns) ∧
    body.DeclaresNew (c.enterFunction (f.parameters ++ f.returns))
  | .block b => b.DeclaresNew c
  | .stack _ => True

def Stmt.AllDeclareNew (c : Context) : List Stmt → Prop
  | [] => True
  | s :: ss => s.DeclaresNew c ∧ Stmt.AllDeclareNew (c.declare s.declared) ss

def Block.DeclaresNew (c : Context) : Block → Prop
  | ⟨_, ss⟩ => c.CanEnter ss ∧ Stmt.AllDeclareNew (c.enter ss) ss

def Case.AllDeclareNew (c : Context) : List Case → Prop
  | [] => True
  | ⟨_, _, body⟩ :: cs => body.DeclaresNew c ∧ Case.AllDeclareNew c cs

end

end Splice
