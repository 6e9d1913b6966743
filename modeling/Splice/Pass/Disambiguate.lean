import Splice.Analysis
import Splice.Names.Supply
import Splice.Pass.Event
import Splice.Tree.Names
import Splice.Tree.Traversal

/-!
This module contains the pass that gives every binding a name of its own. The first binding of a
name keeps it, all later ones get fresh names. The bindings of a block are its functions, in front
of everything else, and then its variables where they are declared. Nothing but names changes.
-/

namespace Splice

namespace Disambiguation

abbrev Renames := List (String × String)

structure State where
  supply : Supply
  taken : List String
  scopes : List Renames
  bindings : Nat
  /--
  The bindings that got another name, in order: the old name and the new one.
  -/
  renamed : Renames

namespace State

def initial (info : Info) (b : Block) : State where
  supply := .ofNames (b.boundNames ++ info.external)
  taken := info.external
  scopes := []
  bindings := 0
  renamed := []

def record (s : State) (before after : String) : State :=
  match s.scopes with
  | [] => s
  | scope :: outer => { s with scopes := ((before, after) :: scope) :: outer }

def bind (s : State) (name : String) : String × State :=
  let s := { s with bindings := s.bindings + 1 }
  if name ∈ s.taken then
    let (fresh, supply) := s.supply.fresh name
    let s := { s with
      supply := supply
      taken := fresh :: s.taken
      renamed := s.renamed ++ [(name, fresh)] }
    (fresh, s.record name fresh)
  else
    (name, { s with taken := name :: s.taken }.record name name)

def lookup (s : State) (name : String) : Option String :=
  s.scopes.findSome? (List.lookup name)

def lookupHere (s : State) (name : String) : Option String :=
  s.scopes.head?.bind (List.lookup name)

def enter (s : State) : State :=
  { s with scopes := [] :: s.scopes }

def leave (s : State) : State :=
  { s with scopes := s.scopes.tail }

def events (s : State) : List Event :=
  s.renamed.map fun r => .renamed r.1 r.2

end State

abbrev Pass := EStateM Failure State

def bind (name : String) : Pass String :=
  modifyGet (State.bind · name)

def bindAll : List Binder → Pass (List Binder)
  | [] => return []
  | x :: xs => do
    let name ← bind x.name
    let others ← bindAll xs
    return { x with name := name } :: others

def use (external : List String) (i : Identifier) : Pass Identifier := do
  match (← get).lookup i.name with
  | some name => return { i with name := name }
  | none => if external.contains i.name then return i else throw (.unresolved i)

def bindFunctions : List Stmt → Pass Unit
  | [] => return
  | .function ⟨f, _⟩ :: ss => do
    let _ ← bind f.name
    bindFunctions ss
  | _ :: ss => bindFunctions ss

def functionName (name : String) : Pass String := do
  match (← get).lookupHere name with
  | some name => return name
  | none => bind name

/--
The name of a function was bound with its block. Its parameters and return variables are in a scope
around its body.
-/
def enterFunction (f : Signature) : Pass Signature := do
  let name ← functionName f.name
  modify State.enter
  let parameters ← bindAll f.parameters
  let returns ← bindAll f.returns
  return { f with name := name, parameters := parameters, returns := returns }

def traversal (external : List String) : Traversal Pass where
  use := use external
  vars := bindAll
  enterFunction := enterFunction
  leaveFunction := modify State.leave
  enterBlock statements := do
    modify State.enter
    bindFunctions statements
  leaveBlock := modify State.leave
  stackForm form := throw (.unsupported form)

def run (info : Info) (b : Block) : EStateM.Result Failure State Block :=
  (traversal info.external).block b (.initial info b)

end Disambiguation

def disambiguate (info : Info) (b : Block) : Except Failure Block :=
  match Disambiguation.run info b with
  | .ok b _ => .ok b
  | .error e _ => .error e

def disambiguateTraced (info : Info) (b : Block) : Traced Block :=
  match Disambiguation.run info b with
  | .ok b s => ⟨s.events ++ [.disambiguated s.bindings s.renamed.length], .ok b⟩
  | .error e s => ⟨s.events, .error e⟩

end Splice
