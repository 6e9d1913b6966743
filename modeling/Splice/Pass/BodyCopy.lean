import Splice.Names.Supply
import Splice.Pass.Failure
import Splice.Tree.Traversal

/-!
This module contains the copying of the body of a function to the place of a call. The names of
parameters and return variables are replaced, and every variable that the body declares gets a fresh
name.
-/

namespace Splice

namespace BodyCopy

structure State where
  supply : Supply
  replacements : List (String × String)

abbrev Pass := EStateM Failure State

def use (i : Identifier) : Pass Identifier :=
  return { i with name := ((← get).replacements.lookup i.name).getD i.name }

def declare (label : String) : List Binder → Pass (List Binder)
  | [] => return []
  | x :: xs => do
    let s ← get
    let (name, supply) := s.supply.fresh (label ++ x.name)
    set ({ supply := supply, replacements := (x.name, name) :: s.replacements } : State)
    let others ← declare label xs
    return { x with name := name } :: others

def traversal (label : String) : Traversal Pass :=
  { Traversal.ofUse use with
    vars := declare label
    enterFunction := fun f => throw (.nestedFunction f)
    stackForm := fun form => throw (.unsupported form) }

end BodyCopy

/--
Copies a body. The supply grows by the names of its variables, all of which start with `label`.
-/
def copyBody (label : String) (replacements : List (String × String)) (body : Block) :
    EStateM Failure Supply Block := fun supply =>
  match (BodyCopy.traversal label).block body ⟨supply, replacements⟩ with
  | .ok body s => .ok body s.supply
  | .error e s => .error e s.supply

end Splice
