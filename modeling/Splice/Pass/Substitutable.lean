import Splice.Pass.Failure
import Splice.Text.Order
import Splice.Tree.Basic

/-!
This module contains the search for the functions whose calls can be replaced by an expression.
-/

namespace Splice

namespace Expr

mutual

def mentions (names : List String) : Expr → Bool
  | .literal _ => false
  | .identifier i => names.contains i.name
  | .call _ callee arguments => names.contains callee.name || anyMentions names arguments
  | .instruction _ _ arguments => anyMentions names arguments

def anyMentions (names : List String) : List Expr → Bool
  | [] => false
  | e :: es => e.mentions names || anyMentions names es

end

end Expr

namespace Function

/--
Whether a call of the function can be replaced by an expression: there is one return variable, and
the body only assigns to it a value that uses neither the return variable nor the function.
-/
def isSubstitutable (f : Function) : Bool :=
  match f.returns, f.body.statements with
  | [x], [.assignment _ [target] value] =>
    target.name = x.name && !value.mentions [f.name, x.name]
  | _, _ => false

end Function

mutual

def Stmt.substitutable : Stmt → Except Failure (List Function)
  | .expression _ => return []
  | .declaration .. => return []
  | .assignment .. => return []
  | .conditional _ _ body => body.substitutable
  | .switch _ _ cases => Case.allSubstitutable cases
  | .loop _ pre _ post body => do
    let first ← pre.substitutable
    let second ← post.substitutable
    let third ← body.substitutable
    return first ++ second ++ third
  | .function ⟨signature, body⟩ => do
    let inner ← body.substitutable
    let f : Function := ⟨signature, body⟩
    return if f.isSubstitutable then f :: inner else inner
  | .block b => b.substitutable
  | .stack form => throw (.unsupported form)

def Stmt.allSubstitutable : List Stmt → Except Failure (List Function)
  | [] => return []
  | s :: ss => do
    let first ← s.substitutable
    let others ← Stmt.allSubstitutable ss
    return first ++ others

def Block.substitutable : Block → Except Failure (List Function)
  | ⟨_, statements⟩ => Stmt.allSubstitutable statements

def Case.allSubstitutable : List Case → Except Failure (List Function)
  | [] => return []
  | ⟨_, _, body⟩ :: cs => do
    let first ← body.substitutable
    let others ← Case.allSubstitutable cs
    return first ++ others

end

/--
The substitutable functions of a program, in the order of their names. Of those with one name the
last one counts.
-/
def substitutableFunctions (b : Block) : Except Failure (List Function) :=
  return Text.orderBy (fun f => f.name) (← b.substitutable)

end Splice
