import Splice.Tree.Basic

/-!
This module contains the names that a tree binds: variables, parameters, return variables, functions
and labels, at every depth.
-/

namespace Splice

mutual

def Stmt.boundNames : Stmt → List String
  | .expression _ => []
  | .declaration _ vars _ => vars.map Binder.name
  | .assignment .. => []
  | .conditional _ _ body => body.boundNames
  | .switch _ _ cases => Case.allBoundNames cases
  | .loop _ pre _ post body => pre.boundNames ++ post.boundNames ++ body.boundNames
  | .function ⟨signature, body⟩ =>
    signature.name :: signature.parameters.map Binder.name ++ signature.returns.map Binder.name
      ++ body.boundNames
  | .block b => b.boundNames
  | .stack (.label _ name) => [name]
  | .stack _ => []

def Stmt.allBoundNames : List Stmt → List String
  | [] => []
  | s :: ss => s.boundNames ++ Stmt.allBoundNames ss

def Block.boundNames : Block → List String
  | ⟨_, statements⟩ => Stmt.allBoundNames statements

def Case.allBoundNames : List Case → List String
  | [] => []
  | ⟨_, _, body⟩ :: cs => body.boundNames ++ Case.allBoundNames cs

end

end Splice
