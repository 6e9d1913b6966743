import Splice.Tree.Basic

/-!
This module contains the functions that a tree defines, at every depth.
-/

namespace Splice

mutual

def Stmt.functions : Stmt → List Function
  | .expression _ => []
  | .declaration .. => []
  | .assignment .. => []
  | .conditional _ _ body => body.functions
  | .switch _ _ cases => Case.allFunctions cases
  | .loop _ pre _ post body => pre.functions ++ post.functions ++ body.functions
  | .function ⟨signature, body⟩ => ⟨signature, body⟩ :: body.functions
  | .block b => b.functions
  | .stack _ => []

def Stmt.allFunctions : List Stmt → List Function
  | [] => []
  | s :: ss => s.functions ++ Stmt.allFunctions ss

def Block.functions : Block → List Function
  | ⟨_, statements⟩ => Stmt.allFunctions statements

def Case.allFunctions : List Case → List Function
  | [] => []
  | ⟨_, _, body⟩ :: cs => body.functions ++ Case.allFunctions cs

end

def Block.function? (b : Block) (name : String) : Option Function :=
  b.functions.reverse.find? fun f => f.name = name

end Splice
