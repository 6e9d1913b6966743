import Splice.Proofs.Tree.Parts

/-!
This module contains the order in which the bindings of a tree are visited. It differs from that of
the source in that a block starts with what is visible in all of it.
-/

namespace Splice

mutual

def Stmt.bindings : Stmt → List String
  | .expression _ => []
  | .declaration _ vars _ => vars.map Binder.name
  | .assignment .. => []
  | .conditional _ _ body => body.bindings
  | .switch _ _ cases => Case.allBindings cases
  | .loop _ ⟨_, pre⟩ _ post body =>
    pre.flatMap Stmt.announced ++ (Stmt.allBindings pre ++ (post.bindings ++ body.bindings))
  | .function ⟨signature, body⟩ =>
    signature.parameters.map Binder.name ++ (signature.returns.map Binder.name ++ body.bindings)
  | .block b => b.bindings
  | .stack _ => []

def Stmt.allBindings : List Stmt → List String
  | [] => []
  | s :: ss => s.bindings ++ Stmt.allBindings ss

/--
The names that a block binds, in the order in which they are visited and as often as they are bound.
-/
def Block.bindings : Block → List String
  | ⟨_, statements⟩ => statements.flatMap Stmt.announced ++ Stmt.allBindings statements

def Case.allBindings : List Case → List String
  | [] => []
  | ⟨_, _, body⟩ :: cs => body.bindings ++ Case.allBindings cs

end

mutual

theorem Stmt.bindings_perm : (s : Stmt) → s.bindings.Perm s.innerNames
  | .expression _ => .nil
  | .declaration .. => .refl _
  | .assignment .. => .nil
  | .conditional _ _ body => Block.bindings_perm body
  | .switch _ _ cases => Case.allBindings_perm cases
  | .loop _ ⟨span, pre⟩ _ post body => by
    have hpre := (Block.bindings_perm ⟨span, pre⟩).append (Block.bindings_perm post)
    simp only [Stmt.bindings, ← List.append_assoc]
    exact hpre.append (Block.bindings_perm body)
  | .function ⟨signature, body⟩ => by
    simp only [Stmt.bindings, Stmt.innerNames, ← List.append_assoc]
    exact (Block.bindings_perm body).append_left _
  | .block b => Block.bindings_perm b
  | .stack _ => .nil

theorem Stmt.allBindings_perm :
    (ss : List Stmt) → (Stmt.allBindings ss).Perm (ss.flatMap Stmt.innerNames)
  | [] => .nil
  | s :: ss => (Stmt.bindings_perm s).append (Stmt.allBindings_perm ss)

theorem Block.bindings_perm : (b : Block) → b.bindings.Perm b.boundNames
  | ⟨_, ss⟩ => ((Stmt.allBindings_perm ss).append_left _).trans (Stmt.allBoundNames_perm ss).symm

theorem Case.allBindings_perm :
    (cs : List Case) → (Case.allBindings cs).Perm (Case.allBoundNames cs)
  | [] => .nil
  | ⟨_, _, body⟩ :: cs => (Block.bindings_perm body).append (Case.allBindings_perm cs)

end

end Splice
