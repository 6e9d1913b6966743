import Mathlib.Data.List.Perm.Basic
import Splice.Tree.Functions
import Splice.Tree.Names

/-!
This module contains what a tree is made of, beside the names and the functions that it binds: its
literals, its stack forms and its assignments, at every depth and in the order of the source.
-/

namespace Splice

mutual

def Expr.literals : Expr → List Literal
  | .literal l => [l]
  | .identifier _ => []
  | .call _ _ arguments => Expr.allLiterals arguments
  | .instruction _ _ arguments => Expr.allLiterals arguments

def Expr.allLiterals : List Expr → List Literal
  | [] => []
  | e :: es => e.literals ++ Expr.allLiterals es

end

mutual

def Stmt.literals : Stmt → List Literal
  | .expression e => e.literals
  | .declaration _ _ value => value.elim [] Expr.literals
  | .assignment _ _ value => value.literals
  | .conditional _ condition body => condition.literals ++ body.literals
  | .switch _ subject arms => subject.literals ++ Case.allLiterals arms
  | .loop _ pre condition post body =>
    pre.literals ++ condition.literals ++ post.literals ++ body.literals
  | .function ⟨_, body⟩ => body.literals
  | .block b => b.literals
  | .stack _ => []

def Stmt.allLiterals : List Stmt → List Literal
  | [] => []
  | s :: ss => s.literals ++ Stmt.allLiterals ss

def Block.literals : Block → List Literal
  | ⟨_, ss⟩ => Stmt.allLiterals ss

def Case.allLiterals : List Case → List Literal
  | [] => []
  | ⟨_, value, body⟩ :: cs => value.toList ++ body.literals ++ Case.allLiterals cs

end

mutual

def Stmt.stackForms : Stmt → List StackForm
  | .expression _ => []
  | .declaration .. => []
  | .assignment .. => []
  | .conditional _ _ body => body.stackForms
  | .switch _ _ arms => Case.allStackForms arms
  | .loop _ pre _ post body => pre.stackForms ++ post.stackForms ++ body.stackForms
  | .function ⟨_, body⟩ => body.stackForms
  | .block b => b.stackForms
  | .stack form => [form]

def Stmt.allStackForms : List Stmt → List StackForm
  | [] => []
  | s :: ss => s.stackForms ++ Stmt.allStackForms ss

def Block.stackForms : Block → List StackForm
  | ⟨_, ss⟩ => Stmt.allStackForms ss

def Case.allStackForms : List Case → List StackForm
  | [] => []
  | ⟨_, _, body⟩ :: cs => body.stackForms ++ Case.allStackForms cs

end

mutual

def Stmt.assignments : Stmt → List (List Identifier)
  | .expression _ => []
  | .declaration .. => []
  | .assignment _ targets _ => [targets]
  | .conditional _ _ body => body.assignments
  | .switch _ _ arms => Case.allAssignments arms
  | .loop _ pre _ post body => pre.assignments ++ post.assignments ++ body.assignments
  | .function ⟨_, body⟩ => body.assignments
  | .block b => b.assignments
  | .stack (.assignment _ target) => [[target]]
  | .stack _ => []

def Stmt.allAssignments : List Stmt → List (List Identifier)
  | [] => []
  | s :: ss => s.assignments ++ Stmt.allAssignments ss

def Block.assignments : Block → List (List Identifier)
  | ⟨_, ss⟩ => Stmt.allAssignments ss

def Case.allAssignments : List Case → List (List Identifier)
  | [] => []
  | ⟨_, _, body⟩ :: cs => body.assignments ++ Case.allAssignments cs

end

def Block.Assigns (b : Block) (x : String) : Prop :=
  ∃ targets ∈ b.assignments, x ∈ targets.map Identifier.name

/-! ## The names of a block -/

namespace Stmt

def announced : Stmt → List String
  | .function ⟨f, _⟩ => [f.name]
  | .stack (.label _ name) => [name]
  | _ => []

def declared : Stmt → List Binder
  | .declaration _ vars _ => vars
  | _ => []

def innerNames : Stmt → List String
  | .function ⟨f, body⟩ => f.parameters.map Binder.name ++ f.returns.map Binder.name ++ body.boundNames
  | .stack _ => []
  | s => s.boundNames

theorem boundNames_eq (s : Stmt) : s.boundNames = s.announced ++ s.innerNames := by
  cases s with
  | function f =>
    obtain ⟨f, body⟩ := f
    simp [boundNames, announced, innerNames]
  | stack form => cases form <;> rfl
  | _ => rfl

theorem allBoundNames_eq_flatMap (ss : List Stmt) : allBoundNames ss = ss.flatMap boundNames := by
  induction ss with
  | nil => rfl
  | cons s ss ih => rw [allBoundNames, ih, List.flatMap_cons]

theorem allBoundNames_append (ss ts : List Stmt) :
    allBoundNames (ss ++ ts) = allBoundNames ss ++ allBoundNames ts := by
  simp only [allBoundNames_eq_flatMap, List.flatMap_append]

theorem allBoundNames_singleton (s : Stmt) : allBoundNames [s] = s.boundNames :=
  List.append_nil _

theorem allBoundNames_perm (ss : List Stmt) :
    (allBoundNames ss).Perm (ss.flatMap announced ++ ss.flatMap innerNames) := by
  rw [allBoundNames_eq_flatMap, funext boundNames_eq]
  exact (List.flatMap_append_perm ss announced innerNames).symm

theorem declared_subset (s : Stmt) : s.declared.map Binder.name ⊆ s.innerNames := by
  unfold declared
  split
  . exact List.Subset.refl _
  . exact List.nil_subset _

theorem allDeclared_subset (ss : List Stmt) :
    (ss.flatMap declared).map Binder.name ⊆ ss.flatMap innerNames := by
  intro x hx
  rw [List.map_flatMap, List.mem_flatMap] at hx
  obtain ⟨s, hs, hx⟩ := hx
  exact List.mem_flatMap.2 ⟨s, hs, s.declared_subset hx⟩

end Stmt
end Splice
