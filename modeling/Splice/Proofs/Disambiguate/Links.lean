import Splice.Proofs.Tree.Parts

/-!
This module contains the resolution of names: for each use of a name, the place where it is bound.
Functions are visible in all of their block, or of the loop if it is the first block of one, and
variables behind their declaration. A function does not see the variables around it.
-/

namespace Splice

inductive Link where
  /--
  The place with this number among all that bind a name, in the order of the source.
  -/
  | site (number : Nat)
  | host (name : String)
  | unbound (name : String)
deriving DecidableEq, Repr

structure Site where
  name : String
  number : Nat
  isVariable : Bool
deriving DecidableEq, Repr

namespace Site

def link (external : List String) (sites : List Site) (name : String) : Link :=
  match sites.find? fun site => site.name = name with
  | some site => .site site.number
  | none => if name ∈ external then .host name else .unbound name

def declare (sites : List Site) (n : Nat) : List Binder → List Site
  | [] => sites
  | x :: xs => declare (⟨x.name, n, true⟩ :: sites) (n + 1) xs

theorem declare_append (sites : List Site) (n : Nat) (xs ys : List Binder) :
    declare sites n (xs ++ ys) = declare (declare sites n xs) (n + xs.length) ys := by
  induction xs generalizing sites n with
  | nil => rfl
  | cons x xs ih =>
    simp only [List.cons_append, declare, ih, List.length_cons]
    congr 1
    omega

def announce (sites : List Site) (n : Nat) : Stmt → List Site
  | .function ⟨f, _⟩ => ⟨f.name, n, false⟩ :: sites
  | _ => sites

def enter (sites : List Site) (n : Nat) : List Stmt → List Site
  | [] => sites
  | s :: ss => enter (announce sites n s) (n + s.boundNames.length) ss

def after (sites : List Site) (n : Nat) : List Stmt → List Site
  | [] => sites
  | s :: ss => after (declare sites n s.declared) (n + s.boundNames.length) ss

def enterFunction (sites : List Site) (n : Nat) (xs : List Binder) : List Site :=
  declare (sites.filter fun site => !site.isVariable) n xs

end Site

variable (external : List String)

mutual

def Expr.links (sites : List Site) : Expr → List Link
  | .literal _ => []
  | .identifier i => [Site.link external sites i.name]
  | .call _ callee arguments =>
    Site.link external sites callee.name :: Expr.allLinks sites arguments
  | .instruction _ _ arguments => Expr.allLinks sites arguments

def Expr.allLinks (sites : List Site) : List Expr → List Link
  | [] => []
  | e :: es => e.links sites ++ Expr.allLinks sites es

end

mutual

def Stmt.links (sites : List Site) (n : Nat) : Stmt → List Link
  | .expression e => e.links external sites
  | .declaration _ _ none => []
  | .declaration _ _ (some value) => value.links external sites
  | .assignment _ targets value =>
    (targets.map fun i => Site.link external sites i.name) ++ value.links external sites
  | .conditional _ condition body => condition.links external sites ++ body.links sites n
  | .switch _ subject arms => subject.links external sites ++ Case.allLinks sites n arms
  | .loop _ ⟨_, pre⟩ condition post body =>
    let start := Site.enter sites n pre
    let rest := Site.after start n pre
    let n' := n + (Stmt.allBoundNames pre).length
    Stmt.allLinks start n pre ++ condition.links external rest ++ post.links rest n' ++
      body.links rest (n' + post.boundNames.length)
  | .function ⟨f, body⟩ =>
    let xs := f.parameters ++ f.returns
    body.links (Site.enterFunction sites (n + 1) xs) (n + 1 + xs.length)
  | .block b => b.links sites n
  | .stack (.assignment _ target) => [Site.link external sites target.name]
  | .stack _ => []

def Stmt.allLinks (sites : List Site) (n : Nat) : List Stmt → List Link
  | [] => []
  | s :: ss =>
    s.links sites n ++ Stmt.allLinks (Site.declare sites n s.declared) (n + s.boundNames.length) ss

/--
What the uses of names in a block refer to, in the order of the source, where the first name that
the block binds has the number `n`.
-/
def Block.links (sites : List Site) (n : Nat) : Block → List Link
  | ⟨_, ss⟩ => Stmt.allLinks (Site.enter sites n ss) n ss

def Case.allLinks (sites : List Site) (n : Nat) : List Case → List Link
  | [] => []
  | ⟨_, _, body⟩ :: cs => body.links sites n ++ Case.allLinks sites (n + body.boundNames.length) cs

end

end Splice
