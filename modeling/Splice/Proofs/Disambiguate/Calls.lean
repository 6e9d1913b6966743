import Splice.Proofs.Disambiguate.Links
import Splice.Proofs.Tree.Occurrences

/-!
This module contains the calls of a program, resolved: which function is called in the body of which
other one, where functions are told apart by the places that bind their names. This is the same for
all programs that differ in nothing but their names.
-/

namespace Splice

structure Use where
  caller : Option Nat
  isCall : Bool
  link : Link
deriving DecidableEq, Repr

variable (external : List String)

mutual

def Expr.uses (caller : Option Nat) (sites : List Site) : Expr → List Use
  | .literal _ => []
  | .identifier i => [⟨caller, false, Site.link external sites i.name⟩]
  | .call _ callee arguments =>
    ⟨caller, true, Site.link external sites callee.name⟩ :: Expr.allUses caller sites arguments
  | .instruction _ _ arguments => Expr.allUses caller sites arguments

def Expr.allUses (caller : Option Nat) (sites : List Site) : List Expr → List Use
  | [] => []
  | e :: es => e.uses caller sites ++ Expr.allUses caller sites es

end

mutual

def Stmt.uses (caller : Option Nat) (sites : List Site) (n : Nat) : Stmt → List Use
  | .expression e => e.uses external caller sites
  | .declaration _ _ none => []
  | .declaration _ _ (some value) => value.uses external caller sites
  | .assignment _ targets value =>
    (targets.map fun i => ⟨caller, false, Site.link external sites i.name⟩) ++
      value.uses external caller sites
  | .conditional _ condition body =>
    condition.uses external caller sites ++ body.uses caller sites n
  | .switch _ subject arms => subject.uses external caller sites ++ Case.allUses caller sites n arms
  | .loop _ ⟨_, pre⟩ condition post body =>
    let start := Site.enter sites n pre
    let rest := Site.after start n pre
    let n' := n + (Stmt.allBoundNames pre).length
    Stmt.allUses caller start n pre ++ condition.uses external caller rest ++
      post.uses caller rest n' ++ body.uses caller rest (n' + post.boundNames.length)
  | .function ⟨f, body⟩ =>
    let xs := f.parameters ++ f.returns
    body.uses (some n) (Site.enterFunction sites (n + 1) xs) (n + 1 + xs.length)
  | .block b => b.uses caller sites n
  | .stack (.assignment _ target) => [⟨caller, false, Site.link external sites target.name⟩]
  | .stack _ => []

def Stmt.allUses (caller : Option Nat) (sites : List Site) (n : Nat) : List Stmt → List Use
  | [] => []
  | s :: ss =>
    s.uses caller sites n ++
      Stmt.allUses caller (Site.declare sites n s.declared) (n + s.boundNames.length) ss

def Block.uses (caller : Option Nat) (sites : List Site) (n : Nat) : Block → List Use
  | ⟨_, ss⟩ => Stmt.allUses caller (Site.enter sites n ss) n ss

def Case.allUses (caller : Option Nat) (sites : List Site) (n : Nat) : List Case → List Use
  | [] => []
  | ⟨_, _, body⟩ :: cs =>
    body.uses caller sites n ++ Case.allUses caller sites (n + body.boundNames.length) cs

end

/--
In the body of the function with the number `i`, not in a function within it, the one with the
number `j` is called.
-/
def Block.Invokes (b : Block) (i j : Nat) : Prop :=
  ⟨some i, true, .site j⟩ ∈ b.uses external none [] 0

/-! ## The same program with other names -/

mutual

theorem Expr.map_link_uses (caller : Option Nat) (sites : List Site) :
    (e : Expr) → (e.uses external caller sites).map Use.link = e.links external sites
  | .literal _ => rfl
  | .identifier _ => rfl
  | .call _ _ arguments => congrArg (_ :: ·) (Expr.map_link_allUses caller sites arguments)
  | .instruction _ _ arguments => Expr.map_link_allUses caller sites arguments

theorem Expr.map_link_allUses (caller : Option Nat) (sites : List Site) : (es : List Expr) →
    (Expr.allUses external caller sites es).map Use.link = Expr.allLinks external sites es
  | [] => rfl
  | e :: es => by
    rw [Expr.allUses, Expr.allLinks, List.map_append, e.map_link_uses, Expr.map_link_allUses]

end

mutual

theorem Stmt.map_link_uses (caller : Option Nat) (sites : List Site) (n : Nat) :
    (s : Stmt) → (s.uses external caller sites n).map Use.link = s.links external sites n
  | .expression e => e.map_link_uses external caller sites
  | .declaration _ _ none => rfl
  | .declaration _ _ (some value) => value.map_link_uses external caller sites
  | .assignment _ targets value => by
    rw [Stmt.uses, Stmt.links, List.map_append, List.map_map, value.map_link_uses]
    rfl
  | .conditional _ condition body => by
    rw [Stmt.uses, Stmt.links, List.map_append, condition.map_link_uses, body.map_link_uses]
  | .switch _ subject arms => by
    rw [Stmt.uses, Stmt.links, List.map_append, subject.map_link_uses,
      Case.map_link_allUses caller sites n arms]
  | .loop _ ⟨_, pre⟩ condition post body => by
    simp only [Stmt.uses, Stmt.links, List.map_append, Stmt.map_link_allUses, Expr.map_link_uses,
      Block.map_link_uses]
  | .function ⟨f, body⟩ => body.map_link_uses _ _ _
  | .block b => b.map_link_uses caller sites n
  | .stack (.label ..) => rfl
  | .stack (.assignment ..) => rfl
  | .stack (.instruction ..) => rfl

theorem Stmt.map_link_allUses (caller : Option Nat) (sites : List Site) (n : Nat) :
    (ss : List Stmt) →
    (Stmt.allUses external caller sites n ss).map Use.link = Stmt.allLinks external sites n ss
  | [] => rfl
  | s :: ss => by
    rw [Stmt.allUses, Stmt.allLinks, List.map_append, s.map_link_uses, Stmt.map_link_allUses]

theorem Block.map_link_uses (caller : Option Nat) (sites : List Site) (n : Nat) :
    (b : Block) → (b.uses external caller sites n).map Use.link = b.links external sites n
  | ⟨_, ss⟩ => Stmt.map_link_allUses caller _ n ss

theorem Case.map_link_allUses (caller : Option Nat) (sites : List Site) (n : Nat) :
    (cs : List Case) →
    (Case.allUses external caller sites n cs).map Use.link = Case.allLinks external sites n cs
  | [] => rfl
  | ⟨_, _, body⟩ :: cs => by
    rw [Case.allUses, Case.allLinks, List.map_append, body.map_link_uses, Case.map_link_allUses]

end

mutual

theorem Stmt.length_boundNames_anonymous :
    (s : Stmt) → s.anonymous.boundNames.length = s.boundNames.length
  | .expression _ => rfl
  | .declaration _ vars _ => by
    simp only [Stmt.anonymous, Stmt.boundNames, List.length_map]
  | .assignment .. => rfl
  | .conditional _ _ body => body.length_boundNames_anonymous
  | .switch _ _ arms => Case.length_allBoundNames_anonymous arms
  | .loop _ pre _ post body => by
    simp only [Stmt.anonymous, Stmt.boundNames, List.length_append, pre.length_boundNames_anonymous,
      post.length_boundNames_anonymous, body.length_boundNames_anonymous]
  | .function ⟨f, body⟩ => by
    simp only [Stmt.anonymous, Signature.anonymous, Stmt.boundNames, List.length_append,
      List.length_cons, List.length_map, body.length_boundNames_anonymous]
  | .block b => b.length_boundNames_anonymous
  | .stack (.label ..) => rfl
  | .stack (.assignment ..) => rfl
  | .stack (.instruction ..) => rfl

theorem Stmt.length_allBoundNames_anonymous : (ss : List Stmt) →
    (Stmt.allBoundNames (Stmt.allAnonymous ss)).length = (Stmt.allBoundNames ss).length
  | [] => rfl
  | s :: ss => by
    simp only [Stmt.allAnonymous, Stmt.allBoundNames, List.length_append,
      s.length_boundNames_anonymous, Stmt.length_allBoundNames_anonymous ss]

theorem Block.length_boundNames_anonymous :
    (b : Block) → b.anonymous.boundNames.length = b.boundNames.length
  | ⟨_, ss⟩ => Stmt.length_allBoundNames_anonymous ss

theorem Case.length_allBoundNames_anonymous : (cs : List Case) →
    (Case.allBoundNames (Case.allAnonymous cs)).length = (Case.allBoundNames cs).length
  | [] => rfl
  | ⟨_, _, body⟩ :: cs => by
    simp only [Case.allAnonymous, Case.allBoundNames, List.length_append,
      body.length_boundNames_anonymous, Case.length_allBoundNames_anonymous cs]

end

def Use.role (u : Use) : Option Nat × Bool := (u.caller, u.isCall)

mutual

theorem Expr.map_role_uses (caller : Option Nat) (sites sites' : List Site) : (e : Expr) →
    (e.anonymous.uses external caller sites').map Use.role =
      (e.uses external caller sites).map Use.role
  | .literal _ => rfl
  | .identifier _ => rfl
  | .call _ _ arguments => congrArg (_ :: ·) (Expr.map_role_allUses caller sites sites' arguments)
  | .instruction _ _ arguments => Expr.map_role_allUses caller sites sites' arguments

theorem Expr.map_role_allUses (caller : Option Nat) (sites sites' : List Site) :
    (es : List Expr) →
    (Expr.allUses external caller sites' (Expr.allAnonymous es)).map Use.role =
      (Expr.allUses external caller sites es).map Use.role
  | [] => rfl
  | e :: es => by
    rw [Expr.allAnonymous, Expr.allUses, Expr.allUses, List.map_append, List.map_append,
      Expr.map_role_uses caller sites sites' e, Expr.map_role_allUses caller sites sites' es]

end

mutual

theorem Stmt.map_role_uses (caller : Option Nat) (sites sites' : List Site) (n : Nat) :
    (s : Stmt) → (s.anonymous.uses external caller sites' n).map Use.role =
      (s.uses external caller sites n).map Use.role
  | .expression e => e.map_role_uses external caller sites sites'
  | .declaration _ _ none => rfl
  | .declaration _ _ (some value) => value.map_role_uses external caller sites sites'
  | .assignment _ targets value => by
    simp only [Stmt.anonymous, Stmt.uses, List.map_append, List.map_map,
      value.map_role_uses external caller sites sites']
    rfl
  | .conditional _ condition body => by
    rw [Stmt.anonymous, Stmt.uses, Stmt.uses, List.map_append, List.map_append,
      condition.map_role_uses external caller sites sites',
      Block.map_role_uses caller sites sites' n body]
  | .switch _ subject arms => by
    rw [Stmt.anonymous, Stmt.uses, Stmt.uses, List.map_append, List.map_append,
      subject.map_role_uses external caller sites sites',
      Case.map_role_allUses caller sites sites' n arms]
  | .loop _ ⟨_, pre⟩ condition post body => by
    simp only [Stmt.anonymous, Block.anonymous, Stmt.uses, List.map_append,
      Stmt.length_allBoundNames_anonymous, Block.length_boundNames_anonymous]
    congr 1
    . congr 1
      . congr 1
        . exact Stmt.map_role_allUses caller _ _ n pre
        . exact condition.map_role_uses external caller _ _
      . exact Block.map_role_uses caller _ _ _ post
    . exact Block.map_role_uses caller _ _ _ body
  | .function ⟨f, body⟩ => by
    simp only [Stmt.anonymous, Signature.anonymous, Stmt.uses, List.length_append, List.length_map]
    exact Block.map_role_uses (some n) _ _ _ body
  | .block b => Block.map_role_uses caller sites sites' n b
  | .stack (.label ..) => rfl
  | .stack (.assignment ..) => rfl
  | .stack (.instruction ..) => rfl

theorem Stmt.map_role_allUses (caller : Option Nat) (sites sites' : List Site) (n : Nat) :
    (ss : List Stmt) →
    (Stmt.allUses external caller sites' n (Stmt.allAnonymous ss)).map Use.role =
      (Stmt.allUses external caller sites n ss).map Use.role
  | [] => rfl
  | s :: ss => by
    simp only [Stmt.allAnonymous, Stmt.allUses, List.map_append, s.length_boundNames_anonymous]
    congr 1
    . exact Stmt.map_role_uses caller sites sites' n s
    . exact Stmt.map_role_allUses caller _ _ _ ss

theorem Block.map_role_uses (caller : Option Nat) (sites sites' : List Site) (n : Nat) :
    (b : Block) → (b.anonymous.uses external caller sites' n).map Use.role =
      (b.uses external caller sites n).map Use.role
  | ⟨_, ss⟩ => Stmt.map_role_allUses caller _ _ n ss

theorem Case.map_role_allUses (caller : Option Nat) (sites sites' : List Site) (n : Nat) :
    (cs : List Case) →
    (Case.allUses external caller sites' n (Case.allAnonymous cs)).map Use.role =
      (Case.allUses external caller sites n cs).map Use.role
  | [] => rfl
  | ⟨_, _, body⟩ :: cs => by
    simp only [Case.allAnonymous, Case.allUses, List.map_append, body.length_boundNames_anonymous]
    congr 1
    . exact Block.map_role_uses caller sites sites' n body
    . exact Case.map_role_allUses caller sites sites' _ cs

end

/--
Programs that differ in nothing but their names, and in which the names are bound at the same
places, have the same uses.
-/
theorem Block.uses_eq {b b' : Block} (hshape : b'.anonymous = b.anonymous)
    (hlinks : b'.links external [] 0 = b.links external [] 0) :
    b'.uses external none [] 0 = b.uses external none [] 0 := by
  have hroles : (b'.uses external none [] 0).map Use.role =
      (b.uses external none [] 0).map Use.role := by
    rw [← b'.map_role_uses external none [] [] 0, ← b.map_role_uses external none [] [] 0, hshape]
  rw [← b'.map_link_uses external none [] 0, ← b.map_link_uses external none [] 0] at hlinks
  have hpairs := congrArg₂ List.zip hroles hlinks
  rw [List.zip_map', List.zip_map'] at hpairs
  refine List.map_injective_iff.2 ?_ hpairs
  rintro ⟨caller, isCall, link⟩ ⟨caller', isCall', link'⟩ h
  injection h with hrole hlink
  injection hrole with hcaller hcall
  dsimp only at hcaller hcall hlink
  rw [hcaller, hcall, hlink]

end Splice
