import Splice.Proofs.Semantics.Machine

/-!
This module contains what programs do. The meaning of a part of a program is put together from the
meanings of its parts. Loops and calls go on as long as they have to, so that a run has a bound: how
often the condition of a loop is computed, and how deep the calls of the functions of a block are.
A program terminates if it has an outcome with some bound.
-/

namespace Splice

open Run

variable {m : Machine}

mutual

def Expr.eval (calls : Calls m) : Expr → Run m (List m.Value)
  | .literal l => return [m.literal l.kind l.text]
  | .identifier i => return [← read i.name]
  | .call _ callee arguments => do Run.call calls callee.name (← Expr.evalAll calls arguments)
  | .instruction _ name arguments => do Run.instruction name (← Expr.evalAll calls arguments)

def Expr.evalAll (calls : Calls m) : List Expr → Run m (List m.Value)
  | [] => return []
  | e :: es => do
    let vs ← Expr.evalAll calls es
    let v ← one (← e.eval calls)
    return v :: vs

end

def Expr.evalOne (calls : Calls m) (e : Expr) : Run m m.Value := do
  one (← e.eval calls)

mutual

def Stmt.exec (bound : Nat) (calls : Calls m) : Stmt → Run m Unit
  | .expression e => do nothing (← e.eval calls)
  | .declaration _ vars none => declareZeros vars
  | .declaration _ vars (some value) => do declareAll vars (← value.eval calls)
  | .assignment _ targets value => do assignAll targets (← value.eval calls)
  | .conditional _ condition body => do
    if (← condition.evalOne calls) = m.zero then return else body.exec bound calls
  | .switch _ subject arms => do
    Case.exec bound calls (← subject.evalOne calls) (pure ()) arms
  | .loop _ ⟨_, pre⟩ condition post body =>
    let inner := Calls.define (Stmt.closures bound pre) calls bound
    inScope do
      Stmt.execAll bound inner pre
      rounds (condition.evalOne inner) (do body.exec bound inner; post.exec bound inner) bound
  | .function _ => return
  | .block b => b.exec bound calls
  | .stack _ => stuck

def Stmt.execAll (bound : Nat) (calls : Calls m) : List Stmt → Run m Unit
  | [] => return
  | s :: ss => do
    s.exec bound calls
    Stmt.execAll bound calls ss

def Stmt.closures (bound : Nat) : List Stmt → List (Calls.Closure m)
  | [] => []
  | .function ⟨f, body⟩ :: ss =>
    (f.name, fun calls => invoke f (body.exec bound calls)) :: Stmt.closures bound ss
  | _ :: ss => Stmt.closures bound ss

def Block.exec (bound : Nat) (calls : Calls m) : Block → Run m Unit
  | ⟨_, ss⟩ => inScope (Stmt.execAll bound (Calls.define (Stmt.closures bound ss) calls bound) ss)

def Case.exec (bound : Nat) (calls : Calls m) (v : m.Value) (otherwise : Run m Unit) :
    List Case → Run m Unit
  | [] => otherwise
  | ⟨_, none, body⟩ :: cs => Case.exec bound calls v (body.exec bound calls) cs
  | ⟨_, some l, body⟩ :: cs =>
    if v = m.literal l.kind l.text then
      body.exec bound calls
    else
      Case.exec bound calls v otherwise cs

end

inductive Outcome (m : Machine) where
  | finished (world : World m)
  | halted (world : World m)

namespace Block

def run (b : Block) (bound : Nat) (start : World m) : Option (Outcome m) :=
  match b.exec bound Calls.empty ⟨fun _ => none, start⟩ with
  | none => none
  | some (.ok (_, μ)) => some (.finished μ.world)
  | some (.error world) => some (.halted world)

def Terminates (b : Block) (start : World m) (outcome : Outcome m) : Prop :=
  ∃ bound, b.run bound start = some outcome

end Block
end Splice
